import Mathlib.Algebra.Order.Group.Nat
import Mathlib.Data.List.Basic

/-!
# Going round a list

Indices modulo its length go round a list: the whole of it as often as it fits, and then a front of
it (`map_getD_mod`). So every entry that the list has once comes up equally often, up to one
(`count_getD_mod_le`).
-/

namespace SmipMwp

variable {α : Type*} {l : List α}

theorem map_getD_range (l : List α) (d : α) {n : ℕ} (h : n ≤ l.length) :
    (List.range n).map (fun i => l.getD i d) = l.take n := by
  refine List.ext_getElem (by simp [h]) fun i hi hi' => ?_
  have hlt : i < l.length := by
    rw [List.length_take] at hi'
    omega
  simp [hlt]

/-- **What indices modulo the length give**: rounds, and a part of the next. -/
theorem map_getD_mod (hne : l ≠ []) (d : α) (n : ℕ) :
    (List.range n).map (fun i => l.getD (i % l.length) d) =
      (List.replicate (n / l.length) l).flatten ++ l.take (n % l.length) := by
  have hpos := List.length_pos_of_ne_nil hne
  have hmod (m : ℕ) (hm : m ≤ l.length) :
      (List.range m).map (fun i => l.getD (i % l.length) d) = l.take m := by
    rw [← map_getD_range l d hm]
    refine List.map_congr_left fun i hi => ?_
    rw [Nat.mod_eq_of_lt ((List.mem_range.mp hi).trans_le hm)]
  -- One round at a time.
  induction n using Nat.strongRecOn with
  | _ n ih =>
    by_cases hlt : n < l.length
    · rw [hmod n hlt.le, Nat.div_eq_of_lt hlt, Nat.mod_eq_of_lt hlt]
      rfl
    · obtain ⟨m, rfl⟩ := Nat.exists_eq_add_of_le (Nat.not_lt.mp hlt)
      have hshift : (fun i => l.getD (i % l.length) d) ∘ (l.length + ·) =
          fun i => l.getD (i % l.length) d := by
        funext i
        rw [Function.comp_apply, Nat.add_mod_left]
      rw [List.range_add, List.map_append, List.map_map, hshift, ih m (by omega),
        hmod _ le_rfl, List.take_length, Nat.add_div_left m hpos, Nat.add_mod_left,
        List.replicate_succ, List.flatten_cons, List.append_assoc]

section Count

variable [BEq α]

/-- How often an entry comes up. -/
theorem count_getD_mod (hne : l ≠ []) (d : α) (n : ℕ) (a : α) :
    ((List.range n).map fun i => l.getD (i % l.length) d).count a =
      n / l.length * l.count a + (l.take (n % l.length)).count a := by
  rw [map_getD_mod hne, List.count_append, List.count_flatten, List.map_replicate,
    List.sum_replicate_nat]

/-- **Entries that the list has once come up equally often**, up to one. -/
theorem count_getD_mod_le (d : α) (n : ℕ) {a b : α} (ha : l.count a = 1) (hb : l.count b = 1) :
    ((List.range n).map fun i => l.getD (i % l.length) d).count a ≤
      ((List.range n).map fun i => l.getD (i % l.length) d).count b + 1 := by
  have hne : l ≠ [] := by
    rintro rfl
    cases ha
  have hle := (List.take_sublist (n % l.length) l).count_le a
  rw [count_getD_mod hne, count_getD_mod hne, ha, hb]
  omega

end Count

end SmipMwp
