import Mathlib.Algebra.Order.Monoid.Defs
import Mathlib.Algebra.Order.Monoid.Unbundled.Pow
import Mathlib.Data.List.Basic

/-!
# Spaced lists

A list is spaced by `d` when each of its elements is at least `d` above the ones before it. From
`n + 1` such elements the last is at least `n * d` above the first, so a window of width `w` holds
`n + 1` of them only if `n * d < w` (`Spaced.nsmul_lt`); the multiples of `d` above a start attain
this (`spaced_progression`).

`thin` keeps the elements that are at least `d` above the last one kept. What it keeps is spaced
(`spaced_thin`), and it keeps a spaced list as it is (`thin_of_spaced`).
-/

namespace SmipMwp

variable {α : Type*} [AddCommMonoid α] [LinearOrder α] {d : α}

/-- Every element is at least `d` above the ones before it. -/
def Spaced (d : α) (l : List α) : Prop := l.Pairwise fun a b => a + d ≤ b

theorem Spaced.sublist {l l' : List α} (h : Spaced d l) (hsub : l'.Sublist l) : Spaced d l' :=
  List.Pairwise.sublist hsub h

/-- The elements that are at least `d` above the last one kept. -/
def thin (d : α) : Option α → List α → List α
  | _, [] => []
  | none, t :: ts => t :: thin d (some t) ts
  | some last, t :: ts => if last + d ≤ t then t :: thin d (some t) ts else thin d (some last) ts

theorem thin_of_spaced {ts : List α} (h : Spaced d ts) : thin d none ts = ts := by
  have hsome : ∀ (us : List α) (last : α), Spaced d (last :: us) → thin d (some last) us = us := by
    intro us
    induction us with
    | nil => exact fun _ _ => rfl
    | cons u us ih =>
      intro last h
      obtain ⟨hlast, hus⟩ := List.pairwise_cons.mp h
      rw [thin, if_pos (hlast u List.mem_cons_self), ih u hus]
  cases ts with
  | nil => rfl
  | cons t ts => rw [thin, hsome ts t h]

variable [IsOrderedAddMonoid α]

/-! ## What is kept -/

theorem le_of_mem_thin (hd : 0 ≤ d) {last : α} {ts : List α} {x : α}
    (hx : x ∈ thin d (some last) ts) : last + d ≤ x := by
  induction ts generalizing last with
  | nil => cases hx
  | cons t ts ih =>
    rw [thin] at hx
    split_ifs at hx with hle
    · rcases List.mem_cons.mp hx with rfl | hx
      · exact hle
      · exact hle.trans ((le_add_of_nonneg_right hd).trans (ih hx))
    · exact ih hx

theorem spaced_thin (hd : 0 ≤ d) (last : Option α) (ts : List α) : Spaced d (thin d last ts) := by
  induction ts generalizing last with
  | nil => cases last <;> exact List.Pairwise.nil
  | cons t ts ih =>
    have hkeep : Spaced d (t :: thin d (some t) ts) :=
      List.pairwise_cons.mpr ⟨fun x hx => le_of_mem_thin hd hx, ih (some t)⟩
    cases last with
    | none => exact hkeep
    | some last =>
      rw [thin]
      split_ifs
      · exact hkeep
      · exact ih (some last)

/-! ## How many fit in a window -/

theorem Spaced.exists_add_nsmul_le {a : α} {l : List α} (h : Spaced d (a :: l)) :
    ∃ b ∈ a :: l, a + l.length • d ≤ b := by
  induction l generalizing a with
  | nil => exact ⟨a, List.mem_cons_self, by rw [List.length_nil, zero_nsmul, add_zero]⟩
  | cons c l ih =>
    obtain ⟨hac, hl⟩ := List.pairwise_cons.mp h
    obtain ⟨b, hb, hle⟩ := ih hl
    refine ⟨b, List.mem_cons_of_mem a hb, le_trans ?_ hle⟩
    calc a + (l.length + 1) • d = (a + d) + l.length • d := by
          rw [succ_nsmul', add_assoc]
      _ ≤ c + l.length • d := add_le_add_left (hac c List.mem_cons_self) _

/-- **A window of width `w`** holds `n + 1` elements spaced by `d` only if `n * d < w`. -/
theorem Spaced.nsmul_lt {l : List α} (h : Spaced d l) {t w : α} {n : ℕ}
    (hn : l.length = n + 1) (hl : ∀ x ∈ l, t ≤ x ∧ x < t + w) : n • d < w := by
  obtain ⟨a, l, rfl⟩ := List.exists_cons_of_length_eq_add_one hn
  obtain rfl : l.length = n := by simpa using hn
  obtain ⟨b, hb, hle⟩ := h.exists_add_nsmul_le
  refine lt_of_add_lt_add_left (a := t) ?_
  calc t + l.length • d ≤ a + l.length • d :=
        add_le_add_left (hl a List.mem_cons_self).1 _
    _ ≤ b := hle
    _ < t + w := (hl b hb).2

/-- The multiples of `d` above a start are spaced. -/
theorem spaced_progression (hd : 0 ≤ d) (t : α) (n : ℕ) :
    Spaced d ((List.range n).map fun i => t + i • d) := by
  refine List.pairwise_map.mpr (List.pairwise_lt_range.imp fun {i j} hij => ?_)
  rw [add_assoc, ← succ_nsmul]
  exact add_le_add_right (nsmul_le_nsmul_left hd hij) t

end SmipMwp
