import SmipMwp.Foundations.Slices
import Mathlib.Algebra.Order.Ring.Nat

/-!
# Ring buffers

A ring has a power of two of slots and two free-running counters, one for the producer and one for
the consumer, that wrap at `2 ^ w`; a counter selects its slot by the mask `capacity - 1`. Entries
are moved in bulk, in at most two chunks, up to the end of the slots and from their start.

`contents` are the entries between the two counters, in order. On a well-formed ring a push
appends to them (`contents_push`) and a pop takes from their front (`contents_pop`), so the ring
is a bounded queue, for all values of the counters and across their wrap.
-/

namespace SmipMwp

structure RingBuffer (α : Type*) (w : ℕ) where
  slots : List α
  prod : BitVec w
  cons : BitVec w

namespace RingBuffer

variable {α : Type*} {w : ℕ}

def capacity (r : RingBuffer α w) : ℕ := r.slots.length

/-- The number of entries: the wrapping difference of the counters. -/
def used (r : RingBuffer α w) : ℕ := (r.prod - r.cons).toNat

/-- The slot a counter selects. -/
def index (r : RingBuffer α w) (counter : BitVec w) : ℕ := counter.toNat &&& (r.capacity - 1)

/-- The `n` entries from the consumer's slot, in two chunks. The list ends with the slots: for an
`n` beyond the capacity, as counters further apart than the capacity ask for, it has fewer than
`n`. -/
def read (r : RingBuffer α w) (n : ℕ) : List α :=
  let start := r.index r.cons
  let chunk₁ := min n (r.capacity - start)
  slice r.slots start chunk₁ ++ slice r.slots 0 (n - chunk₁)

/-- The slots with `xs` written from the producer's slot, in two chunks. -/
def write (r : RingBuffer α w) (xs : List α) : List α :=
  let start := r.index r.prod
  let chunk₁ := min xs.length (r.capacity - start)
  overwrite (overwrite r.slots start (xs.take chunk₁)) 0 (xs.drop chunk₁)

def push (r : RingBuffer α w) (xs : List α) : RingBuffer α w :=
  { r with slots := r.write xs, prod := r.prod + BitVec.ofNat w xs.length }

def pop (r : RingBuffer α w) (n : ℕ) : List α × RingBuffer α w :=
  (r.read n, { r with cons := r.cons + BitVec.ofNat w n })

/-- The entries pushed and not yet popped, the oldest first. -/
def contents (r : RingBuffer α w) : List α := r.read r.used

/-- A ring whose capacity is a power of two that the counters can count, and that is not
overfull. -/
structure Wf (r : RingBuffer α w) : Prop where
  exists_capacity : ∃ k < w, r.capacity = 2 ^ k
  used_le : r.used ≤ r.capacity

/-- The producer is `used` ahead of the consumer. -/
theorem prod_eq (r : RingBuffer α w) : r.prod = r.cons + BitVec.ofNat w r.used := by
  rw [used, BitVec.ofNat_toNat, BitVec.setWidth_eq, BitVec.add_comm, BitVec.sub_add_cancel]

/-! ## Positions -/

/-- A step of less than the modulus wraps at most once. -/
theorem add_mod_eq_ite {a i c : ℕ} (hi : i < c) :
    (a + i) % c = if a % c + i < c then a % c + i else a % c + i - c := by
  rw [Nat.add_mod, Nat.mod_eq_of_lt hi]
  have := Nat.mod_lt a (Nat.zero_lt_of_lt hi)
  split_ifs with h
  · exact Nat.mod_eq_of_lt h
  · rw [Nat.mod_eq_sub_mod (by omega), Nat.mod_eq_of_lt (by omega)]

namespace Wf

variable {r : RingBuffer α w}

theorem capacity_pos (h : r.Wf) : 0 < r.capacity := by
  obtain ⟨k, -, hk⟩ := h.exists_capacity
  rw [hk]
  exact Nat.two_pow_pos k

theorem capacity_lt (h : r.Wf) : r.capacity < 2 ^ w := by
  obtain ⟨k, hkw, hk⟩ := h.exists_capacity
  rw [hk]
  exact Nat.pow_lt_pow_right (by decide) hkw

theorem capacity_dvd (h : r.Wf) : r.capacity ∣ 2 ^ w := by
  obtain ⟨k, hkw, hk⟩ := h.exists_capacity
  rw [hk]
  exact pow_dvd_pow 2 hkw.le

theorem index_eq (h : r.Wf) (counter : BitVec w) :
    r.index counter = counter.toNat % r.capacity := by
  obtain ⟨k, -, hk⟩ := h.exists_capacity
  rw [index, hk, Nat.and_two_pow_sub_one_eq_mod]

theorem index_lt (h : r.Wf) (counter : BitVec w) : r.index counter < r.capacity := by
  rw [h.index_eq]
  exact Nat.mod_lt _ h.capacity_pos

/-- Slots are counted modulo the capacity across the wrap of the counters. -/
theorem toNat_add_mod (h : r.Wf) (counter : BitVec w) (n i : ℕ) :
    ((counter + BitVec.ofNat w n).toNat + i) % r.capacity =
      (counter.toNat + (n + i)) % r.capacity := by
  rw [BitVec.toNat_add, BitVec.toNat_ofNat, Nat.add_mod_mod, Nat.add_mod,
    Nat.mod_mod_of_dvd _ h.capacity_dvd, ← Nat.add_mod, Nat.add_assoc]

end Wf

/-! ## Reads and writes by position -/

theorem getElem?_read {r : RingBuffer α w} (h : r.Wf) {n : ℕ} (hn : n ≤ r.capacity) (i : ℕ) :
    (r.read n)[i]? = if i < n then r.slots[(r.cons.toNat + i) % r.capacity]? else none := by
  have hstart := h.index_lt r.cons
  have hlen : (slice r.slots (r.index r.cons) (min n (r.capacity - r.index r.cons))).length =
      min n (r.capacity - r.index r.cons) :=
    length_slice_of_le (by change _ ≤ r.capacity; omega)
  rw [read, List.getElem?_append, hlen, getElem?_slice, getElem?_slice]
  by_cases hi : i < n
  · have hmod := add_mod_eq_ite (a := r.cons.toNat) (show i < r.capacity by omega)
    rw [← h.index_eq] at hmod
    rw [if_pos hi, hmod]
    by_cases hw : r.index r.cons + i < r.capacity
    · rw [if_pos (by omega), if_pos (by omega), if_pos hw]
    · rw [if_neg (by omega), if_pos (by omega), if_neg hw]
      congr 1
      omega
  · rw [if_neg hi]
    split_ifs <;> first | rfl | omega

theorem length_read {r : RingBuffer α w} (h : r.Wf) {n : ℕ} (hn : n ≤ r.capacity) :
    (r.read n).length = n := by
  have hstart := h.index_lt r.cons
  rw [read, List.length_append, length_slice_of_le (by change _ ≤ r.capacity; omega),
    length_slice_of_le (by change _ ≤ r.capacity; omega)]
  omega

theorem length_write {r : RingBuffer α w} (h : r.Wf) {xs : List α} (hxs : xs.length ≤ r.capacity) :
    (r.write xs).length = r.capacity := by
  have hstart := h.index_lt r.prod
  have hinner : (overwrite r.slots (r.index r.prod)
      (xs.take (min xs.length (r.capacity - r.index r.prod)))).length = r.capacity :=
    length_overwrite (by rw [List.length_take]; change _ ≤ r.capacity; omega)
  rw [write, length_overwrite (by rw [List.length_drop, hinner]; omega), hinner]

/-- The entry `i` slots from the producer's, after a write. -/
theorem getElem?_write {r : RingBuffer α w} (h : r.Wf) {xs : List α}
    (hxs : xs.length ≤ r.capacity) {i : ℕ} (hi : i < r.capacity) :
    (r.write xs)[(r.prod.toNat + i) % r.capacity]? =
      if i < xs.length then xs[i]? else r.slots[(r.prod.toNat + i) % r.capacity]? := by
  have hstart := h.index_lt r.prod
  have hmod := add_mod_eq_ite (a := r.prod.toNat) hi
  rw [← h.index_eq] at hmod
  have htake : (xs.take (min xs.length (r.capacity - r.index r.prod))).length =
      min xs.length (r.capacity - r.index r.prod) := by
    rw [List.length_take]
    omega
  have hinner : (overwrite r.slots (r.index r.prod)
      (xs.take (min xs.length (r.capacity - r.index r.prod)))).length = r.capacity :=
    length_overwrite (by rw [htake]; change _ ≤ r.capacity; omega)
  rw [write, getElem?_overwrite (by rw [List.length_drop, hinner]; omega),
    getElem?_overwrite (by rw [htake]; change _ ≤ r.capacity; omega), List.length_drop, htake, hmod,
    List.getElem?_drop, List.getElem?_take]
  by_cases hw : r.index r.prod + i < r.capacity
  · rw [if_pos hw, if_neg (by omega)]
    by_cases hix : i < xs.length
    · rw [if_pos hix, if_pos (by omega), if_pos (by omega), Nat.add_sub_cancel_left]
    · rw [if_neg hix, if_neg (by omega)]
  · rw [if_neg hw]
    by_cases hix : i < xs.length
    · rw [if_pos hix, if_pos (by omega)]
      congr 1
      omega
    · rw [if_neg hix, if_neg (by omega), if_neg (by omega)]

/-! ## Contents -/

theorem getElem?_contents {r : RingBuffer α w} (h : r.Wf) (i : ℕ) :
    r.contents[i]? =
      if i < r.used then r.slots[(r.cons.toNat + i) % r.capacity]? else none :=
  getElem?_read h h.used_le i

@[simp] theorem length_contents {r : RingBuffer α w} (h : r.Wf) : r.contents.length = r.used :=
  length_read h h.used_le

section Push

variable {r : RingBuffer α w} {xs : List α}

theorem capacity_push (h : r.Wf) (hxs : r.used + xs.length ≤ r.capacity) :
    (r.push xs).capacity = r.capacity :=
  length_write h (by omega)

theorem used_push (h : r.Wf) (hxs : r.used + xs.length ≤ r.capacity) :
    (r.push xs).used = r.used + xs.length := by
  have hlt := h.capacity_lt
  have hsub : (r.push xs).prod - (r.push xs).cons =
      BitVec.ofNat w r.used + BitVec.ofNat w xs.length := by
    change r.prod + _ - r.cons = _
    rw [r.prod_eq, BitVec.add_assoc, BitVec.add_comm, BitVec.add_sub_cancel]
  rw [used, hsub, ← BitVec.ofNat_add, BitVec.toNat_ofNat, Nat.mod_eq_of_lt (by omega)]

theorem Wf.push (h : r.Wf) (hxs : r.used + xs.length ≤ r.capacity) : (r.push xs).Wf where
  exists_capacity := by
    rw [capacity_push h hxs]
    exact h.exists_capacity
  used_le := by rwa [used_push h hxs, capacity_push h hxs]

/-- **A push appends** to the contents of a ring with enough free slots. -/
theorem contents_push (h : r.Wf) (hxs : r.used + xs.length ≤ r.capacity) :
    (r.push xs).contents = r.contents ++ xs := by
  apply List.ext_getElem?
  intro i
  rw [getElem?_contents (h.push hxs), used_push h hxs, capacity_push h hxs, List.getElem?_append,
    length_contents h, getElem?_contents h]
  change (if _ then (r.write xs)[(r.cons.toNat + i) % r.capacity]? else none) = _
  have hprod : ∀ j, (r.prod.toNat + j) % r.capacity =
      (r.cons.toNat + (r.used + j)) % r.capacity := by
    intro j
    rw [r.prod_eq, h.toNat_add_mod]
  by_cases hi : i < r.used
  · -- an old entry is a whole turn less `used - i` slots after the producer's
    have hpos : (r.cons.toNat + i) % r.capacity =
        (r.prod.toNat + (r.capacity - r.used + i)) % r.capacity := by
      rw [hprod, show r.cons.toNat + (r.used + (r.capacity - r.used + i)) =
        r.cons.toNat + i + r.capacity by have := h.used_le; omega, Nat.add_mod_right]
    rw [if_pos (by omega), if_pos hi, if_pos hi, hpos,
      getElem?_write h (by omega) (by have := h.used_le; omega), if_neg (by omega)]
  · rw [if_neg hi]
    by_cases hix : i < r.used + xs.length
    · have hpos : (r.cons.toNat + i) % r.capacity =
          (r.prod.toNat + (i - r.used)) % r.capacity := by
        rw [hprod, show r.used + (i - r.used) = i by omega]
      rw [if_pos hix, hpos, getElem?_write h (by omega) (by omega), if_pos (by omega)]
    · rw [if_neg hix, List.getElem?_eq_none (by omega)]

end Push

section Pop

variable {r : RingBuffer α w} {n : ℕ}

theorem used_pop (h : r.Wf) (hn : n ≤ r.used) : (r.pop n).2.used = r.used - n := by
  have hlt := h.capacity_lt
  have hle := h.used_le
  have hsub : (r.pop n).2.prod - (r.pop n).2.cons = BitVec.ofNat w (r.used - n) := by
    change r.prod - (r.cons + _) = _
    have hsplit : BitVec.ofNat w r.used = BitVec.ofNat w n + BitVec.ofNat w (r.used - n) := by
      rw [← BitVec.ofNat_add, Nat.add_sub_cancel' hn]
    rw [r.prod_eq, hsplit, ← BitVec.add_assoc, BitVec.add_comm, BitVec.add_sub_cancel]
  rw [used, hsub, BitVec.toNat_ofNat, Nat.mod_eq_of_lt (by omega)]

theorem Wf.pop (h : r.Wf) (hn : n ≤ r.used) : (r.pop n).2.Wf where
  exists_capacity := h.exists_capacity
  used_le := by
    rw [used_pop h hn]
    exact (Nat.sub_le _ _).trans h.used_le

theorem fst_pop (h : r.Wf) (hn : n ≤ r.used) : (r.pop n).1 = r.contents.take n := by
  apply List.ext_getElem?
  intro i
  rw [pop, getElem?_read h (hn.trans h.used_le), List.getElem?_take, getElem?_contents h]
  split_ifs <;> first | rfl | omega

/-- **A pop takes from the front** of the contents. -/
theorem contents_pop (h : r.Wf) (hn : n ≤ r.used) :
    (r.pop n).2.contents = r.contents.drop n := by
  apply List.ext_getElem?
  intro i
  rw [getElem?_contents (h.pop hn), used_pop h hn, List.getElem?_drop, getElem?_contents h]
  change (if _ then r.slots[((r.cons + BitVec.ofNat w n).toNat + i) % r.capacity]? else none) = _
  rw [h.toNat_add_mod]
  split_ifs <;> first | rfl | omega

end Pop

/-! ## Single entries -/

/-- A write of one entry sets one slot. -/
theorem write_singleton {r : RingBuffer α w} (h : r.Wf) (v : α) :
    r.write [v] = r.slots.set (r.index r.prod) v := by
  have hstart := h.index_lt r.prod
  have hchunk : min 1 (r.capacity - r.index r.prod) = 1 := by omega
  simp only [write, List.length_singleton, hchunk, overwrite, List.take_succ_cons, List.take_zero,
    List.drop_succ_cons, List.drop_nil, List.length_nil, List.nil_append, Nat.add_zero,
    List.drop_zero]
  rw [List.set_eq_take_append_cons_drop, if_pos (by exact hstart), List.append_assoc,
    List.singleton_append]

/-- The oldest entry is in the consumer's slot. -/
theorem getElem?_index_cons {r : RingBuffer α w} (h : r.Wf) (hused : 0 < r.used) :
    r.slots[r.index r.cons]? = r.contents[0]? := by
  rw [getElem?_contents h, if_pos hused, h.index_eq, Nat.add_zero]

/-! ## Empty rings -/

theorem used_eq_zero_iff {r : RingBuffer α w} : r.used = 0 ↔ r.cons = r.prod := by
  constructor
  · intro h
    rw [r.prod_eq, h, BitVec.add_zero]
  · intro h
    rw [used, h, BitVec.sub_self, BitVec.toNat_zero]

theorem Wf.of_cons_eq_prod {r : RingBuffer α w} (hcap : ∃ k < w, r.capacity = 2 ^ k)
    (h : r.cons = r.prod) : r.Wf where
  exists_capacity := hcap
  used_le := by
    rw [used_eq_zero_iff.mpr h]
    exact Nat.zero_le _

/-- A ring whose counters are equal is empty. -/
theorem contents_of_used_eq_zero {r : RingBuffer α w} (h : r.Wf) (hused : r.used = 0) :
    r.contents = [] := by
  rw [← List.length_eq_zero_iff, length_contents h, hused]

end RingBuffer

end SmipMwp
