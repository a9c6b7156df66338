import Mathlib.Data.List.Basic
import Mathlib.Tactic.Linarith

/-!
# Slices of a list, and writes into one

A buffer is a list; a read takes the `n` entries from an offset (`slice`), a write replaces as
many entries as the source has (`overwrite`). The lemmas say how the two compose with each other
and with concatenation: a read sees a write at its own place (`slice_overwrite_self`), does not
see one elsewhere (`slice_overwrite_of_le`, `slice_overwrite_of_ge`), and a read or a write past
the first part of a concatenation goes to the second (`slice_append_right`,
`overwrite_append_right`).
-/

namespace SmipMwp

variable {α : Type*}

/-- The `n` entries of `l` from `off`. -/
def slice (l : List α) (off n : ℕ) : List α := (l.drop off).take n

/-- `l` with the entries from `off` replaced by `src`. -/
def overwrite (l : List α) (off : ℕ) (src : List α) : List α :=
  l.take off ++ src ++ l.drop (off + src.length)

/-- `l` extended with `x` to length `n`; a longer list is left alone. -/
def resize (l : List α) (n : ℕ) (x : α) : List α := l ++ List.replicate (n - l.length) x

/-! ## Reads -/

theorem length_slice (l : List α) (off n : ℕ) :
    (slice l off n).length = min n (l.length - off) := by
  simp [slice]

theorem length_slice_of_le {l : List α} {off n : ℕ} (h : off + n ≤ l.length) :
    (slice l off n).length = n := by
  rw [length_slice]; omega

theorem slice_zero (l : List α) (n : ℕ) : slice l 0 n = l.take n := by
  simp [slice]

theorem getElem?_slice (l : List α) (off n i : ℕ) :
    (slice l off n)[i]? = if i < n then l[off + i]? else none := by
  simp only [slice, List.getElem?_take, List.getElem?_drop]

theorem slice_append_left {l l' : List α} {off n : ℕ} (h : off + n ≤ l.length) :
    slice (l ++ l') off n = slice l off n := by
  apply List.ext_getElem?
  intro i
  rw [getElem?_slice, getElem?_slice]
  split_ifs with hi
  · rw [List.getElem?_append_left (by omega)]
  · rfl

theorem slice_append_right (l l' : List α) (i n : ℕ) :
    slice (l ++ l') (l.length + i) n = slice l' i n := by
  simp [slice, List.drop_append, List.drop_of_length_le]

theorem slice_append_right' {l l' : List α} {off n : ℕ} (h : l.length ≤ off) :
    slice (l ++ l') off n = slice l' (off - l.length) n := by
  obtain ⟨i, rfl⟩ := Nat.exists_eq_add_of_le h
  rw [slice_append_right, Nat.add_sub_cancel_left]

/-- Two adjacent reads are one. -/
theorem slice_append_slice (l : List α) (off m n : ℕ) :
    slice l off m ++ slice l (off + m) n = slice l off (m + n) := by
  rw [slice, slice, slice, ← List.drop_drop, ← List.take_add]

theorem slice_take {l : List α} {off n k : ℕ} (h : off + n ≤ k) :
    slice (l.take k) off n = slice l off n := by
  simp only [slice, List.drop_take, List.take_take]
  congr 1
  omega

/-! ## Writes -/

theorem length_overwrite {l src : List α} {off : ℕ} (h : off + src.length ≤ l.length) :
    (overwrite l off src).length = l.length := by
  simp only [overwrite, List.length_append, List.length_take, List.length_drop]
  omega

theorem getElem?_overwrite {l src : List α} {off : ℕ} (h : off + src.length ≤ l.length) (i : ℕ) :
    (overwrite l off src)[i]? =
      if off ≤ i ∧ i < off + src.length then src[i - off]? else l[i]? := by
  have hoff : (l.take off).length = off := by rw [List.length_take]; omega
  simp only [overwrite, List.append_assoc]
  by_cases h₁ : i < off
  · rw [List.getElem?_append_left (by omega), List.getElem?_take_of_lt h₁, if_neg (by omega)]
  · rw [List.getElem?_append_right (by omega), hoff]
    by_cases h₂ : i < off + src.length
    · rw [List.getElem?_append_left (by omega), if_pos (by omega)]
    · rw [List.getElem?_append_right (by omega), List.getElem?_drop, if_neg (by omega)]
      congr 1
      omega

/-- Two adjacent writes are one. -/
theorem overwrite_overwrite {l a b : List α} {off : ℕ} (h : off + a.length ≤ l.length) :
    overwrite (overwrite l off a) (off + a.length) b = overwrite l off (a ++ b) := by
  have hpre : (l.take off ++ a).length = off + a.length := by
    rw [List.length_append, List.length_take, Nat.min_eq_left (by omega)]
  rw [overwrite, overwrite, overwrite, List.take_left' hpre, ← List.drop_drop,
    List.drop_left' hpre, List.drop_drop, List.length_append, List.append_assoc (l.take off),
    Nat.add_assoc]

/-- A write up to the end. -/
theorem overwrite_of_length_eq {l src : List α} {off : ℕ} (h : off + src.length = l.length) :
    overwrite l off src = l.take off ++ src := by
  rw [overwrite, List.drop_of_length_le (by omega), List.append_nil]

theorem slice_overwrite_self {l src : List α} {off : ℕ} (h : off + src.length ≤ l.length) :
    slice (overwrite l off src) off src.length = src := by
  have hoff : (l.take off).length = off := by rw [List.length_take]; omega
  rw [overwrite, List.append_assoc, slice_append_right' (by omega), hoff, Nat.sub_self, slice_zero,
    List.take_left]

/-- A read outside the written range. -/
theorem slice_overwrite_of_disjoint {l src : List α} {off i n : ℕ}
    (h : off + src.length ≤ l.length) (hi : i + n ≤ off ∨ off + src.length ≤ i) :
    slice (overwrite l off src) i n = slice l i n := by
  apply List.ext_getElem?
  intro j
  rw [getElem?_slice, getElem?_slice]
  split_ifs with hj
  · rw [getElem?_overwrite h, if_neg (by omega)]
  · rfl

theorem slice_overwrite_of_le {l src : List α} {off i n : ℕ} (h : off + src.length ≤ l.length)
    (hi : i + n ≤ off) : slice (overwrite l off src) i n = slice l i n :=
  slice_overwrite_of_disjoint h (.inl hi)

theorem slice_overwrite_of_ge {l src : List α} {off i n : ℕ} (h : off + src.length ≤ l.length)
    (hi : off + src.length ≤ i) : slice (overwrite l off src) i n = slice l i n :=
  slice_overwrite_of_disjoint h (.inr hi)

theorem overwrite_append_left {l l' src : List α} {off : ℕ} (h : off + src.length ≤ l.length) :
    overwrite (l ++ l') off src = overwrite l off src ++ l' := by
  simp only [overwrite]
  rw [List.take_append_of_le_length (by omega), List.drop_append_of_le_length h,
    List.append_assoc, List.append_assoc, List.append_assoc]

theorem overwrite_append_right (l l' src : List α) (i : ℕ) :
    overwrite (l ++ l') (l.length + i) src = l ++ overwrite l' i src := by
  simp [overwrite, List.take_append, List.drop_append, List.take_of_length_le,
    List.drop_of_length_le, Nat.add_assoc]

theorem take_overwrite_of_ge {l src : List α} {off n : ℕ} (h : off + src.length ≤ n)
    (hn : n ≤ l.length) : (overwrite l off src).take n = overwrite (l.take n) off src := by
  have hl : overwrite l off src = overwrite (l.take n) off src ++ l.drop n := by
    rw [← overwrite_append_left (by rw [List.length_take]; omega), List.take_append_drop]
  rw [hl, List.take_append_of_le_length, List.take_of_length_le] <;>
    rw [length_overwrite (by rw [List.length_take]; omega), List.length_take] <;> omega

theorem drop_overwrite {l src : List α} {off n : ℕ} (h : off + src.length ≤ l.length)
    (hn : off + src.length ≤ n) : (overwrite l off src).drop n = l.drop n := by
  apply List.ext_getElem?
  intro i
  rw [List.getElem?_drop, List.getElem?_drop, getElem?_overwrite h, if_neg (by omega)]

/-- A read, entry by entry. -/
theorem slice_eq_filterMap (l : List α) (off n : ℕ) :
    slice l off n = (List.range' off n).filterMap fun i => l[i]? := by
  induction n generalizing off with
  | zero => rfl
  | succ n ih =>
    rw [List.range'_succ, List.filterMap_cons, ← ih]
    rcases Nat.lt_or_ge off l.length with h | h
    · rw [List.getElem?_eq_getElem h, slice, List.drop_eq_getElem_cons h, List.take_succ_cons]
      rfl
    · rw [List.getElem?_eq_none h, slice, slice, List.drop_of_length_le h,
        List.drop_of_length_le (by omega), List.take_nil, List.take_nil]

/-- A write, entry by entry. -/
theorem overwrite_eq_foldl {l src : List α} {off : ℕ} (h : off + src.length ≤ l.length) :
    overwrite l off src =
      ((List.range' off src.length).zip src).foldl (fun l p => l.set p.1 p.2) l := by
  induction src generalizing l off with
  | nil => simp [overwrite]
  | cons x src ih =>
    rw [List.length_cons] at h
    rw [List.length_cons, List.range'_succ, List.zip_cons_cons, List.foldl_cons,
      ← ih (by rw [List.length_set]; omega)]
    have hset : l.set off x = overwrite l off [x] := by
      rw [List.set_eq_take_append_cons_drop, if_pos (by omega), overwrite, List.append_assoc]
      rfl
    have hone : off + [x].length ≤ l.length := by
      rw [List.length_singleton]
      omega
    have hboth := overwrite_overwrite (b := src) hone
    rw [List.length_singleton, List.singleton_append] at hboth
    rw [hset, hboth]

/-- A loop that writes the entries from `off` to `off + n` one by one. -/
theorem getElem?_foldl_set_range' (g : ℕ → α) {l : List α} {off n : ℕ} (h : off + n ≤ l.length)
    (i : ℕ) :
    ((List.range' off n).foldl (fun l i => l.set i (g i)) l)[i]? =
      if off ≤ i ∧ i < off + n then some (g i) else l[i]? := by
  induction n generalizing off l with
  | zero => rw [if_neg (by omega), List.range'_zero, List.foldl_nil]
  | succ n ih =>
    rw [List.range'_succ, List.foldl_cons, ih (by rw [List.length_set]; omega),
      List.getElem?_set]
    by_cases hi : off = i
    · subst hi
      rw [if_neg (by omega), if_pos rfl, if_pos (by omega), if_pos (by omega)]
    · rw [if_neg hi]
      exact if_congr (by omega) rfl rfl

/-! ## Copies inside a list -/

/-- `slice::copy_within(start..stop, dest)`. -/
def copyWithin (l : List α) (start stop dest : ℕ) : List α :=
  overwrite l dest (slice l start (stop - start))

theorem length_copyWithin {l : List α} {start stop dest : ℕ} (hstart : start ≤ stop)
    (hstop : stop ≤ l.length) (hdest : dest + (stop - start) ≤ l.length) :
    (copyWithin l start stop dest).length = l.length := by
  rw [copyWithin, length_overwrite]
  rw [length_slice_of_le (by omega)]
  exact hdest

theorem copyWithin_self (l : List α) (i dest : ℕ) : copyWithin l i i dest = l := by
  rw [copyWithin, Nat.sub_self, slice, List.take_zero, overwrite, List.append_nil,
    List.length_nil, Nat.add_zero, List.take_append_drop]

/-- Moving the first `n` entries to the left drops the first one. -/
theorem take_copyWithin_left {l : List α} {n : ℕ} (hpos : 0 < n) (hn : n ≤ l.length) :
    (copyWithin l 1 n 0).take (n - 1) = (l.take n).tail := by
  have hlen : (slice l 1 (n - 1)).length = n - 1 := length_slice_of_le (by omega)
  rw [copyWithin, overwrite, List.take_zero, List.nil_append, List.take_left' hlen, slice,
    ← List.drop_one, List.drop_take]

/-- Moving the entries from `i` to `n` to the right makes room for one at `i`. -/
theorem take_set_copyWithin_right {l : List α} {i n : ℕ} (hi : i ≤ n) (hn : n < l.length) (x : α) :
    ((copyWithin l i n (i + 1)).set i x).take (n + 1) =
      (l.take n).take i ++ x :: (l.take n).drop i := by
  have hlen : (slice l i (n - i)).length = n - i := length_slice_of_le (by omega)
  have hpre : ((l.take n).take i).length = i := by
    rw [List.length_take, List.length_take]
    omega
  have hfit : i + 1 + (slice l i (n - i)).length ≤ l.length := by omega
  apply List.ext_getElem?
  intro j
  rw [List.getElem?_take, List.getElem?_set, copyWithin, length_overwrite hfit,
    getElem?_overwrite hfit, hlen, getElem?_slice]
  rcases lt_trichotomy j i with hj | rfl | hj
  · rw [if_pos (by omega), if_neg (by omega), if_neg (by omega),
      List.getElem?_append_left (by omega), List.getElem?_take, List.getElem?_take,
      if_pos hj, if_pos (by omega)]
  · rw [if_pos (by omega), if_pos rfl, if_pos (by omega), List.getElem?_append_right (by omega),
      hpre, Nat.sub_self]
    rfl
  · obtain ⟨k, rfl⟩ := Nat.exists_eq_add_of_lt hj
    rw [List.getElem?_append_right (by omega), hpre, show i + k + 1 - i = k + 1 by omega,
      List.getElem?_cons_succ, List.getElem?_drop, List.getElem?_take,
      show i + k + 1 - (i + 1) = k by omega]
    by_cases hk : i + k < n
    · rw [if_pos (by omega), if_neg (by omega), if_pos (by omega), if_pos (by omega), if_pos hk]
    · rw [if_neg (by omega), if_neg hk]

/-! ## Resizing -/

theorem length_resize (l : List α) (n : ℕ) (x : α) : (resize l n x).length = max l.length n := by
  simp only [resize, List.length_append, List.length_replicate]
  omega

theorem take_resize {l : List α} {n k : ℕ} (h : k ≤ l.length) (x : α) :
    (resize l n x).take k = l.take k := by
  rw [resize, List.take_append_of_le_length h]

theorem drop_resize {l : List α} {n : ℕ} (x : α) : (resize l n x).drop n = l.drop n := by
  rcases le_total n l.length with h | h
  · simp [resize, Nat.sub_eq_zero_of_le h]
  · rw [List.drop_of_length_le h, List.drop_of_length_le (by simp only [resize]; simp; omega)]

theorem resize_of_le {l : List α} {n : ℕ} (h : n ≤ l.length) (x : α) : resize l n x = l := by
  simp [resize, Nat.sub_eq_zero_of_le h]

/-! ## Checked accesses

The accesses of a slice that panics outside of it: `none` is the panic. -/

def checkedSet (l : List α) (i : ℕ) (x : α) : Option (List α) :=
  if i < l.length then some (l.set i x) else none

def checkedTake (l : List α) (n : ℕ) : Option (List α) :=
  if n ≤ l.length then some (l.take n) else none

def checkedCopyWithin (l : List α) (start stop dest : ℕ) : Option (List α) :=
  if start ≤ stop ∧ stop ≤ l.length ∧ dest + (stop - start) ≤ l.length then
    some (copyWithin l start stop dest)
  else none

theorem checkedSet_of_lt {l : List α} {i : ℕ} (h : i < l.length) (x : α) :
    checkedSet l i x = some (l.set i x) := if_pos h

theorem checkedTake_of_le {l : List α} {n : ℕ} (h : n ≤ l.length) :
    checkedTake l n = some (l.take n) := if_pos h

theorem checkedCopyWithin_of_le {l : List α} {start stop dest : ℕ} (hstart : start ≤ stop)
    (hstop : stop ≤ l.length) (hdest : dest + (stop - start) ≤ l.length) :
    checkedCopyWithin l start stop dest = some (copyWithin l start stop dest) :=
  if_pos ⟨hstart, hstop, hdest⟩

end SmipMwp
