import SmipMwp.Foundations.Slices

/-!
# Blocks packed into one buffer

Several blocks are written one after another into one buffer, and described by the offset and
the length of each (`offsetsFrom`). The offsets are contiguous (`contiguous_offsetsFrom`),
cutting the buffer along them gives the blocks back (`cut_offsetsFrom`), and a write of a block's
length at a block's offset replaces that block (`overwrite_append_flatten`).
-/

namespace SmipMwp

variable {α : Type*}

/-- The offset and length of each of the blocks `bs`, packed from offset `start`. -/
def offsetsFrom (start : ℕ) : List (List α) → List (ℕ × ℕ)
  | [] => []
  | b :: bs => (start, b.length) :: offsetsFrom (start + b.length) bs

/-- The blocks of `buf` at the given offsets. -/
def cut (buf : List α) (offs : List (ℕ × ℕ)) : List (List α) := offs.map fun o => slice buf o.1 o.2

/-- The ranges `offs` follow one another without a gap, from `start` to `stop`. -/
def Contiguous (start : ℕ) : List (ℕ × ℕ) → ℕ → Prop
  | [], stop => start = stop
  | o :: offs, stop => o.1 = start ∧ Contiguous (start + o.2) offs stop

@[simp] theorem offsetsFrom_nil (start : ℕ) : offsetsFrom start ([] : List (List α)) = [] := rfl

@[simp] theorem length_offsetsFrom (start : ℕ) (bs : List (List α)) :
    (offsetsFrom start bs).length = bs.length := by
  induction bs generalizing start with
  | nil => rfl
  | cons b bs ih => simp [offsetsFrom, ih]

theorem offsetsFrom_append (start : ℕ) (bs cs : List (List α)) :
    offsetsFrom start (bs ++ cs) =
      offsetsFrom start bs ++ offsetsFrom (start + bs.flatten.length) cs := by
  induction bs generalizing start with
  | nil => simp
  | cons b bs ih =>
    simp only [List.cons_append, offsetsFrom, ih, List.flatten_cons, List.length_append,
      Nat.add_assoc]

theorem cut_offsetsFrom (pre : List α) (bs : List (List α)) :
    cut (pre ++ bs.flatten) (offsetsFrom pre.length bs) = bs := by
  induction bs generalizing pre with
  | nil => rfl
  | cons b bs ih =>
    have hb : slice (pre ++ (b ++ bs.flatten)) pre.length b.length = b := by
      rw [slice_append_right' le_rfl, Nat.sub_self, slice_zero, List.take_left]
    have hrest := ih (pre ++ b)
    rw [List.length_append, List.append_assoc] at hrest
    rw [offsetsFrom, List.flatten_cons]
    simp only [cut, List.map_cons, hb] at hrest ⊢
    rw [hrest]

theorem cut_append_left {l l' : List α} {offs : List (ℕ × ℕ)}
    (h : ∀ o ∈ offs, o.1 + o.2 ≤ l.length) : cut (l ++ l') offs = cut l offs :=
  List.map_congr_left fun o ho => slice_append_left (h o ho)

/-- Writing the blocks one after another is one write. -/
theorem foldl_overwrite_offsetsFrom (bs : List (List α)) {l : List α} {start : ℕ}
    (h : start + bs.flatten.length ≤ l.length) :
    ((offsetsFrom start bs).zip bs).foldl (fun l p => overwrite l p.1.1 p.2) l =
      overwrite l start bs.flatten := by
  induction bs generalizing l start with
  | nil => simp [overwrite]
  | cons b bs ih =>
    rw [List.flatten_cons, List.length_append] at h
    have hb : start + b.length ≤ l.length := by omega
    have hrest : start + b.length + bs.flatten.length ≤ (overwrite l start b).length := by
      rw [length_overwrite hb]
      omega
    rw [offsetsFrom, List.zip_cons_cons, List.foldl_cons, ih hrest, List.flatten_cons,
      overwrite_overwrite hb]

/-- Overwriting one block by another of its length. -/
theorem overwrite_append_flatten (pre : List α) {bs : List (List α)} {i : ℕ} {o : ℕ × ℕ}
    (ho : (offsetsFrom pre.length bs)[i]? = some o) {x : List α} (hx : x.length = o.2) :
    overwrite (pre ++ bs.flatten) o.1 x = pre ++ (bs.set i x).flatten := by
  induction bs generalizing pre i with
  | nil => simp at ho
  | cons b bs ih =>
    cases i with
    | zero =>
      obtain rfl : (pre.length, b.length) = o := by simpa [offsetsFrom] using ho
      have hin := overwrite_append_right pre (b ++ bs.flatten) x 0
      rw [List.flatten_cons, List.set_cons_zero, List.flatten_cons]
      rw [Nat.add_zero] at hin
      rw [hin, overwrite, Nat.zero_add, hx, List.take_zero, List.nil_append, List.drop_left]
    | succ i =>
      have hrest := ih (pre ++ b) (i := i) (by
        rw [List.length_append]
        simpa [offsetsFrom] using ho)
      rw [List.flatten_cons, List.set_cons_succ, List.flatten_cons, ← List.append_assoc, hrest,
        List.append_assoc]

theorem contiguous_offsetsFrom (start : ℕ) (bs : List (List α)) :
    Contiguous start (offsetsFrom start bs) (start + bs.flatten.length) := by
  induction bs generalizing start with
  | nil => simp [Contiguous]
  | cons b bs ih =>
    refine ⟨rfl, ?_⟩
    have := ih (start + b.length)
    rwa [Nat.add_assoc, ← List.length_append, ← List.flatten_cons] at this

theorem Contiguous.le {start stop : ℕ} {offs : List (ℕ × ℕ)} (h : Contiguous start offs stop) :
    start ≤ stop := by
  induction offs generalizing start with
  | nil => exact le_of_eq h
  | cons o offs ih => exact (Nat.le_add_right _ _).trans (ih h.2)

/-- The blocks of a buffer that follow one another without a gap make up the buffer. -/
theorem flatten_cut {buf : List α} {start stop : ℕ} {offs : List (ℕ × ℕ)}
    (h : Contiguous start offs stop) : (cut buf offs).flatten = slice buf start (stop - start) := by
  induction offs generalizing start with
  | nil =>
    obtain rfl : start = stop := h
    simp [cut, slice]
  | cons o offs ih =>
    obtain ⟨ho, h⟩ := h
    have hle := h.le
    have hrest := ih h
    simp only [cut] at hrest
    simp only [cut, List.map_cons, List.flatten_cons, hrest, ho]
    rw [slice_append_slice]
    congr 1
    omega

/-- Every range of a contiguous list lies inside the whole. -/
theorem Contiguous.inBounds {start stop : ℕ} {offs : List (ℕ × ℕ)}
    (h : Contiguous start offs stop) : ∀ o ∈ offs, o.1 + o.2 ≤ stop := by
  induction offs generalizing start with
  | nil => simp
  | cons o offs ih =>
    obtain ⟨ho, h⟩ := h
    intro o' ho'
    rcases List.mem_cons.mp ho' with rfl | ho'
    · rw [ho]
      exact h.le
    · exact ih h o' ho'

end SmipMwp
