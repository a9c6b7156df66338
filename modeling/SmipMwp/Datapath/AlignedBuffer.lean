import SmipMwp.Foundations.PowersOfTwo
import SmipMwp.Foundations.Slices

/-!
# The arena

`AlignedBuffer` is the forwarder's output buffer: an allocation of `cap` bytes of which the first
`len` are in use. The unchecked methods copy without looking at the capacity, so the memory is a
function on all offsets, the bytes past `len` stale; whether a call stays inside the allocation is
a question about its range and `cap` (`Datapath/Batch.lean` records both). Past `cap` the copy is
undefined behaviour in the source and the model says nothing about it: what a run with such a call
sends counts for nothing (`BatchRun.Defined` in `Datapath/Bounds.lean`).

Every method is characterised by what it does to `asSlice`, the bytes in use.
-/

namespace SmipMwp.Datapath

structure AlignedBuffer where
  mem : ℕ → UInt8
  len : ℕ
  cap : ℕ

namespace AlignedBuffer

variable (a : AlignedBuffer)

def withCapacity (capacity : ℕ) : AlignedBuffer where
  mem := fun _ => 0
  len := 0
  cap := max capacity 1

def clear : AlignedBuffer := { a with len := 0 }

def truncate (len : ℕ) : AlignedBuffer := { a with len := min a.len len }

/-- Grows to the next power of two, or to twice the old capacity if that is more. -/
def reserve (additional : ℕ) : AlignedBuffer :=
  let required := a.len + additional
  if required ≤ a.cap then a
  else { a with cap := max (nextPowerOfTwo required) (a.cap * 2) }

/-- The memory with `src` stored at `off`. -/
def store (off : ℕ) (src : List UInt8) : AlignedBuffer :=
  { a with
    mem := fun i => if off ≤ i ∧ i < off + src.length then src.getD (i - off) 0 else a.mem i }

/-- The `n` bytes of memory at `off`: `as_mut_slice_at_unchecked`, read. -/
def load (off n : ℕ) : List UInt8 := (List.range n).map fun i => a.mem (off + i)

/-- Appends `src`. The source requires `len + src.length ≤ cap` of its callers; where that fails, it
does not do this but writes past the allocation. -/
def extendFromSliceUnchecked (src : List UInt8) : AlignedBuffer :=
  { a.store a.len src with len := a.len + src.length }

/-- The bytes in use. -/
def asSlice : List UInt8 := a.load 0 a.len

/-! ## What the methods do to the bytes in use -/

@[simp] theorem length_load (off n : ℕ) : (a.load off n).length = n := by simp [load]

@[simp] theorem length_asSlice : a.asSlice.length = a.len := a.length_load 0 a.len

theorem getElem?_load (off n i : ℕ) :
    (a.load off n)[i]? = if i < n then some (a.mem (off + i)) else none := by
  simp only [load, List.getElem?_map]
  split_ifs with h
  · rw [List.getElem?_range h, Option.map_some]
  · rw [List.getElem?_eq_none (by simpa using h), Option.map_none]

theorem getElem?_asSlice (i : ℕ) : a.asSlice[i]? = if i < a.len then some (a.mem i) else none := by
  rw [asSlice, getElem?_load, Nat.zero_add]

/-- A list with the memory's bytes up to `len` is the bytes in use. -/
theorem asSlice_eq {l : List UInt8} (hlen : l.length = a.len)
    (h : ∀ i < a.len, l[i]? = some (a.mem i)) : a.asSlice = l := by
  apply List.ext_getElem?
  intro i
  by_cases hi : i < a.len
  · rw [h i hi, getElem?_asSlice, if_pos hi]
  · rw [getElem?_asSlice, if_neg hi, List.getElem?_eq_none (by omega)]

@[simp] theorem asSlice_clear : a.clear.asSlice = [] := rfl

@[simp] theorem len_clear : a.clear.len = 0 := rfl

@[simp] theorem cap_clear : a.clear.cap = a.cap := rfl

@[simp] theorem len_truncate (n : ℕ) : (a.truncate n).len = min a.len n := rfl

@[simp] theorem cap_truncate (n : ℕ) : (a.truncate n).cap = a.cap := rfl

@[simp] theorem asSlice_truncate (n : ℕ) : (a.truncate n).asSlice = a.asSlice.take n := by
  refine asSlice_eq _ (by simp [Nat.min_comm]) fun i hi => ?_
  rw [len_truncate, Nat.lt_min] at hi
  rw [List.getElem?_take_of_lt hi.2, getElem?_asSlice, if_pos hi.1]
  rfl

@[simp] theorem asSlice_reserve (n : ℕ) : (a.reserve n).asSlice = a.asSlice := by
  unfold reserve
  dsimp only
  split_ifs <;> rfl

@[simp] theorem len_reserve (n : ℕ) : (a.reserve n).len = a.len := by
  unfold reserve
  dsimp only
  split_ifs <;> rfl

theorem le_cap_reserve (n : ℕ) : a.len + n ≤ (a.reserve n).cap := by
  unfold reserve
  dsimp only
  split_ifs with h
  · exact h
  · exact (le_nextPowerOfTwo _).trans (le_max_left _ _)

/-- A reservation at most doubles what there was or what was asked for. -/
theorem cap_reserve_le (n : ℕ) : (a.reserve n).cap ≤ max (2 * (a.len + n)) (2 * a.cap) := by
  unfold reserve
  dsimp only
  split_ifs with h
  · omega
  · have := nextPowerOfTwo_lt_two_mul (n := a.len + n) (by omega)
    dsimp only
    omega

@[simp] theorem len_store (off : ℕ) (src : List UInt8) : (a.store off src).len = a.len := rfl

@[simp] theorem cap_store (off : ℕ) (src : List UInt8) : (a.store off src).cap = a.cap := rfl

theorem mem_store_of_mem {off i : ℕ} {src : List UInt8} (h : off ≤ i ∧ i < off + src.length) :
    src[i - off]? = some ((a.store off src).mem i) := by
  have hi : i - off < src.length := by omega
  simp [store, h, hi]

theorem mem_store_of_notMem {off i : ℕ} {src : List UInt8} (h : ¬(off ≤ i ∧ i < off + src.length)) :
    (a.store off src).mem i = a.mem i := if_neg h

/-- A store inside the bytes in use overwrites them. -/
theorem asSlice_store {off : ℕ} {src : List UInt8} (h : off + src.length ≤ a.len) :
    (a.store off src).asSlice = overwrite a.asSlice off src := by
  have h' : off + src.length ≤ a.asSlice.length := by rwa [length_asSlice]
  refine asSlice_eq _ (by rw [length_overwrite h', length_asSlice, len_store]) fun i hi => ?_
  rw [len_store] at hi
  rw [getElem?_overwrite h']
  split_ifs with hm
  · exact a.mem_store_of_mem hm
  · rw [getElem?_asSlice, if_pos hi, a.mem_store_of_notMem hm]

@[simp] theorem len_extend (src : List UInt8) :
    (a.extendFromSliceUnchecked src).len = a.len + src.length := rfl

@[simp] theorem cap_extend (src : List UInt8) : (a.extendFromSliceUnchecked src).cap = a.cap := rfl

@[simp] theorem asSlice_extend (src : List UInt8) :
    (a.extendFromSliceUnchecked src).asSlice = a.asSlice ++ src := by
  refine asSlice_eq _ (by simp) fun i hi => ?_
  rw [len_extend] at hi
  change _ = some ((a.store a.len src).mem i)
  by_cases h : i < a.len
  · rw [List.getElem?_append_left (by rwa [length_asSlice]), getElem?_asSlice, if_pos h,
      a.mem_store_of_notMem (by omega)]
  · rw [List.getElem?_append_right (by rw [length_asSlice]; omega), length_asSlice]
    exact a.mem_store_of_mem ⟨by omega, hi⟩

/-- A load inside the bytes in use is a read of them. -/
theorem load_eq_slice {off n : ℕ} (h : off + n ≤ a.len) : a.load off n = slice a.asSlice off n := by
  apply List.ext_getElem?
  intro i
  rw [getElem?_load, getElem?_slice, getElem?_asSlice]
  split_ifs <;> first | rfl | omega

end AlignedBuffer

end SmipMwp.Datapath
