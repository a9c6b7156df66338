import SmipMwp.Foundations.Slices
import Mathlib.Tactic.Ring

/-!
# Machine words in a byte buffer

A number is stored as its base-256 digits, most significant first (`beBytes w n`, `w` bytes) and
read back by `beNat`; `leNat` reads the digits least significant first. Fixed-size byte arrays
are `Vector UInt8 n`, read out of a buffer by `readArray`.
-/

namespace SmipMwp

/-- A byte string. -/
abbrev Bytes := List UInt8

/-- The number with the base-256 digits `b`, most significant first. -/
def beNat : Bytes → ℕ
  | [] => 0
  | d :: b => d.toNat * 256 ^ b.length + beNat b

/-- The number with the base-256 digits `b`, least significant first. -/
def leNat (b : Bytes) : ℕ := beNat b.reverse

/-- The low `w` base-256 digits of `n`, most significant first. -/
def beBytes : ℕ → ℕ → Bytes
  | 0, _ => []
  | w + 1, n => UInt8.ofNat (n / 256 ^ w) :: beBytes w n

/-- The `n` bytes of `b` from `off`, as a fixed-size array. -/
def readArray (b : Bytes) (off n : ℕ) : Vector UInt8 n :=
  Vector.ofFn fun i => (slice b off n).getD i 0

@[simp] theorem length_beBytes (w n : ℕ) : (beBytes w n).length = w := by
  induction w with
  | zero => rfl
  | succ w ih => rw [beBytes, List.length_cons, ih]

/-- The digits written depend on the number modulo the width only. -/
theorem beBytes_congr {w m n : ℕ} (h : m % 256 ^ w = n % 256 ^ w) : beBytes w m = beBytes w n := by
  induction w with
  | zero => rfl
  | succ w ih =>
    have hlow : m % 256 ^ w = n % 256 ^ w := by
      have := congrArg (· % 256 ^ w) h
      simpa only [Nat.mod_mod_of_dvd _ (pow_dvd_pow 256 (Nat.le_succ w))] using this
    have hhigh : m / 256 ^ w % 256 = n / 256 ^ w % 256 := by
      rw [← Nat.mod_mul_right_div_self, ← Nat.mod_mul_right_div_self, ← Nat.pow_succ, h]
    rw [beBytes, beBytes, ih hlow]
    congr 1
    exact UInt8.toNat_inj.mp (by simpa using hhigh)

/-- Reading back what was written gives the number, modulo the width. -/
theorem beNat_beBytes (w n : ℕ) : beNat (beBytes w n) = n % 256 ^ w := by
  induction w with
  | zero => simp [beBytes, beNat, Nat.mod_one]
  | succ w ih =>
    have hd : (UInt8.ofNat (n / 256 ^ w)).toNat = n / 256 ^ w % 256 := by simp
    rw [beBytes, beNat, length_beBytes, ih, hd, Nat.mod_pow_succ]
    ring

theorem beNat_lt (b : Bytes) : beNat b < 256 ^ b.length := by
  induction b with
  | nil => simp [beNat]
  | cons d b ih =>
    have hd : d.toNat < 256 := d.toNat_lt
    calc d.toNat * 256 ^ b.length + beNat b < d.toNat * 256 ^ b.length + 256 ^ b.length := by omega
      _ = (d.toNat + 1) * 256 ^ b.length := (Nat.succ_mul _ _).symm
      _ ≤ 256 * 256 ^ b.length := Nat.mul_le_mul_right _ hd
      _ = 256 ^ (d :: b).length := by rw [List.length_cons, Nat.pow_succ, Nat.mul_comm]

/-- Writing back what was read gives the bytes. -/
theorem beBytes_beNat (b : Bytes) : beBytes b.length (beNat b) = b := by
  induction b with
  | nil => rfl
  | cons d b ih =>
    have hd : (d.toNat * 256 ^ b.length + beNat b) / 256 ^ b.length = d.toNat := by
      rw [Nat.mul_comm, Nat.mul_add_div (Nat.pow_pos (by decide)), Nat.div_eq_of_lt (beNat_lt b),
        Nat.add_zero]
    have hmod : beBytes b.length (d.toNat * 256 ^ b.length + beNat b) =
        beBytes b.length (beNat b) :=
      beBytes_congr (Nat.mul_add_mod' _ _ _)
    rw [List.length_cons, beBytes, beNat, hd, UInt8.ofNat_toNat, hmod, ih]

theorem beBytes_injective {w m n : ℕ} (hm : m < 256 ^ w) (hn : n < 256 ^ w)
    (h : beBytes w m = beBytes w n) : m = n := by
  have := congrArg beNat h
  rwa [beNat_beBytes, beNat_beBytes, Nat.mod_eq_of_lt hm, Nat.mod_eq_of_lt hn] at this

/-- The digits of an exclusive or. -/
theorem beBytes_xor (w m n : ℕ) :
    beBytes w (m ^^^ n) = List.zipWith (· ^^^ ·) (beBytes w m) (beBytes w n) := by
  induction w with
  | zero => rfl
  | succ w ih =>
    have hdigit : (m ^^^ n) / 256 ^ w = m / 256 ^ w ^^^ n / 256 ^ w := by
      rw [show 256 ^ w = 2 ^ (8 * w) from (pow_mul 2 8 w).symm, Nat.xor_div_two_pow]
    rw [beBytes, hdigit, UInt8.ofNat_xor, ih, beBytes, beBytes, List.zipWith_cons_cons]

theorem zipWith_xor_zero (b : Bytes) :
    List.zipWith (· ^^^ ·) b (List.replicate b.length 0) = b := by
  induction b with
  | nil => rfl
  | cons d b ih =>
    rw [List.length_cons, List.replicate_succ, List.zipWith_cons_cons, ih, UInt8.xor_zero]

/-- A fixed-size array read depends on the bytes it covers only. -/
theorem readArray_congr {b b' : Bytes} {off n : ℕ} (h : slice b off n = slice b' off n) :
    readArray b off n = readArray b' off n := by
  rw [readArray, readArray, h]

theorem toList_readArray {b : Bytes} {off n : ℕ} (h : off + n ≤ b.length) :
    (readArray b off n).toList = slice b off n := by
  apply List.ext_getElem
  · simp [readArray, length_slice_of_le h]
  · intro i h₁ h₂
    simp [readArray, List.getElem?_eq_getElem h₂]

/-- A buffer starts with two arrays if and only if they are read out of it at their places. -/
theorem take_eq_append_iff {b : Bytes} {m n : ℕ} (h : m + n ≤ b.length) (v : Vector UInt8 m)
    (w : Vector UInt8 n) :
    b.take (m + n) = v.toList ++ w.toList ↔ readArray b 0 m = v ∧ readArray b m n = w := by
  have hsplit : b.take (m + n) = (readArray b 0 m).toList ++ (readArray b m n).toList := by
    rw [toList_readArray (by omega), toList_readArray h, ← slice_zero, ← slice_append_slice,
      Nat.zero_add]
  rw [hsplit]
  constructor
  · intro heq
    obtain ⟨hv, hw⟩ := List.append_inj heq (by rw [Vector.length_toList, Vector.length_toList])
    exact ⟨Vector.toList_inj.mp hv, Vector.toList_inj.mp hw⟩
  · rintro ⟨hv, hw⟩
    rw [hv, hw]

theorem readArray_append {m n : ℕ} (v : Vector UInt8 m) (w : Vector UInt8 n) :
    readArray (v.toList ++ w.toList) 0 m = v ∧ readArray (v.toList ++ w.toList) m n = w := by
  have hlen : (v.toList ++ w.toList).length = m + n := by
    rw [List.length_append, Vector.length_toList, Vector.length_toList]
  exact (take_eq_append_iff hlen.ge v w).mp (List.take_of_length_le hlen.le)

end SmipMwp
