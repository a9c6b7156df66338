import Mathlib.Algebra.Order.Group.Nat
import Mathlib.Data.Nat.Log
import Mathlib.Tactic.Linarith

/-!
# Powers of two

`nextPowerOfTwo n` is the least power of two at or above `n`: it is a power of two
(`exists_nextPowerOfTwo_eq`), at least `n` (`le_nextPowerOfTwo`), and below `2 n` for positive `n`
(`nextPowerOfTwo_lt_two_mul`).

The mask `c - 1` tells all numbers less than `c` apart from each other exactly when `c` is a power
of two (`forall_and_sub_one_ne_iff`).

A hash whose low bits are free reaches every remainder modulo a power of two
(`xor_xor_mod_two_pow`), but at most two of the quotients that the high bits of its product with
`n` give (`mul_div_mem_pair`).
-/

namespace SmipMwp

/-- `usize::next_power_of_two`. -/
def nextPowerOfTwo (n : ℕ) : ℕ := if n ≤ 1 then 1 else 2 ^ ((n - 1).log2 + 1)

theorem exists_nextPowerOfTwo_eq (n : ℕ) : ∃ k, nextPowerOfTwo n = 2 ^ k := by
  unfold nextPowerOfTwo
  split_ifs
  · exact ⟨0, rfl⟩
  · exact ⟨_, rfl⟩

theorem le_nextPowerOfTwo (n : ℕ) : n ≤ nextPowerOfTwo n := by
  unfold nextPowerOfTwo
  split_ifs with h
  · exact h
  · have := Nat.lt_log2_self (n := n - 1)
    omega

theorem nextPowerOfTwo_lt_two_mul {n : ℕ} (hn : 0 < n) : nextPowerOfTwo n < 2 * n := by
  unfold nextPowerOfTwo
  split_ifs with h
  · omega
  · have := Nat.log2_self_le (n := n - 1) (by omega)
    rw [pow_succ]
    omega

/-! ## Masks -/

/-- Numbers less than `2 ^ k` apart have different remainders. -/
theorem and_two_pow_sub_one_ne {k p q : ℕ} (hlt : p < q) (hclose : q < p + 2 ^ k) :
    p &&& (2 ^ k - 1) ≠ q &&& (2 ^ k - 1) := by
  rw [Nat.and_two_pow_sub_one_eq_mod, Nat.and_two_pow_sub_one_eq_mod]
  intro h
  have hdvd : 2 ^ k ∣ q - p := Nat.dvd_of_mod_eq_zero (Nat.sub_mod_eq_zero_of_mod_eq h.symm)
  exact absurd (Nat.le_of_dvd (by omega) hdvd) (by omega)

/-- A mask that is not all ones misses a positive number up to itself: its complement. -/
theorem exists_and_eq_zero {m : ℕ} (hm : ∀ k, m + 1 ≠ 2 ^ k) :
    ∃ q, 0 < q ∧ q ≤ m ∧ q &&& m = 0 := by
  have hpos : m ≠ 0 := fun h0 => hm 0 (by rw [h0, pow_zero, Nat.zero_add])
  have hlog := Nat.log2_self_le hpos
  have hlt : m < 2 ^ (m.log2 + 1) := Nat.lt_log2_self
  have hne := hm (m.log2 + 1)
  have hsucc := pow_succ 2 m.log2
  refine ⟨2 ^ (m.log2 + 1) - (m + 1), by omega, by omega, ?_⟩
  apply Nat.eq_of_testBit_eq
  intro i
  rw [Nat.testBit_and, Nat.testBit_two_pow_sub_succ hlt, Nat.zero_testBit]
  cases m.testBit i <;> simp

/-- **The mask `c - 1` separates** numbers less than `c` apart exactly when `c` is a power of
two. -/
theorem forall_and_sub_one_ne_iff {c : ℕ} (hc : 0 < c) :
    (∀ p q, p < q → q < p + c → p &&& (c - 1) ≠ q &&& (c - 1)) ↔ ∃ k, c = 2 ^ k := by
  constructor
  · intro h
    by_contra! hpow
    obtain ⟨q, hpos, hle, hzero⟩ := exists_and_eq_zero (m := c - 1) fun k => by
      rw [Nat.sub_add_cancel hc]
      exact hpow k
    exact h 0 q hpos (by omega) (by rw [hzero, Nat.zero_and])
  · rintro ⟨k, rfl⟩ p q hlt hclose
    exact and_two_pow_sub_one_ne hlt hclose

/-! ## Reductions of a hash

A hash is reduced to a position below `n` by its low bits, where `n` is a power of two, or by the
high bits of its product with `n`. -/

/-- Every remainder modulo a power of two is that of an XOR with a number below it. -/
theorem xor_xor_mod_two_pow (b : ℕ) {i k : ℕ} (hi : i < 2 ^ k) :
    (b ^^^ (b ^^^ i) % 2 ^ k) % 2 ^ k = i := by
  rw [Nat.xor_mod_two_pow, Nat.mod_mod, Nat.xor_mod_two_pow, ← Nat.xor_assoc, Nat.xor_self,
    Nat.zero_xor, Nat.mod_eq_of_lt hi]

/-- Numbers whose products with `n` are less than `m` apart have quotients at most one apart. -/
theorem mul_div_mem_pair {c h n m : ℕ} (hc : c ≤ h) (hlt : (h - c) * n < m) :
    h * n / m = c * n / m ∨ h * n / m = c * n / m + 1 := by
  have hsplit : h * n = c * n + (h - c) * n := by
    rw [← Nat.add_mul, Nat.add_sub_cancel' hc]
  have hlow : c * n / m ≤ h * n / m := Nat.div_le_div_right (Nat.mul_le_mul_right n hc)
  have hhigh : h * n / m ≤ c * n / m + 1 := by
    rw [← Nat.add_div_right _ (by omega)]
    exact Nat.div_le_div_right (by omega)
  omega

end SmipMwp
