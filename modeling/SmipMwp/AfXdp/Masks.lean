import SmipMwp.AfXdp.Rings
import SmipMwp.Foundations.PowersOfTwo

/-!
# The masks of the rings

`RingMmap::new` takes the capacity of each ring from the distance between two areas, or from what is
left of the mapping, and stores the capacity less one as the mask. Nothing makes the capacity a
power of two, and only then do positions less than the capacity apart select different slots
(`rings_separate_iff`).
-/

namespace SmipMwp.AfXdp

variable {α : Type*} {w : ℕ}

/-- The stored mask, `capacity - 1`. -/
def ringMask (r : RingBuffer α w) : ℕ := r.capacity - 1

/-- **Positions less than the capacity apart select different slots.** -/
def Separates (r : RingBuffer α w) : Prop :=
  ∀ p q, p < q → q < p + r.capacity → p &&& ringMask r ≠ q &&& ringMask r

theorem separates_iff {r : RingBuffer α w} (h : 0 < r.capacity) :
    Separates r ↔ ∃ k, r.capacity = 2 ^ k :=
  forall_and_sub_one_ne_iff h

/-- On such a ring two outstanding entries are in different slots, also where the counters wrap. -/
theorem Separates.index_ne {r : RingBuffer α w} (h : Separates r) (hpos : 0 < r.capacity)
    (counter : BitVec w) {i j : ℕ} (hij : i < j) (hj : j < r.capacity) (hw : j < 2 ^ w) :
    r.index (counter + BitVec.ofNat w i) ≠ r.index (counter + BitVec.ofNat w j) := by
  obtain ⟨k, hk⟩ := (separates_iff hpos).mp h
  have hval : ∀ i, (counter + BitVec.ofNat w i).toNat = (counter.toNat + i) % 2 ^ w := fun i => by
    rw [BitVec.toNat_add, BitVec.toNat_ofNat, Nat.add_mod_mod]
  simp only [RingBuffer.index, hk, hval, Nat.and_two_pow_sub_one_eq_mod]
  rw [hk] at hj
  intro heq
  rcases le_total k w with hle | hle
  · -- the counters count slots across their wrap
    rw [Nat.mod_mod_of_dvd _ (pow_dvd_pow 2 hle), Nat.mod_mod_of_dvd _ (pow_dvd_pow 2 hle),
      ← Nat.and_two_pow_sub_one_eq_mod, ← Nat.and_two_pow_sub_one_eq_mod] at heq
    exact and_two_pow_sub_one_ne (by omega) (by omega) heq
  · -- every counter is below the capacity
    have hlt : ∀ n, n % 2 ^ w < 2 ^ k := fun n =>
      (Nat.mod_lt _ (Nat.two_pow_pos w)).trans_le (Nat.pow_le_pow_right (by decide) hle)
    rw [Nat.mod_eq_of_lt (hlt _), Nat.mod_eq_of_lt (hlt _), ← Nat.and_two_pow_sub_one_eq_mod,
      ← Nat.and_two_pow_sub_one_eq_mod] at heq
    exact and_two_pow_sub_one_ne (by omega) (by omega) heq

namespace RingMmap

def rings (r : RingMmap) : List (RingBuffer UInt64 32) := [r.rx, r.tx, r.fill, r.comp]

/-- The capacities that `RingMmap::new` computes. -/
theorem capacity_rings_new (mapSize : ℕ) (offs : XskMmapOffsets) :
    (new mapSize offs).rings.map RingBuffer.capacity =
      [offs.rxCap, offs.txCap, offs.fillCap, offs.compCap mapSize] := by
  simp [rings, new, RingBuffer.capacity]

theorem capacity_rings_new_pos {mapSize : ℕ} {offs : XskMmapOffsets} {r : RingBuffer UInt64 32}
    (hr : r ∈ (new mapSize offs).rings) : 0 < r.capacity := by
  have hmem := List.mem_map_of_mem (f := RingBuffer.capacity) hr
  rw [capacity_rings_new] at hmem
  have hle : ∀ n : ℕ, 1 ≤ max n 1 := fun n => Nat.le_max_right n 1
  simp only [List.mem_cons, List.not_mem_nil, or_false] at hmem
  rcases hmem with h | h | h | h
  all_goals
    rw [h]
    exact hle _

end RingMmap

/-- **The masks of all four rings separate positions exactly when** all four capacities are powers
of two, for every size of the mapping and all offsets. -/
theorem rings_separate_iff (mapSize : ℕ) (offs : XskMmapOffsets) :
    (∀ r ∈ (RingMmap.new mapSize offs).rings, Separates r) ↔
      ∀ c ∈ [offs.rxCap, offs.txCap, offs.fillCap, offs.compCap mapSize], ∃ k, c = 2 ^ k := by
  rw [← RingMmap.capacity_rings_new, List.forall_mem_map]
  exact forall₂_congr fun r hr => separates_iff (RingMmap.capacity_rings_new_pos hr)

/-- The TX area of the repository's tests has 96 entries: the positions 0 and 32 share a slot. -/
theorem rings_not_separate : ¬ ∀ (mapSize : ℕ) (offs : XskMmapOffsets),
    ∀ r ∈ (RingMmap.new mapSize offs).rings, Separates r := by
  intro h
  have htx := h 16384 { rxDesc := 128, txDesc := 256, fillDesc := 1024, compDesc := 4096 } _
    (List.mem_cons_of_mem _ List.mem_cons_self)
  exact htx 0 32 (by decide) (by decide +kernel) (by decide +kernel)

end SmipMwp.AfXdp
