import SmipMwp.AfXdp.Masks

/-!
# Which slots are touched

The counters of a ring are in memory that the kernel writes too, so an operation finds any two
values there. A push takes its length from the free slots, which a saturating subtraction clamps,
and always stays within the ring. A pop takes its length from the difference of the counters as it
is: its second chunk is what remains of that after the first, and leaves the ring if the length and
the consumer's slot add up to more than twice the capacity (`ownSlots_iff`).

`rx_available` subtracts the same two counters after widening them, and is wrong when the
producer's has wrapped and the consumer's has not (`rxAvailable_eq_iff`).
-/

namespace SmipMwp.AfXdp

/-- The indices of two chunks of together `n` entries, up to the end of `c` slots and from their
start. -/
def chunkIndices (c start n : ℕ) : List ℕ :=
  let chunk₁ := min n (c - start)
  List.range' start chunk₁ ++ List.range' 0 (n - chunk₁)

/-- The indices that `ringPop` reads. -/
def popIndices (r : RingBuffer UInt64 32) (max : ℕ) : List ℕ :=
  let avail := r.used
  if avail = 0 then [] else chunkIndices r.capacity (r.index r.cons) (min avail max)

/-- The indices that `ringPush` writes. -/
def pushIndices (r : RingBuffer UInt64 32) (addrs : List UInt64) : List ℕ :=
  let free := r.capacity - r.used
  if free = 0 then [] else chunkIndices r.capacity (r.index r.prod) (min free addrs.length)

/-! ## Two chunks -/

theorem length_chunkIndices (c start n : ℕ) : (chunkIndices c start n).length = n := by
  rw [chunkIndices, List.length_append, List.length_range', List.length_range']
  omega

/-- The first chunk ends with the slots. The second one leaves them if it is longer than they
are. -/
theorem forall_mem_chunkIndices_lt_iff {c start : ℕ} (hstart : start ≤ c) (n : ℕ) :
    (∀ i ∈ chunkIndices c start n, i < c) ↔ start + n ≤ 2 * c := by
  simp only [chunkIndices, List.mem_append, List.mem_range'_1, Nat.zero_le, true_and, zero_add]
  constructor
  · intro h
    by_contra! hlt
    exact lt_irrefl c (h c (.inr (by omega)))
  · rintro h i (hi | hi)
    · omega
    · omega

section Ring

variable {α : Type*} {w : ℕ} {r : RingBuffer α w}

theorem index_le_capacity (counter : BitVec w) : r.index counter ≤ r.capacity :=
  Nat.and_le_right.trans (Nat.sub_le _ _)

/-- A bulk read goes through the indices one by one. -/
theorem read_eq_filterMap (n : ℕ) :
    r.read n = (chunkIndices r.capacity (r.index r.cons) n).filterMap fun i => r.slots[i]? := by
  rw [RingBuffer.read, slice_eq_filterMap, slice_eq_filterMap, chunkIndices, List.filterMap_append]

/-- A bulk write does too. -/
theorem write_eq_foldl (xs : List α) (h : xs.length ≤ r.capacity) :
    r.write xs = ((chunkIndices r.capacity (r.index r.prod) xs.length).zip xs).foldl
      (fun slots p => slots.set p.1 p.2) r.slots := by
  have hstart := index_le_capacity (r := r) r.prod
  have hcap : r.capacity = r.slots.length := rfl
  set chunk₁ := min xs.length (r.capacity - r.index r.prod) with hchunk
  have hfirst : (xs.take chunk₁).length = chunk₁ := by
    rw [List.length_take]
    omega
  have hsecond : (xs.drop chunk₁).length = xs.length - chunk₁ := List.length_drop
  have hinner : r.index r.prod + (xs.take chunk₁).length ≤ r.slots.length := by omega
  have houter : 0 + (xs.drop chunk₁).length ≤
      (overwrite r.slots (r.index r.prod) (xs.take chunk₁)).length := by
    rw [length_overwrite hinner]
    omega
  have hzip : (chunkIndices r.capacity (r.index r.prod) xs.length).zip xs =
      (List.range' (r.index r.prod) chunk₁).zip (xs.take chunk₁) ++
        (List.range' 0 (xs.length - chunk₁)).zip (xs.drop chunk₁) := by
    conv_lhs => rw [← List.take_append_drop chunk₁ xs]
    rw [← List.zip_append (by rw [List.length_range', hfirst]), List.take_append_drop]
    rfl
  rw [RingBuffer.write, overwrite_eq_foldl houter, overwrite_eq_foldl hinner, hfirst, hsecond,
    hzip, List.foldl_append]

end Ring

/-! ## One operation -/

variable {r : RingBuffer UInt64 32}

/-- A pop returns the entries at its indices. -/
theorem fst_ringPop (max : ℕ) :
    (ringPop r max).1 = (popIndices r max).filterMap fun i => r.slots[i]? := by
  simp only [ringPop, popIndices]
  split_ifs
  · rfl
  · exact read_eq_filterMap _

/-- A push writes the addresses at its indices. -/
theorem slots_ringPush (addrs : List UInt64) :
    (ringPush r addrs).2.slots =
      ((pushIndices r addrs).zip (addrs.take (ringPush r addrs).1)).foldl
        (fun slots p => slots.set p.1 p.2) r.slots := by
  simp only [ringPush, pushIndices]
  split_ifs with h0
  · rfl
  · have hlen : (addrs.take (min (r.capacity - r.used) addrs.length)).length =
        min (r.capacity - r.used) addrs.length := by
      rw [List.length_take]
      omega
    have hwrite := write_eq_foldl (r := r)
      (addrs.take (min (r.capacity - r.used) addrs.length)) (by omega)
    rwa [hlen] at hwrite

theorem length_popIndices (max : ℕ) : (popIndices r max).length = min r.used max := by
  simp only [popIndices]
  split_ifs with h0
  · rw [h0, Nat.zero_min, List.length_nil]
  · exact length_chunkIndices _ _ _

theorem forall_mem_popIndices_lt_iff (max : ℕ) :
    (∀ i ∈ popIndices r max, i < r.capacity) ↔
      min r.used max + r.index r.cons ≤ 2 * r.capacity := by
  have hstart := index_le_capacity (r := r) r.cons
  simp only [popIndices]
  split_ifs with h0
  · rw [h0, Nat.zero_min]
    exact iff_of_true (fun _ hi => nomatch hi) (by omega)
  · rw [forall_mem_chunkIndices_lt_iff hstart, Nat.add_comm]

/-- A push writes within the ring, whatever the counters are. -/
theorem forall_mem_pushIndices_lt (addrs : List UInt64) :
    ∀ i ∈ pushIndices r addrs, i < r.capacity := by
  have hstart := index_le_capacity (r := r) r.prod
  simp only [pushIndices]
  split_ifs with h0
  · exact fun _ hi => nomatch hi
  · exact (forall_mem_chunkIndices_lt_iff hstart _).mpr (by omega)

/-! ## The four operations -/

namespace RingMmap

/-- The four ring operations touch slots of their own rings only. -/
structure OwnSlots (r : RingMmap) (rxMax compMax : ℕ) (fillAddrs txAddrs : List UInt64) : Prop where
  rxPop : ∀ i ∈ popIndices r.rx rxMax, i < r.rx.capacity
  compPop : ∀ i ∈ popIndices r.comp compMax, i < r.comp.capacity
  fillPush : ∀ i ∈ pushIndices r.fill fillAddrs, i < r.fill.capacity
  txPush : ∀ i ∈ pushIndices r.tx txAddrs, i < r.tx.capacity

/-- **The operations stay within their rings exactly when** in both rings that are popped the number
of entries taken and the consumer's slot add up to at most twice the capacity. -/
theorem ownSlots_iff (r : RingMmap) (rxMax compMax : ℕ) (fillAddrs txAddrs : List UInt64) :
    r.OwnSlots rxMax compMax fillAddrs txAddrs ↔
      min r.rx.used rxMax + r.rx.index r.rx.cons ≤ 2 * r.rx.capacity ∧
        min r.comp.used compMax + r.comp.index r.comp.cons ≤ 2 * r.comp.capacity := by
  rw [← forall_mem_popIndices_lt_iff, ← forall_mem_popIndices_lt_iff]
  constructor
  · exact fun h => ⟨h.rxPop, h.compPop⟩
  · exact fun h => ⟨h.1, h.2, forall_mem_pushIndices_lt _, forall_mem_pushIndices_lt _⟩

/-- Rings of eight slots, all of them empty but the RX ring with these counters. -/
def withRx (prod cons : BitVec 32) : RingMmap where
  rx := { slots := List.replicate 8 0, prod := prod, cons := cons }
  tx := { slots := List.replicate 8 0, prod := 0, cons := 0 }
  fill := { slots := List.replicate 8 0, prod := 0, cons := 0 }
  comp := { slots := List.replicate 8 0, prod := 0, cons := 0 }

/-- The producer is at 100 and the consumer at 0 in an RX ring of 8 slots: a pop of up to 64 entries
reads the indices 0 to 7 and then 0 to 55. -/
theorem not_ownSlots :
    ¬ ∀ (r : RingMmap) (rxMax compMax : ℕ) (fillAddrs txAddrs : List UInt64),
      r.OwnSlots rxMax compMax fillAddrs txAddrs := by
  intro h
  have hrx := (h (withRx 100 0) 64 0 [] []).rxPop
  exact absurd (hrx 8 (by decide +kernel)) (by decide)

/-- `rx_available`: the counters are subtracted as 64-bit numbers. -/
def rxAvailable (r : RingMmap) : ℕ := (r.rx.prod.setWidth 64 - r.rx.cons.setWidth 64).toNat

/-- **`rx_available` is the number of descriptors** that a pop without limit takes exactly when the
producer's counter is not below the consumer's. -/
theorem rxAvailable_eq_iff (r : RingMmap) :
    r.rxAvailable = (popIndices r.rx (2 ^ 64 - 1)).length ↔
      r.rx.cons.toNat ≤ r.rx.prod.toNat := by
  have hprod := r.rx.prod.isLt
  have hcons := r.rx.cons.isLt
  have hwide : r.rxAvailable = (2 ^ 64 - r.rx.cons.toNat + r.rx.prod.toNat) % 2 ^ 64 := by
    have hprod' : r.rx.prod.toNat % 2 ^ 64 = r.rx.prod.toNat := Nat.mod_eq_of_lt (by omega)
    have hcons' : r.rx.cons.toNat % 2 ^ 64 = r.rx.cons.toNat := Nat.mod_eq_of_lt (by omega)
    rw [rxAvailable, BitVec.toNat_sub, BitVec.toNat_setWidth, BitVec.toNat_setWidth, hprod', hcons']
  have hused : r.rx.used = (2 ^ 32 - r.rx.cons.toNat + r.rx.prod.toNat) % 2 ^ 32 :=
    BitVec.toNat_sub _ _
  rw [length_popIndices, hwide, hused]
  omega

/-- The producer has wrapped to 0 and the consumer is one behind: there is one descriptor, and
`rx_available` is `2^64 - (2^32 - 1)`. -/
theorem rxAvailable_ne :
    ¬ ∀ r : RingMmap, r.rxAvailable = (popIndices r.rx (2 ^ 64 - 1)).length := by
  intro h
  have hone := h (withRx 0 (2 ^ 32 - 1))
  rw [length_popIndices] at hone
  exact absurd hone (by decide)

end RingMmap

end SmipMwp.AfXdp
