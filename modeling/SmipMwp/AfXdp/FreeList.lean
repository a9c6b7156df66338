import SmipMwp.Foundations.PowersOfTwo
import SmipMwp.Foundations.RingBuffer

/-!
# The free list

The frame offsets that are not in use, in a bounded ring with `usize` head and tail. The `headroom`
is a soft reserve: a push counts the list as full when only that many slots are left. Up to that,
a push appends to the list (`contents_tryPush`) and a pop takes its first entry (`tryPop_of_cons`,
`tryPop_eq_none_iff`).
-/

namespace SmipMwp.AfXdp

/-- `head` is the consumer's counter of the ring, `tail` the producer's. -/
structure FreeList where
  ring : RingBuffer UInt64 64
  headroom : BitVec 64

namespace FreeList

/-- The headroom: `MOHAWK_FREELIST_HEADROOM` if it is set to a number, else an eighth of the
frames and at least 8. -/
def initialHeadroom (n : ℕ) (env : Option ℕ) : ℕ := env.getD (max (n / 8) 8)

/-- The number of slots for `n` frames. -/
def slotCount (n : ℕ) (env : Option ℕ) : ℕ :=
  let n := if n = 0 then 1 else n
  nextPowerOfTwo (n + initialHeadroom n env)

def withCapacity (n : ℕ) (env : Option ℕ) : FreeList where
  ring := { slots := List.replicate (slotCount n env) 0, prod := 0, cons := 0 }
  headroom := BitVec.ofNat 64 (initialHeadroom (if n = 0 then 1 else n) env)

/-- The number of entries from which on the list counts as full: a wrapping difference. -/
def limit (f : FreeList) : ℕ := (BitVec.ofNat 64 f.ring.capacity - f.headroom).toNat

def tryPush (f : FreeList) (v : UInt64) : Bool × FreeList :=
  if f.limit ≤ f.ring.used then (false, f)
  else
    (true,
      { f with
        ring :=
          { f.ring with
            slots := f.ring.slots.set (f.ring.index f.ring.prod) v
            prod := f.ring.prod + 1 } })

def tryPop (f : FreeList) : Option UInt64 × FreeList :=
  if f.ring.cons = f.ring.prod then (none, f)
  else
    (f.ring.slots[f.ring.index f.ring.cons]?,
      { f with ring := { f.ring with cons := f.ring.cons + 1 } })

/-- Pushes one after the other; what does not fit is dropped. -/
def pushAll (f : FreeList) (vs : List UInt64) : FreeList :=
  vs.foldl (fun f v => (f.tryPush v).2) f

def contents (f : FreeList) : List UInt64 := f.ring.contents

/-- A list on a well-formed ring that is at least as large as the headroom. -/
structure Wf (f : FreeList) : Prop where
  ring : f.ring.Wf
  headroom_le : f.headroom.toNat ≤ f.ring.capacity

/-! ## Push and pop as queue operations -/

variable {f : FreeList}

theorem Wf.limit_eq (h : f.Wf) : f.limit = f.ring.capacity - f.headroom.toNat := by
  have hlt := h.ring.capacity_lt
  have hle := h.headroom_le
  rw [limit, BitVec.toNat_sub_of_le, BitVec.toNat_ofNat, Nat.mod_eq_of_lt hlt]
  rw [BitVec.le_def, BitVec.toNat_ofNat, Nat.mod_eq_of_lt hlt]
  exact hle

theorem tryPush_of_lt (h : f.Wf) (v : UInt64) (hlt : f.ring.used < f.limit) :
    (f.tryPush v).2 = { f with ring := f.ring.push [v] } := by
  rw [tryPush, if_neg (by omega), RingBuffer.push, RingBuffer.write_singleton h.ring]
  rfl

theorem tryPush_of_le (v : UInt64) (hle : f.limit ≤ f.ring.used) : (f.tryPush v).2 = f := by
  rw [tryPush, if_pos hle]

theorem Wf.room (h : f.Wf) (v : UInt64) (hlt : f.ring.used < f.limit) :
    f.ring.used + [v].length ≤ f.ring.capacity := by
  rw [h.limit_eq] at hlt
  rw [List.length_singleton]
  omega

theorem Wf.tryPush (h : f.Wf) (v : UInt64) : (f.tryPush v).2.Wf := by
  by_cases hlt : f.ring.used < f.limit
  · rw [tryPush_of_lt h v hlt]
    refine ⟨h.ring.push (h.room v hlt), ?_⟩
    rw [RingBuffer.capacity_push h.ring (h.room v hlt)]
    exact h.headroom_le
  · rwa [tryPush_of_le v (Nat.le_of_not_lt hlt)]

/-- **A push appends**, unless the list counts as full. -/
theorem contents_tryPush (h : f.Wf) (v : UInt64) :
    (f.tryPush v).2.contents = if f.ring.used < f.limit then f.contents ++ [v] else f.contents := by
  split_ifs with hlt
  · rw [tryPush_of_lt h v hlt]
    exact RingBuffer.contents_push h.ring (h.room v hlt)
  · rw [tryPush_of_le v (Nat.le_of_not_lt hlt)]

/-- A pop finds the list empty exactly when it is. -/
theorem tryPop_eq_none_iff (h : f.ring.Wf) : f.tryPop.1 = none ↔ f.contents = [] := by
  rw [tryPop]
  split_ifs with hempty
  · simp only [true_iff]
    exact RingBuffer.contents_of_used_eq_zero h (RingBuffer.used_eq_zero_iff.mpr hempty)
  · have hpos : 0 < f.ring.used :=
      Nat.pos_of_ne_zero fun h0 => hempty (RingBuffer.used_eq_zero_iff.mp h0)
    rw [RingBuffer.getElem?_index_cons h hpos, contents]
    cases f.ring.contents <;> simp

/-- A pop from a list that is not empty, whatever the headroom, takes one entry off the ring. -/
theorem tryPop_eq_some (h : f.ring.Wf) {v : UInt64} {rest : List UInt64}
    (hcons : f.contents = v :: rest) :
    1 ≤ f.ring.used ∧ f.tryPop = (some v, { f with ring := (f.ring.pop 1).2 }) := by
  have hpos : 0 < f.ring.used := by
    rw [← RingBuffer.length_contents h, show f.ring.contents = v :: rest from hcons]
    exact Nat.succ_pos _
  have hne : ¬ f.ring.cons = f.ring.prod :=
    fun h0 => hpos.ne' (RingBuffer.used_eq_zero_iff.mpr h0)
  have hfirst : f.ring.contents[0]? = some v := by
    rw [show f.ring.contents = v :: rest from hcons]
    rfl
  rw [tryPop, if_neg hne, RingBuffer.getElem?_index_cons h hpos, hfirst]
  exact ⟨hpos, rfl⟩

/-- **A pop takes the first entry.** -/
theorem tryPop_of_cons (h : f.Wf) {v : UInt64} {rest : List UInt64}
    (hcons : f.contents = v :: rest) :
    f.tryPop.1 = some v ∧ f.tryPop.2.Wf ∧ f.tryPop.2.contents = rest := by
  obtain ⟨hpos, hpop⟩ := tryPop_eq_some h.ring hcons
  rw [hpop]
  refine ⟨rfl, ⟨h.ring.pop hpos, h.headroom_le⟩, ?_⟩
  change (f.ring.pop 1).2.contents = rest
  rw [RingBuffer.contents_pop h.ring hpos, show f.ring.contents = v :: rest from hcons]
  rfl

theorem Wf.pushAll (h : f.Wf) (vs : List UInt64) : (f.pushAll vs).Wf := by
  unfold FreeList.pushAll
  induction vs generalizing f with
  | nil => exact h
  | cons v vs ih => exact ih (h.tryPush v)

/-- Pushes add no offset more often than they are given it. -/
theorem count_pushAll_le (h : f.Wf) (vs : List UInt64) (a : UInt64) :
    (f.pushAll vs).contents.count a ≤ f.contents.count a + vs.count a := by
  unfold FreeList.pushAll
  induction vs generalizing f with
  | nil => exact le_rfl
  | cons v vs ih =>
    have htail := ih (h.tryPush v)
    have hhead : (f.tryPush v).2.contents.count a ≤ f.contents.count a + [v].count a := by
      rw [contents_tryPush h]
      split_ifs
      · rw [List.count_append]
      · exact Nat.le_add_right _ _
    rw [List.foldl_cons, ← List.singleton_append, List.count_append]
    exact htail.trans (by omega)

/-- Pushes up to the limit all succeed. -/
theorem contents_pushAll (h : f.Wf) {vs : List UInt64} (hvs : f.ring.used + vs.length ≤ f.limit) :
    (f.pushAll vs).contents = f.contents ++ vs := by
  unfold FreeList.pushAll
  induction vs generalizing f with
  | nil => rw [List.foldl_nil, List.append_nil]
  | cons v vs ih =>
    rw [List.length_cons] at hvs
    have hlt : f.ring.used < f.limit := by omega
    have hroom := h.room v hlt
    have hlimit : (f.tryPush v).2.limit = f.limit := by
      rw [(h.tryPush v).limit_eq, h.limit_eq, tryPush_of_lt h v hlt,
        RingBuffer.capacity_push h.ring hroom]
    have hused : (f.tryPush v).2.ring.used = f.ring.used + 1 := by
      rw [tryPush_of_lt h v hlt, RingBuffer.used_push h.ring hroom, List.length_singleton]
    rw [List.foldl_cons, ih (h.tryPush v) (by omega), contents_tryPush h, if_pos hlt,
      List.append_assoc, List.singleton_append]

/-! ## A new list -/

theorem le_slotCount (n : ℕ) (env : Option ℕ) :
    n + initialHeadroom (if n = 0 then 1 else n) env ≤ slotCount n env := by
  have hle := le_nextPowerOfTwo
    ((if n = 0 then 1 else n) + initialHeadroom (if n = 0 then 1 else n) env)
  rw [slotCount]
  split_ifs at hle ⊢ <;> omega

theorem withCapacity_wf {n : ℕ} {env : Option ℕ} (h : slotCount n env < 2 ^ 64) :
    (withCapacity n env).Wf := by
  have hcap : (withCapacity n env).ring.capacity = slotCount n env := List.length_replicate
  refine ⟨RingBuffer.Wf.of_cons_eq_prod ?_ rfl, ?_⟩
  · obtain ⟨k, hk⟩ := exists_nextPowerOfTwo_eq
      ((if n = 0 then 1 else n) + initialHeadroom (if n = 0 then 1 else n) env)
    refine ⟨k, ?_, by rw [hcap]; exact hk⟩
    rw [slotCount, hk] at h
    exact (Nat.pow_lt_pow_iff_right (by decide)).mp h
  · have hle := le_slotCount n env
    rw [hcap, withCapacity, BitVec.toNat_ofNat]
    exact (Nat.mod_le _ _).trans (by omega)

/-- A new list has room for all the frames it is made for, whatever the headroom. -/
theorem le_limit_withCapacity {n : ℕ} {env : Option ℕ} (h : slotCount n env < 2 ^ 64) :
    n ≤ (withCapacity n env).limit := by
  have hle := le_slotCount n env
  have hcap : (withCapacity n env).ring.capacity = slotCount n env := List.length_replicate
  rw [(withCapacity_wf h).limit_eq, hcap, withCapacity, BitVec.toNat_ofNat,
    Nat.mod_eq_of_lt (by omega)]
  omega

end FreeList

end SmipMwp.AfXdp
