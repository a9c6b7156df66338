import SmipMwp.Foundations.RingBuffer

/-!
# The rings shared with the kernel

`RingMmap` wraps the memory that the kernel maps for a socket: four rings of descriptors. Of the TX
and the fill ring the socket is the producer and the kernel the consumer, of the RX and the
completion ring the other way round. The capacities come from the distances between the areas and
are used as masks unchecked; on powers of two the rings are queues (`tx_txPush`, `comp_compPop`).

`kernelConsume` and `kernelComplete` are the kernel's side: it takes the oldest descriptor off the
TX ring, and posts a frame on the completion ring when that has room.
-/

namespace SmipMwp.AfXdp

/-! ## One ring

`tx_push` and `fill_push` are the same code on two rings, and so are `rx_pop` and `comp_pop`. -/

/-- The push: as many of the addresses as there are free slots, and their number. -/
def ringPush (r : RingBuffer UInt64 32) (addrs : List UInt64) : ℕ × RingBuffer UInt64 32 :=
  let free := r.capacity - r.used
  if free = 0 then (0, r)
  else
    let toPush := min free addrs.length
    (toPush, r.push (addrs.take toPush))

/-- The pop: up to `max` of the entries. -/
def ringPop (r : RingBuffer UInt64 32) (max : ℕ) : List UInt64 × RingBuffer UInt64 32 :=
  let avail := r.used
  if avail = 0 then ([], r) else r.pop (min avail max)

section Ring

variable {r : RingBuffer UInt64 32}

/-- **A push appends** the addresses it says it pushed. -/
theorem contents_ringPush (h : r.Wf) (addrs : List UInt64) :
    (ringPush r addrs).2.Wf ∧ (ringPush r addrs).2.capacity = r.capacity ∧
      (ringPush r addrs).2.cons = r.cons ∧
      (ringPush r addrs).2.contents = r.contents ++ addrs.take (ringPush r addrs).1 := by
  simp only [ringPush]
  split_ifs with h0
  · exact ⟨h, rfl, rfl, by simp⟩
  · have hle := h.used_le
    have hroom : r.used + (addrs.take (min (r.capacity - r.used) addrs.length)).length ≤
        r.capacity := by
      rw [List.length_take]
      omega
    exact ⟨h.push hroom, RingBuffer.capacity_push h hroom, rfl, RingBuffer.contents_push h hroom⟩

/-- **A pop takes from the front**, and moves the consumer by as much. -/
theorem contents_ringPop (h : r.Wf) (max : ℕ) :
    (ringPop r max).2.Wf ∧ (ringPop r max).2.capacity = r.capacity ∧
      (ringPop r max).2.cons = r.cons + BitVec.ofNat 32 (ringPop r max).1.length ∧
      r.contents = (ringPop r max).1 ++ (ringPop r max).2.contents := by
  simp only [ringPop]
  split_ifs with h0
  · exact ⟨h, rfl, (BitVec.add_zero _).symm, rfl⟩
  · have hle : min r.used max ≤ r.used := Nat.min_le_left _ _
    refine ⟨h.pop hle, rfl, ?_, ?_⟩
    · rw [RingBuffer.fst_pop h hle, List.length_take, RingBuffer.length_contents h,
        Nat.min_eq_left hle]
      rfl
    · rw [RingBuffer.fst_pop h hle, RingBuffer.contents_pop h hle, List.take_append_drop]

end Ring

/-! ## The mapped memory -/

/-- The offsets of the descriptor areas in the mapped memory. -/
structure XskMmapOffsets where
  rxDesc : ℕ
  txDesc : ℕ
  fillDesc : ℕ
  compDesc : ℕ

namespace XskMmapOffsets

def rxCap (offs : XskMmapOffsets) : ℕ := max ((offs.txDesc - offs.rxDesc) / 8) 1

def txCap (offs : XskMmapOffsets) : ℕ := max ((offs.fillDesc - offs.txDesc) / 8) 1

def fillCap (offs : XskMmapOffsets) : ℕ := max ((offs.compDesc - offs.fillDesc) / 8) 1

def compCap (offs : XskMmapOffsets) (mapSize : ℕ) : ℕ := max ((mapSize - offs.compDesc) / 8) 1

end XskMmapOffsets

structure RingMmap where
  rx : RingBuffer UInt64 32
  tx : RingBuffer UInt64 32
  fill : RingBuffer UInt64 32
  comp : RingBuffer UInt64 32

namespace RingMmap

def new (mapSize : ℕ) (offs : XskMmapOffsets) : RingMmap where
  rx := { slots := List.replicate offs.rxCap 0, prod := 0, cons := 0 }
  tx := { slots := List.replicate offs.txCap 0, prod := 0, cons := 0 }
  fill := { slots := List.replicate offs.fillCap 0, prod := 0, cons := 0 }
  comp := { slots := List.replicate (offs.compCap mapSize) 0, prod := 0, cons := 0 }

/-- The free slots of the TX ring: `capacity.saturating_sub(used)`. -/
def txFree (r : RingMmap) : ℕ := r.tx.capacity - r.tx.used

/-- `tx_push`: as many of the addresses as there are free slots, and their number. -/
def txPush (r : RingMmap) (addrs : List UInt64) : ℕ × RingMmap :=
  if r.txFree = 0 then (0, r)
  else
    let toPush := min r.txFree addrs.length
    (toPush, { r with tx := r.tx.push (addrs.take toPush) })

/-- `comp_pop`: up to `max` of the completed frames. -/
def compPop (r : RingMmap) (max : ℕ) : List UInt64 × RingMmap :=
  let avail := r.comp.used
  if avail = 0 then ([], r)
  else
    let (out, comp) := r.comp.pop (min avail max)
    (out, { r with comp := comp })

/-- `fill_push`. -/
def fillPush (r : RingMmap) (addrs : List UInt64) : ℕ × RingMmap :=
  ((ringPush r.fill addrs).1, { r with fill := (ringPush r.fill addrs).2 })

/-- `rx_pop`. For counters further apart than the capacity the source reads on behind the slots, and
its list is longer than this one. -/
def rxPop (r : RingMmap) (max : ℕ) : List UInt64 × RingMmap :=
  ((ringPop r.rx max).1, { r with rx := (ringPop r.rx max).2 })

/-- The kernel takes the oldest descriptor off the TX ring. -/
def kernelConsume (r : RingMmap) : Option (UInt64 × RingMmap) :=
  match r.tx.contents with
  | [] => none
  | d :: _ => some (d, { r with tx := (r.tx.pop 1).2 })

/-- The kernel posts a frame on the completion ring, if there is room. -/
def kernelComplete (r : RingMmap) (d : UInt64) : Option RingMmap :=
  if r.comp.used < r.comp.capacity then some { r with comp := r.comp.push [d] } else none

/-- The rings that `send` works on are well-formed. -/
structure Wf (r : RingMmap) : Prop where
  tx : r.tx.Wf
  comp : r.comp.Wf

/-! ## The rings as queues -/

variable {r : RingMmap}

theorem new_wf {mapSize : ℕ} {offs : XskMmapOffsets} (htx : ∃ k < 32, offs.txCap = 2 ^ k)
    (hcomp : ∃ k < 32, offs.compCap mapSize = 2 ^ k) : (new mapSize offs).Wf := by
  obtain ⟨k, hk, htx⟩ := htx
  obtain ⟨l, hl, hcomp⟩ := hcomp
  exact ⟨.of_cons_eq_prod ⟨k, hk, by rw [← htx]; exact List.length_replicate⟩ rfl,
    .of_cons_eq_prod ⟨l, hl, by rw [← hcomp]; exact List.length_replicate⟩ rfl⟩

theorem txPush_eq (r : RingMmap) (addrs : List UInt64) :
    r.txPush addrs = ((ringPush r.tx addrs).1, { r with tx := (ringPush r.tx addrs).2 }) := by
  have hpush : ringPush r.tx addrs =
      if r.txFree = 0 then (0, r.tx)
      else (min r.txFree addrs.length, r.tx.push (addrs.take (min r.txFree addrs.length))) := rfl
  rw [hpush, txPush]
  split_ifs <;> rfl

theorem compPop_eq (r : RingMmap) (max : ℕ) :
    r.compPop max = ((ringPop r.comp max).1, { r with comp := (ringPop r.comp max).2 }) := by
  simp only [compPop, ringPop]
  by_cases h0 : r.comp.used = 0
  · simp only [if_pos h0]
  · simp only [if_neg h0]

/-- **`tx_push` appends** the addresses it says it pushed. -/
theorem tx_txPush (h : r.Wf) (addrs : List UInt64) :
    (r.txPush addrs).2.Wf ∧ (r.txPush addrs).2.comp = r.comp ∧
      (r.txPush addrs).2.tx.contents = r.tx.contents ++ addrs.take (r.txPush addrs).1 := by
  obtain ⟨hwf, -, -, hcontents⟩ := contents_ringPush h.tx addrs
  rw [txPush_eq]
  exact ⟨⟨hwf, h.comp⟩, rfl, hcontents⟩

/-- **`comp_pop` takes from the front** of the completed frames. -/
theorem comp_compPop (h : r.Wf) (max : ℕ) :
    (r.compPop max).2.Wf ∧ (r.compPop max).2.tx = r.tx ∧
      r.comp.contents = (r.compPop max).1 ++ (r.compPop max).2.comp.contents := by
  obtain ⟨hwf, -, -, hcontents⟩ := contents_ringPop h.comp max
  rw [compPop_eq]
  exact ⟨⟨h.tx, hwf⟩, rfl, hcontents⟩

theorem kernelConsume_eq_some (h : r.Wf) {d : UInt64} {r' : RingMmap}
    (hr : r.kernelConsume = some (d, r')) :
    r'.Wf ∧ r'.comp = r.comp ∧ r.tx.contents = d :: r'.tx.contents := by
  unfold kernelConsume at hr
  split at hr
  · cases hr
  · next d' rest hcons =>
    have hpos : 1 ≤ r.tx.used := by
      rw [← RingBuffer.length_contents h.tx, hcons]
      exact Nat.succ_pos _
    cases hr
    refine ⟨⟨h.tx.pop hpos, h.comp⟩, rfl, ?_⟩
    rw [RingBuffer.contents_pop h.tx hpos, hcons, List.drop_one, List.tail_cons]

theorem kernelComplete_eq_some (h : r.Wf) {d : UInt64} {r' : RingMmap}
    (hr : r.kernelComplete d = some r') :
    r'.Wf ∧ r'.tx = r.tx ∧ r'.comp.contents = r.comp.contents ++ [d] := by
  unfold kernelComplete at hr
  split_ifs at hr with hlt
  cases hr
  have hroom : r.comp.used + [d].length ≤ r.comp.capacity := hlt
  exact ⟨⟨h.tx, h.comp.push hroom⟩, rfl, RingBuffer.contents_push h.comp hroom⟩

end RingMmap

end SmipMwp.AfXdp
