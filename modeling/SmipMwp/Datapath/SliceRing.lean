import SmipMwp.Datapath.Forwarder

/-!
# The slice path

`SliceRing` is the receive ring of `process_batch_slices`: fixed-size slots in one flat backing
buffer, a length for each, and the list of active slots. The lengths it keeps never exceed the slot
size and the backing always has room for every slot, so an index below the capacity is all a slot
access needs; a failed assertion or an index past the end is `none`.
-/

namespace SmipMwp.Datapath

open Crypto Routing Wire

structure SliceRing where
  backing : Bytes
  slotSize : ℕ
  lens : List ℕ
  active : List ℕ
  length_backing : backing.length = lens.length * slotSize
  lens_le : ∀ n ∈ lens, n ≤ slotSize

namespace SliceRing

def new (slotCount slotSize : ℕ) : SliceRing where
  backing := List.replicate (slotCount * slotSize) 0
  slotSize := slotSize
  lens := List.replicate slotCount 0
  active := []
  length_backing := by simp
  lens_le := by simp

variable (r : SliceRing)

def clear : SliceRing := { r with active := [] }

def capacity : ℕ := r.lens.length

theorem slot_le {idx : ℕ} (h : idx < r.capacity) :
    idx * r.slotSize + r.slotSize ≤ r.backing.length := by
  rw [r.length_backing, ← Nat.succ_mul]
  exact Nat.mul_le_mul_right _ h

/-- `claim`: the next slot, if the ring is not exhausted. -/
def claim : Option ℕ :=
  let idx := r.active.length
  if idx < r.lens.length then some idx else none

/-- `slot_mut(idx)[..src.len()].copy_from_slice(src)`. -/
def copyIntoSlot (idx : ℕ) (src : Bytes) (h : idx < r.capacity) (hsrc : src.length ≤ r.slotSize) :
    SliceRing :=
  { r with
    backing := overwrite r.backing (idx * r.slotSize) src
    length_backing := by
      have := r.slot_le h
      rw [length_overwrite (by omega), r.length_backing] }

def setLen (idx len : ℕ) : SliceRing :=
  { r with
    lens := r.lens.set idx (min len r.slotSize)
    length_backing := by rw [List.length_set, r.length_backing]
    lens_le := fun n hn => by
      rcases List.mem_or_eq_of_mem_set hn with h | rfl
      · exact r.lens_le n h
      · exact Nat.min_le_right _ _ }

def pushActive (idx : ℕ) : SliceRing := { r with active := r.active ++ [idx] }

/-- `slot_len`, for an index below the capacity. -/
def slotLen (idx : ℕ) : ℕ := r.lens.getD idx 0

/-- `slot`, for an index below the capacity. -/
def slot (idx : ℕ) : Bytes := slice r.backing (idx * r.slotSize) (r.slotLen idx)

theorem claim_lt {idx : ℕ} (h : r.claim = some idx) : idx < r.capacity := by
  simp only [claim] at h
  split_ifs at h with hlt
  rwa [← Option.some.inj h]

/-- The loop body of `poll_slices` after the claim: the frame, clamped to the slot, is copied
into it, and the slot activated. -/
def fill (idx : ℕ) (frame : Bytes) (h : idx < r.capacity) : SliceRing :=
  let len := min frame.length r.slotSize
  ((r.copyIntoSlot idx (frame.take len) h
    (by rw [List.length_take]; omega)).setLen idx len).pushActive idx

/-- The loop body of `poll_slices`. -/
def pollStep (frame : Bytes) : Option SliceRing :=
  match h : r.claim with
  | none => none
  | some idx => some (r.fill idx frame (r.claim_lt h))

/-- `XdpSocket::poll_slices`, on the frames that `poll` returned. -/
def pollSlices (frames : List Bytes) : Option (ℕ × SliceRing) :=
  (frames.foldlM pollStep r.clear).map fun r => (r.active.length, r)

/-! ## What polling leaves in the slots -/

section Fill

variable {idx : ℕ} (frame : Bytes) (h : idx < r.capacity)

@[simp] theorem capacity_fill : (r.fill idx frame h).capacity = r.capacity := List.length_set

@[simp] theorem slotSize_fill : (r.fill idx frame h).slotSize = r.slotSize := rfl

@[simp] theorem active_fill : (r.fill idx frame h).active = r.active ++ [idx] := rfl

theorem backing_fill : (r.fill idx frame h).backing =
    overwrite r.backing (idx * r.slotSize) (frame.take r.slotSize) := by
  change overwrite _ _ (frame.take (min frame.length r.slotSize)) = _
  rw [Nat.min_comm, ← List.take_take, List.take_length]

theorem slotLen_fill (i : ℕ) : (r.fill idx frame h).slotLen i =
    if i = idx then (frame.take r.slotSize).length else r.slotLen i := by
  change (r.lens.set idx (min (min frame.length r.slotSize) r.slotSize)).getD i 0 = _
  split_ifs with hi
  · rw [hi, List.getD_eq_getElem?_getD, List.getElem?_set_self h, Option.getD_some,
      List.length_take]
    omega
  · rw [List.getD_eq_getElem?_getD, List.getElem?_set_ne (Ne.symm hi), slotLen,
      List.getD_eq_getElem?_getD]

theorem slotLen_le {i : ℕ} (hi : i < r.capacity) : r.slotLen i ≤ r.slotSize := by
  rw [slotLen, List.getD_eq_getElem?_getD, List.getElem?_eq_getElem hi]
  exact r.lens_le _ (List.getElem_mem hi)

theorem length_slot {i : ℕ} (hi : i < r.capacity) : (r.slot i).length = r.slotLen i := by
  have hle := r.slot_le hi
  have hlen := r.slotLen_le hi
  exact length_slice_of_le (by omega)

/-- The slot filled holds the frame, clamped. -/
theorem slot_fill_self : (r.fill idx frame h).slot idx = frame.take r.slotSize := by
  have hle := r.slot_le h
  rw [slot, slotLen_fill, if_pos rfl, backing_fill, slotSize_fill]
  exact slice_overwrite_self (by rw [List.length_take]; omega)

/-- Filling one slot leaves the others alone. -/
theorem slot_fill_of_ne {i : ℕ} (hi : i < r.capacity) (hne : i ≠ idx) :
    (r.fill idx frame h).slot i = r.slot i := by
  have hle := r.slot_le h
  have hlen := r.slotLen_le hi
  have hsrc : (frame.take r.slotSize).length ≤ r.slotSize := by rw [List.length_take]; omega
  rw [slot, slotLen_fill, if_neg hne, backing_fill, slotSize_fill, slot]
  rcases lt_or_gt_of_ne hne with hlt | hgt
  · have hmul := Nat.mul_le_mul_right r.slotSize (Nat.succ_le_of_lt hlt)
    rw [Nat.succ_mul] at hmul
    exact slice_overwrite_of_le (by omega) (by omega)
  · have hmul := Nat.mul_le_mul_right r.slotSize (Nat.succ_le_of_lt hgt)
    rw [Nat.succ_mul] at hmul
    exact slice_overwrite_of_ge (by omega) (by omega)

end Fill

/-- The ring `r` after polling `frames`, from a ring of the given size: slot `i` holds frame `i`
clamped to the slot size. -/
structure Polled (capacity slotSize : ℕ) (frames : List Bytes) (r : SliceRing) : Prop where
  capacity_eq : r.capacity = capacity
  slotSize_eq : r.slotSize = slotSize
  active_eq : r.active = List.range frames.length
  slots_eq : r.active.map r.slot = frames.map (List.take slotSize)

theorem Polled.clear : Polled r.capacity r.slotSize [] r.clear := ⟨rfl, rfl, rfl, rfl⟩

variable {r} {capacity slotSize : ℕ} {frames : List Bytes}

theorem pollStep_of_claim_eq_none (h : r.claim = none) (frame : Bytes) :
    r.pollStep frame = none := by
  unfold pollStep
  split
  · rfl
  · next heq => cases h.symm.trans heq

theorem pollStep_of_claim_eq_some {idx : ℕ} (h : r.claim = some idx) (frame : Bytes) :
    r.pollStep frame = some (r.fill idx frame (r.claim_lt h)) := by
  unfold pollStep
  split
  · next heq => cases h.symm.trans heq
  · next heq =>
    obtain rfl := Option.some.inj (h.symm.trans heq)
    rfl

/-- One more frame is polled if there is a slot for it. -/
theorem Polled.pollStep_eq_some (h : Polled capacity slotSize frames r)
    (hlt : frames.length < capacity) (frame : Bytes) :
    ∃ r', r.pollStep frame = some r' ∧ Polled capacity slotSize (frames ++ [frame]) r' := by
  have hact : r.active.length = frames.length := by rw [h.active_eq, List.length_range]
  have hidx : frames.length < r.capacity := by rwa [h.capacity_eq]
  have hclaim : r.claim = some frames.length := by
    rw [claim, hact]
    exact if_pos hidx
  refine ⟨r.fill frames.length frame hidx, pollStep_of_claim_eq_some hclaim frame,
    by simpa using h.capacity_eq, h.slotSize_eq, ?_, ?_⟩
  · rw [active_fill, h.active_eq, List.length_append, List.length_singleton, List.range_succ]
  · rw [active_fill, List.map_append, List.map_append, ← h.slots_eq, List.map_singleton,
      List.map_singleton, slot_fill_self, h.slotSize_eq]
    congr 1
    refine List.map_congr_left fun i hi => ?_
    rw [h.active_eq, List.mem_range] at hi
    exact r.slot_fill_of_ne frame hidx (hi.trans hidx) hi.ne

/-- An exhausted ring panics on the next frame. -/
theorem Polled.pollStep_eq_none (h : Polled capacity slotSize frames r)
    (hge : capacity ≤ frames.length) (frame : Bytes) : r.pollStep frame = none := by
  have hclaim : r.claim = none := by
    rw [claim, h.active_eq, List.length_range]
    exact if_neg (not_lt.mpr (h.capacity_eq.le.trans hge))
  exact pollStep_of_claim_eq_none hclaim frame

/-- The loop of `poll_slices` gives every frame a slot, if there are enough. -/
theorem Polled.foldlM_eq_some (h : Polled capacity slotSize frames r) (more : List Bytes)
    (hle : frames.length + more.length ≤ capacity) :
    ∃ r', more.foldlM pollStep r = some r' ∧ Polled capacity slotSize (frames ++ more) r' := by
  induction more generalizing frames r with
  | nil => exact ⟨r, rfl, by rwa [List.append_nil]⟩
  | cons frame more ih =>
    rw [List.length_cons] at hle
    obtain ⟨r₁, hr₁, h₁⟩ := h.pollStep_eq_some (by omega) frame
    obtain ⟨r₂, hr₂, h₂⟩ := ih h₁ (by rw [List.length_append, List.length_singleton]; omega)
    refine ⟨r₂, by rw [List.foldlM_cons, hr₁]; exact hr₂, ?_⟩
    rwa [List.append_assoc, List.singleton_append] at h₂

/-- The loop of `poll_slices` panics when there are more frames than slots. -/
theorem Polled.foldlM_eq_none (h : Polled capacity slotSize frames r) (more : List Bytes)
    (hle : frames.length ≤ capacity) (hgt : capacity < frames.length + more.length) :
    more.foldlM pollStep r = none := by
  induction more generalizing frames r with
  | nil =>
    rw [List.length_nil] at hgt
    omega
  | cons frame more ih =>
    rw [List.length_cons] at hgt
    rcases lt_or_eq_of_le hle with hlt | heq
    · obtain ⟨r₁, hr₁, h₁⟩ := h.pollStep_eq_some hlt frame
      rw [List.foldlM_cons, hr₁]
      exact ih h₁ (by rw [List.length_append, List.length_singleton]; omega)
        (by rw [List.length_append, List.length_singleton]; omega)
    · rw [List.foldlM_cons, h.pollStep_eq_none heq.ge]
      rfl

/-- **Polling** succeeds exactly when the ring has a slot for every frame, and leaves the frames,
clamped, in the active slots, whatever the ring held before. -/
theorem pollSlices_eq (r : SliceRing) (frames : List Bytes) :
    if frames.length ≤ r.capacity then
      ∃ r', r.pollSlices frames = some (frames.length, r') ∧
        Polled r.capacity r.slotSize frames r'
    else r.pollSlices frames = none := by
  split_ifs with hle
  · obtain ⟨r', hr', h'⟩ := (Polled.clear r).foldlM_eq_some frames (by simpa using hle)
    rw [List.nil_append] at h'
    refine ⟨r', ?_, h'⟩
    rw [pollSlices, hr', Option.map_some, h'.active_eq, List.length_range]
  · rw [pollSlices, (Polled.clear r).foldlM_eq_none frames (Nat.zero_le _)
      (by rw [List.length_nil]; omega)]
    rfl

/-- The lengths of the active slots are those of the clamped frames. -/
theorem Polled.lens_eq (h : Polled capacity slotSize frames r) (hle : frames.length ≤ capacity) :
    r.active.map r.slotLen = (frames.map (List.take slotSize)).map List.length := by
  rw [← h.slots_eq, List.map_map]
  refine List.map_congr_left fun i hi => ?_
  rw [h.active_eq, List.mem_range] at hi
  exact (r.length_slot (by rw [h.capacity_eq]; omega)).symm

end SliceRing

/-- `process_batch_slices`, on the frames that `poll` returned; `none` is a panic. -/
def Forwarder.processBatchSlices (f : Forwarder) (g : Telemetry) (ring : SliceRing)
    (frames : List Bytes) : Option (BatchRun × SliceRing) := do
  let (received, ring) ← ring.pollSlices frames
  let active := ring.active.take received
  if received = 0 then
    let f := { f with arena := f.arena.clear, offsets := [] }
    some (f.idle g, ring)
  else
    let slots := active.map ring.slot
    let s := slots.foldl (serialStep f.routes f.session)
      (f.startBatch received ((active.map ring.slotLen).sum + received * tagSize))
    let s := s.meter fun m => { m with handleCount := m.handleCount + received }
    some (f.finish (g.apply s.metrics) s, ring)

end SmipMwp.Datapath
