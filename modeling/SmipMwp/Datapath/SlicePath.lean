import SmipMwp.Datapath.Paths

/-!
# The slice path and the owned path

With MCR disabled `process_batch_slices` does for a batch what `process_batch` does, as long as the
frames fit the slots and the ring has a slot for each, whatever it held before
(`processBatchSlices_eq_processBatch`).

A ring with fewer slots than frames is not allowed for: the poll limit is the constant 64, and the
assertion in `claim` fails after the frames have been polled. Nothing else in the slice path can
panic (`processBatchSlicesChecked_eq`), so it completes exactly when there are enough slots
(`processBatchSlices_completes_iff`).
-/

namespace SmipMwp.Datapath

open Crypto

/-! ## The bounds checks -/

namespace SliceRing

variable (r : SliceRing)

/-- `slot_len`. -/
def slotLenChecked (idx : ℕ) : Option ℕ := r.lens[idx]?

/-- `slot`. -/
def slotChecked (idx : ℕ) : Option Bytes :=
  let start := idx * r.slotSize
  r.lens[idx]?.bind fun len =>
    if start + len ≤ r.backing.length then some (slice r.backing start len) else none

/-- The loop body of `poll_slices`, with the range of `slot_mut`; the copy into the slot is not
longer than the frame or the slot, and the index of `set_len` is the one claimed. -/
def pollStepChecked (frame : Bytes) : Option SliceRing :=
  match h : r.claim with
  | none => none
  | some idx =>
    let start := idx * r.slotSize
    if start + r.slotSize ≤ r.backing.length then some (r.fill idx frame (r.claim_lt h)) else none

def pollSlicesChecked (frames : List Bytes) : Option (ℕ × SliceRing) :=
  (frames.foldlM pollStepChecked r.clear).map fun r => (r.active.length, r)

variable {r}

theorem slotLenChecked_eq {idx : ℕ} (h : idx < r.capacity) :
    r.slotLenChecked idx = some (r.slotLen idx) := by
  rw [slotLenChecked, slotLen, List.getD_eq_getElem?_getD, List.getElem?_eq_getElem h,
    Option.getD_some]

theorem slotChecked_eq {idx : ℕ} (h : idx < r.capacity) :
    r.slotChecked idx = some (r.slot idx) := by
  have hle := r.slot_le h
  have hlen := r.slotLen_le h
  have hget : r.lens[idx]? = some (r.slotLen idx) := slotLenChecked_eq h
  simp only [slotChecked, hget, Option.bind_some]
  exact if_pos (by omega)

theorem pollSlicesChecked_eq (frames : List Bytes) :
    r.pollSlicesChecked frames = r.pollSlices frames := by
  have hstep : pollStepChecked = pollStep := by
    funext r frame
    unfold pollStepChecked
    split
    · next hclaim => exact (pollStep_of_claim_eq_none hclaim frame).symm
    · next idx hclaim =>
      rw [pollStep_of_claim_eq_some hclaim frame]
      exact if_pos (r.slot_le (r.claim_lt hclaim))
  rw [pollSlicesChecked, hstep, pollSlices]

end SliceRing

/-- A loop of accesses that all succeed. -/
theorem mapM_eq_some {α β : Type*} {l : List α} {access : α → Option β} {value : α → β}
    (h : ∀ a ∈ l, access a = some (value a)) : l.mapM access = some (l.map value) := by
  induction l with
  | nil => rfl
  | cons a l ih =>
    obtain ⟨ha, hl⟩ := List.forall_mem_cons.mp h
    rw [List.mapM_cons, ha, ih hl]
    rfl

/-- `process_batch_slices` with its bounds checks. -/
def Forwarder.processBatchSlicesChecked (f : Forwarder) (g : Telemetry) (ring : SliceRing)
    (frames : List Bytes) : Option (BatchRun × SliceRing) := do
  let (received, ring) ← ring.pollSlicesChecked frames
  if received = 0 then
    let f := { f with arena := f.arena.clear, offsets := [] }
    some (f.idle g, ring)
  else
    let active ← checkedTake ring.active received
    let lens ← active.mapM ring.slotLenChecked
    let slots ← active.mapM ring.slotChecked
    let s := slots.foldl (serialStep f.routes f.session)
      (f.startBatch received (lens.sum + received * tagSize))
    let s := s.meter fun m => { m with handleCount := m.handleCount + received }
    some (f.finish (g.apply s.metrics) s, ring)

/-- **No index or range leaves the ring**: only the assertion can fail. -/
theorem Forwarder.processBatchSlicesChecked_eq (f : Forwarder) (g : Telemetry) (ring : SliceRing)
    (frames : List Bytes) :
    f.processBatchSlicesChecked g ring frames = f.processBatchSlices g ring frames := by
  rw [processBatchSlicesChecked, processBatchSlices, SliceRing.pollSlicesChecked_eq]
  have hpoll := ring.pollSlices_eq frames
  split_ifs at hpoll with hle
  · obtain ⟨ring', hpoll, hring⟩ := hpoll
    have hidx : ∀ idx ∈ ring'.active.take frames.length, idx < ring'.capacity := by
      intro idx hmem
      have hact := List.mem_of_mem_take hmem
      rw [hring.active_eq, List.mem_range] at hact
      rw [hring.capacity_eq]
      omega
    have htake : checkedTake ring'.active frames.length =
        some (ring'.active.take frames.length) :=
      checkedTake_of_le (by rw [hring.active_eq, List.length_range])
    have hlens := mapM_eq_some fun idx hmem => SliceRing.slotLenChecked_eq (hidx idx hmem)
    have hslots := mapM_eq_some fun idx hmem => SliceRing.slotChecked_eq (hidx idx hmem)
    simp only [hpoll, Option.bind_eq_bind, Option.bind_some, htake, hlens, hslots]
  · rw [hpoll]
    rfl

/-! ## The two paths -/

/-- **The slice path equals the owned path**: with MCR disabled, for fewer frames than go to the
thread pool, none of them longer than a slot, and a ring with a slot for each. It sends the same
buffer and offsets and returns the same statistics, and slot `i` of the ring holds frame `i`. -/
theorem processBatchSlices_eq_processBatch (f : Forwarder) (g : Telemetry) (threads : ℕ)
    {ring : SliceRing} {frames : List Bytes} (hmcr : f.mcrEnabled = false)
    (hfew : frames.length < parallelBatchThreshold)
    (hsize : ∀ frame ∈ frames, frame.length ≤ ring.slotSize)
    (hcap : frames.length ≤ ring.capacity) :
    ∃ r ring', f.processBatchSlices g ring frames = some (r, ring') ∧
      r.sent = (f.processBatch g threads frames).sent ∧
      r.stats = (f.processBatch g threads frames).stats ∧
      ring.pollSlices frames = some (frames.length, ring') ∧
      ring'.active = List.range frames.length ∧
      ∀ i (hi : i < frames.length), ring'.slot i = frames[i] := by
  have hwhole : frames.map (List.take ring.slotSize) = frames := by
    conv_rhs => rw [← List.map_id frames]
    exact List.map_congr_left fun frame hmem => List.take_of_length_le (hsize frame hmem)
  have hslots : ∀ ring' : SliceRing,
      SliceRing.Polled ring.capacity ring.slotSize frames ring' →
      ∀ i (hi : i < frames.length), ring'.slot i = frames[i] := by
    intro ring' hring i hi
    have hget := congrArg (fun l : List Bytes => l[i]?) hring.slots_eq
    simpa [hwhole, hring.active_eq, hi] using hget
  by_cases hne : frames = []
  · subst hne
    refine ⟨_, _, f.processBatchSlices_nil g ring, ?_, ?_, rfl, rfl, fun i hi => ?_⟩
    · rw [Forwarder.processBatch, hmcr]
      rfl
    · rw [Forwarder.processBatch, hmcr]
      rfl
    · exact absurd hi (Nat.not_lt_zero i)
  · obtain ⟨ring', hpoll, hring, hr⟩ := f.processBatchSlices_eq_some g hcap hne
    have howned : f.processBatch g threads frames = f.processSerial g frames := by
      have hempty : ¬ frames.isEmpty = true := by rwa [List.isEmpty_iff]
      rw [Forwarder.processBatch, hmcr, if_neg Bool.false_ne_true, if_neg hempty,
        if_pos (Or.inl hfew)]
    rw [hwhole] at hr
    exact ⟨_, ring', hr, by rw [howned], by rw [howned], hpoll, hring.active_eq, hslots ring' hring⟩

/-- A ring of two slots that held longer frames before. -/
def usedRing : SliceRing where
  backing := List.replicate 256 255
  slotSize := 128
  lens := [128, 128]
  active := [1, 0, 1]
  length_backing := List.length_replicate
  lens_le := by decide

theorem processBatchSlices_eq_processBatch_zeroPacket :
    ∃ r ring',
      (zeroForwarder [] false "primary").processBatchSlices {} usedRing [zeroPacket []] =
        some (r, ring') ∧
      r.sent = ((zeroForwarder [] false "primary").processBatch {} 1 [zeroPacket []]).sent ∧
      ring'.slot 0 = zeroPacket [] := by
  have hsize : ∀ frame ∈ [zeroPacket []], frame.length ≤ usedRing.slotSize := by
    intro frame hmem
    rw [List.mem_singleton.mp hmem, length_zeroPacket]
    decide
  obtain ⟨r, ring', hr, hsent, -, -, -, hslot⟩ :=
    processBatchSlices_eq_processBatch (zeroForwarder [] false "primary") {} 1 rfl (by decide)
      hsize (by decide)
  exact ⟨r, ring', hr, hsent, hslot 0 (by decide)⟩

/-! ## Completion -/

/-- **The slice path completes exactly when** the ring has a slot for every frame that the socket
returns. -/
theorem processBatchSlices_completes_iff (f : Forwarder) (g : Telemetry) (ring : SliceRing)
    (poll : ℕ → List Bytes) :
    (f.processBatchSlicesChecked g ring (poll 64)).isSome ↔ (poll 64).length ≤ ring.capacity := by
  rw [f.processBatchSlicesChecked_eq]
  constructor
  · intro hsome
    by_contra hgt
    rw [f.processBatchSlices_eq_none g (not_le.mp hgt)] at hsome
    cases hsome
  · intro hle
    by_cases hne : poll 64 = []
    · rw [hne]
      rfl
    · obtain ⟨ring', -, -, hr⟩ := f.processBatchSlices_eq_some g hle hne
      rw [hr]
      rfl

/-- A ring of one slot, and a socket that returns as many frames as it is asked for. -/
theorem processBatchSlices_not_completes :
    ¬ ∀ (f : Forwarder) (g : Telemetry) (ring : SliceRing) (poll : ℕ → List Bytes),
      0 < ring.capacity → (∀ max, (poll max).length ≤ max) →
      (f.processBatchSlicesChecked g ring (poll 64)).isSome := by
  intro h
  have hsome := h (zeroForwarder [] false "primary") {} (.new 1 16)
    (fun max => List.replicate max []) (by decide) (fun max => List.length_replicate.le)
  rw [Forwarder.processBatchSlicesChecked_eq, Forwarder.processBatchSlices_eq_none _ _ (by decide)]
    at hsome
  cases hsome

end SmipMwp.Datapath
