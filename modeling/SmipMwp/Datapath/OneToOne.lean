import SmipMwp.Datapath.Paths

/-!
# One output per input

On the single-output paths a batch sends one packet for every frame, in order, from offset 0 to the
end of the arena without a gap, and packet `i` is a function of frame `i`, the routes and the
session (`processBatch_oneToOne`). A miss is never counted as encrypted.
-/

namespace SmipMwp.Datapath

open Crypto Routing

/-- The run sent the packets `packets`, one for each of the `received` frames, and its statistics
agree. -/
structure BatchRun.OneToOne (r : BatchRun) (received : ℕ) (packets : List Bytes) : Prop where
  /-- The offsets passed to `send`: as many as frames, contiguous from 0 to the arena's length,
  each in bounds of the buffer, and cutting the buffer into the packets. -/
  sent : ∃ buf offs, r.sent = some (buf, offs) ∧ offs.length = received ∧
    Contiguous 0 offs r.forwarder.arena.len ∧ (∀ o ∈ offs, o.1 + o.2 ≤ buf.length) ∧
    cut buf offs = packets
  received_eq : r.stats.received = received
  counted : r.stats.encrypted + r.stats.forwarded = received
  misses_le : r.stats.routeMisses ≤ r.stats.forwarded

/-! ## The statistics of a list of emissions -/

section Tally

variable (received : ℕ) (es : List Emission)

theorem tally_encrypted_add_forwarded :
    (ForwarderStats.tally { received } es).encrypted +
      (ForwarderStats.tally { received } es).forwarded = es.length := by
  have := List.length_eq_countP_add_countP (·.encrypted) (l := es)
  simp only [ForwarderStats.tally, Nat.zero_add]
  simpa using this.symm

theorem tally_routeMisses_le {es : List Emission} (h : ∀ e ∈ es, e.miss → e.encrypted = false) :
    (ForwarderStats.tally { received } es).routeMisses ≤
      (ForwarderStats.tally { received } es).forwarded := by
  simp only [ForwarderStats.tally, Nat.zero_add]
  exact List.countP_mono_left fun e he hm => by rw [h e he hm]; rfl

end Tally

/-- A miss is not encrypted. -/
theorem emission_miss (l : Layout) (routes : Table) (session : Option HybridSession)
    (frame p : Bytes) (h : (emission l routes session frame p).miss) :
    (emission l routes session frame p).encrypted = false := by
  rcases emission_cases l routes session frame p with ⟨-, miss, he⟩ | ⟨-, -, he⟩ |
    ⟨-, S, ct, tag, -, -, -, -, he⟩ <;> rw [he] at h ⊢
  · rfl
  · rfl
  · cases h

theorem primaryEmission_miss (routes : Table) (session : Option HybridSession) (frame : Bytes)
    (h : (primaryEmission routes session frame).miss) :
    (primaryEmission routes session frame).encrypted = false := by
  rcases primaryEmission_cases routes session frame with ⟨-, bytes, miss, -, he⟩ |
    ⟨-, nh, S, ct, tag, -, -, -, -, he⟩ <;> rw [he] at h ⊢
  · rfl
  · cases h

/-! ## Runs that send one emission per frame -/

/-- A run that sends `em p` for each frame `p` sends one packet per frame. -/
theorem BatchRun.Sends.oneToOne {r : BatchRun} {cap : ℕ} {frames : List Bytes}
    {em : Bytes → Emission} (h : r.Sends frames.length cap (frames.map em))
    (hmiss : ∀ p, (em p).miss → (em p).encrypted = false) :
    r.OneToOne frames.length (frames.map fun p => (em p).bytes) := by
  have hcontig := contiguous_offsetsFrom 0 ((frames.map em).map Emission.bytes)
  rw [Nat.zero_add] at hcontig
  refine ⟨⟨_, _, h.sent, ?_, ?_, hcontig.inBounds, ?_⟩, ?_, ?_, ?_⟩
  · rw [length_offsetsOf, List.length_map]
  · rwa [h.len]
  · exact (cut_offsetsFrom [] ((frames.map em).map Emission.bytes)).trans List.map_map
  · rw [h.stats]
    rfl
  · rw [h.stats, tally_encrypted_add_forwarded, List.length_map]
  · rw [h.stats]
    refine tally_routeMisses_le _ fun e he hm => ?_
    obtain ⟨p, -, rfl⟩ := List.mem_map.mp he
    exact hmiss p hm

/-! ## The single-output paths -/

/-- What the serial paths make of a frame. -/
def serialPacket (routes : Table) (session : Option HybridSession) (p : Bytes) : Bytes :=
  (emission .serial routes session p p).bytes

/-- What the owned path makes of a frame. -/
def ownedPacket (routes : Table) (session : Option HybridSession) (p : Bytes) : Bytes :=
  (emission .owned routes session p p).bytes

/-- What the primary path makes of a frame. -/
def primaryPacket (routes : Table) (session : Option HybridSession) (p : Bytes) : Bytes :=
  (primaryEmission routes session p).bytes

namespace Forwarder

variable (f : Forwarder) (g : Telemetry)

theorem processSerial_oneToOne (frames : List Bytes) :
    (f.processSerial g frames).OneToOne frames.length
      (frames.map (serialPacket f.routes f.session)) := by
  have h := f.sends_processSerial g frames
  rw [flatMap_serialEmissions] at h
  exact h.oneToOne fun p => emission_miss _ _ _ p p

theorem processParallel_oneToOne (frames : List Bytes) :
    (f.processParallel g frames).OneToOne frames.length
      (frames.map (ownedPacket f.routes f.session)) := by
  have h := f.sends_processParallel g frames
  rw [flatMap_ownedEmissions] at h
  exact h.oneToOne fun p => emission_miss _ _ _ p p

theorem processPrimary_oneToOne (frames : List Bytes) :
    (f.processPrimary g (f.startMcr frames) frames).OneToOne frames.length
      (frames.map (primaryPacket f.routes f.session)) := by
  have h := f.sends_processPrimary g (f.fresh_startMcr frames) frames
  rw [flatMap_primaryEmissions] at h
  exact h.oneToOne (primaryEmission_miss _ _)

theorem processBatchSlices_oneToOne {ring : SliceRing} {frames : List Bytes}
    {r : BatchRun × SliceRing} (hne : frames ≠ [])
    (hr : f.processBatchSlices g ring frames = some r) :
    r.1.OneToOne frames.length
      (frames.map fun p => serialPacket f.routes f.session (p.take ring.slotSize)) := by
  rcases le_or_gt frames.length ring.capacity with hle | hgt
  · obtain ⟨r', hr', h⟩ := f.sends_processBatchSlices g hle hne
    obtain rfl : r' = r := Option.some.inj (hr'.symm.trans hr)
    rw [flatMap_serialEmissions] at h
    rw [← List.length_map (List.take ring.slotSize)] at h ⊢
    have h := h.oneToOne fun p => emission_miss _ _ _ p p
    rwa [List.map_map] at h
  · rw [f.processBatchSlices_eq_none g hgt] at hr
    cases hr

end Forwarder

/-- **One output per input, in order**, on the serial and the rayon branch of `process_batch`, in
primary mode and on the slice path: for each of them one function of the routes, the session and
the frame gives the packets of every non-empty batch, whatever the state of the forwarder. The slice
path clamps the frames to the slot size, and panics only if the ring has fewer slots than there are
frames. -/
theorem processBatch_oneToOne (f : Forwarder) (g : Telemetry) (threads : ℕ) (frames : List Bytes)
    (hne : frames ≠ []) :
    (f.mcrEnabled = false → frames.length < parallelBatchThreshold ∨ threads ≤ 1 →
      (f.processBatch g threads frames).OneToOne frames.length
        (frames.map (serialPacket f.routes f.session))) ∧
    (f.mcrEnabled = false → ¬ (frames.length < parallelBatchThreshold ∨ threads ≤ 1) →
      (f.processBatch g threads frames).OneToOne frames.length
        (frames.map (ownedPacket f.routes f.session))) ∧
    (f.mcrSprayMode ≠ "full" →
      (f.processBatchMcr g threads frames).OneToOne frames.length
        (frames.map (primaryPacket f.routes f.session))) ∧
    ∀ ring : SliceRing,
      (frames.length ≤ ring.capacity → (f.processBatchSlices g ring frames).isSome) ∧
      ∀ r, f.processBatchSlices g ring frames = some r →
        r.1.OneToOne frames.length
          (frames.map fun p => serialPacket f.routes f.session (p.take ring.slotSize)) := by
  have hempty : ¬ frames.isEmpty = true := by simpa using hne
  refine ⟨fun hmcr hser => ?_, fun hmcr hpar => ?_, fun hmode => ?_,
    fun ring => ⟨fun hle => ?_, ?_⟩⟩
  · rw [Forwarder.processBatch, if_neg (by simp [hmcr]), if_neg hempty, if_pos hser]
    exact f.processSerial_oneToOne g frames
  · rw [Forwarder.processBatch, if_neg (by simp [hmcr]), if_neg hempty, if_neg hpar]
    exact f.processParallel_oneToOne g frames
  · rw [Forwarder.processBatchMcr, if_neg hempty, if_pos hmode]
    exact f.processPrimary_oneToOne g frames
  · obtain ⟨r, hr, -⟩ := f.sends_processBatchSlices g hle hne
    rw [hr]
    rfl
  · exact fun r hr => f.processBatchSlices_oneToOne g hne hr

/-- Two packets that are encrypted and a frame without a header on the serial branch, in primary
mode and through a ring of four slots of 112 bytes, and more of them on two threads. -/
theorem processBatch_oneToOne_mixed :
    let f := zeroForwarder [Vector.replicate 32 2] false "primary"
    let frames := [zeroPacket [7], [1, 2, 3], zeroPacket []]
    let many := [1, 2, 3] :: List.replicate 1023 (zeroPacket [7])
    (f.processBatch {} 1 frames).OneToOne 3 (frames.map (serialPacket f.routes f.session)) ∧
    (f.processBatch {} 2 many).OneToOne 1024 (many.map (ownedPacket f.routes f.session)) ∧
    (f.processBatchMcr {} 1 frames).OneToOne 3
      (frames.map (primaryPacket f.routes f.session)) ∧
    ∃ r, f.processBatchSlices {} (.new 4 112) frames = some r ∧
      r.1.OneToOne 3 (frames.map fun p => serialPacket f.routes f.session (p.take 112)) := by
  intro f frames many
  have hmany : many.length = 1024 := by rw [List.length_cons, List.length_replicate]
  obtain ⟨hserial, -, hprimary, hslices⟩ :=
    processBatch_oneToOne f {} 1 frames (List.cons_ne_nil _ _)
  obtain ⟨-, hparallel, -⟩ := processBatch_oneToOne f {} 2 many (List.cons_ne_nil _ _)
  have hpar : ¬ (many.length < parallelBatchThreshold ∨ 2 ≤ 1) := by
    rw [hmany]
    decide
  refine ⟨hserial rfl (.inr le_rfl), ?_, hprimary (by decide), ?_⟩
  · have h := hparallel rfl hpar
    rwa [hmany] at h
  · obtain ⟨r, hr⟩ := Option.isSome_iff_exists.mp ((hslices (.new 4 112)).1 (by decide))
    exact ⟨r, hr, (hslices (.new 4 112)).2 r hr⟩

end SmipMwp.Datapath
