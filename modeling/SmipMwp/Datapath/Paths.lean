import SmipMwp.Datapath.McrSteps
import SmipMwp.Datapath.SliceRing

/-!
# What each path sends

`BatchRun.Sends` says of a run that it handed a list of emissions to the socket: their bytes one
after another, the offsets to match, the statistics, the session calls and the records they amount
to, and arena calls that reach no further than their bytes. Each processing path sends the
concatenation of what it emits for its frames, from any earlier state of the forwarder. Every
result about a whole batch starts from one of these.
-/

namespace SmipMwp.Datapath

open Crypto Routing

/-- The run received `received` frames into an arena of capacity `cap` and sent `es`. -/
structure BatchRun.Sends (r : BatchRun) (received cap : ℕ) (es : List Emission) : Prop where
  sent : r.sent = some (payloadsOf es, offsetsOf 0 es)
  len : r.forwarder.arena.len = (payloadsOf es).length
  stats : r.stats = ForwarderStats.tally { received } es
  seals : r.trace.seals = es.filterMap Emission.sealed
  outputs : r.trace.outputs = recordsOf 0 es
  calls : Reach cap 0 (payloadsOf es).length r.trace.calls

/-- A batch about to start: nothing written, pushed, counted or recorded. -/
structure Batch.Fresh (s : Batch) (received : ℕ) : Prop where
  len : s.arena.len = 0
  offsets : s.offsets = []
  stats : s.stats = { received }
  trace : s.trace = {}

variable {s t : Batch} {received : ℕ} {es : List Emission}

/-- What a batch has emitted when it finishes is what it sends. -/
theorem Emits.finish (h : Emits s t es) (hs : s.Fresh received) (f : Forwarder) (g : Telemetry) :
    (f.finish g t).Sends received s.arena.cap es := by
  have hlen : t.arena.len = (payloadsOf es).length := by rw [h.len_eq, hs.len, Nat.zero_add]
  have hbytes : s.arena.asSlice = [] := by
    rw [← List.length_eq_zero_iff, AlignedBuffer.length_asSlice, hs.len]
  refine ⟨?_, hlen, ?_, ?_, ?_, ?_⟩
  · simp only [Forwarder.finish, h.bytes, h.offsets, hbytes, hs.offsets, hs.len, List.nil_append]
  · simp only [Forwarder.finish, h.stats, hs.stats]
  · simp only [Forwarder.finish, h.seals, hs.trace, List.nil_append]
  · simp only [Forwarder.finish, h.outputs, hs.trace, hs.len, List.nil_append]
  · obtain ⟨cs, hcs, hr⟩ := h.calls
    rw [hs.len, hlen] at hr
    simpa only [Forwarder.finish, hcs, hs.trace, List.nil_append] using hr

namespace Forwarder

variable (f : Forwarder) (g : Telemetry)

theorem fresh_startBatch (received additional : ℕ) :
    (f.startBatch received additional).Fresh received :=
  ⟨by simp [startBatch], rfl, rfl, rfl⟩

/-- **The serial branch of `process_batch`.** -/
theorem sends_processSerial (frames : List Bytes) :
    (f.processSerial g frames).Sends frames.length
      (f.startBatch frames.length (batchBytes frames)).arena.cap
      (frames.flatMap (serialEmissions f.routes f.session)) :=
  ((Emits.foldl (emits_serialStep f.routes f.session) frames _).meter _).finish
    (f.fresh_startBatch _ _) f _

/-- The append loop emits the outputs it is given. -/
theorem emits_appendOutputs (es : List Emission) (s : Batch) :
    Emits s ((es.map Emission.output).foldl appendStep s) es := by
  have hstep : ∀ s (e : Emission), Emits s (appendStep s e.output) ((fun e => [e]) e) :=
    emits_appendStep
  have h := Emits.foldl hstep es s
  rwa [List.flatMap_singleton', ← List.foldl_map] at h

theorem sum_output_lengths (es : List Emission) :
    ((es.map Emission.output).map fun o => o.2.1.bytes.length).sum = (payloadsOf es).length := by
  rw [List.map_map, payloadsOf, List.length_flatten, List.map_map]
  rfl

theorem map_processPacketOwned (routes : Table) (session : Option HybridSession)
    (frames : List Bytes) :
    frames.map (fun p => (p, processPacketOwned p routes session)) =
      (frames.flatMap (ownedEmissions routes session)).map Emission.output := by
  rw [flatMap_ownedEmissions, List.map_map]
  exact List.map_congr_left fun p _ => processPacketOwned_eq routes session p p

/-- **The rayon branch of `process_batch`.** -/
theorem sends_processParallel (frames : List Bytes) :
    (f.processParallel g frames).Sends frames.length
      (f.startBatch frames.length
        (payloadsOf (frames.flatMap (ownedEmissions f.routes f.session))).length).arena.cap
      (frames.flatMap (ownedEmissions f.routes f.session)) := by
  simp only [processParallel, appendOutputs, map_processPacketOwned, sum_output_lengths]
  exact (emits_appendOutputs _ _).finish (f.fresh_startBatch _ _) f _

/-- **The primary branch of `process_batch_mcr`.** -/
theorem sends_processPrimary {s : Batch} {received : ℕ} (hs : s.Fresh received)
    (frames : List Bytes) :
    (f.processPrimary g s frames).Sends received s.arena.cap
      (frames.flatMap (primaryEmissions f.routes f.session)) :=
  ((Emits.foldl (emits_primaryStep f.routes f.session) frames s).meter _).finish hs _ _

/-- **The serial full-spray branch.** -/
theorem sends_processSpraySerial {s : Batch} {received : ℕ} (hs : s.Fresh received)
    (frames : List Bytes) :
    (f.processSpraySerial g s frames).Sends received s.arena.cap
      (frames.flatMap (sprayEmissions f.routes f.session)) :=
  ((Emits.foldl (emits_sprayStep f.routes f.session) frames s).meter _).finish hs _ _

/-- **The parallel full-spray branch.** -/
theorem sends_processSprayParallel {s : Batch} {received : ℕ} (hs : s.Fresh received)
    (frames : List Bytes) :
    (f.processSprayParallel g s frames).Sends received
      (s.arena.reserve
        (payloadsOf (frames.flatMap (sprayOwnedEmissions f.routes f.session))).length).cap
      (frames.flatMap (sprayOwnedEmissions f.routes f.session)) := by
  have hout : ((frames.flatMap fun pkt => (duplicate f.routes pkt).map fun copy => (pkt, copy)).map
      fun d => (d.1, processPacketOwnedConsuming d.2 f.routes f.session)) =
      (frames.flatMap (sprayOwnedEmissions f.routes f.session)).map Emission.output := by
    simp only [List.map_flatMap, List.map_map, sprayOwnedEmissions, processPacketOwnedConsuming,
      Function.comp_def, processPacketOwned_eq]
  simp only [processSprayParallel, hout, sum_output_lengths]
  generalize frames.flatMap (sprayOwnedEmissions f.routes f.session) = es
  have hs' : Batch.Fresh { s with arena := s.arena.reserve (payloadsOf es).length } received :=
    { hs with len := by simpa using hs.len }
  exact (emits_appendOutputs es _).finish hs' _ _

/-- **The slice path**, on frames that the ring has slots for: it is the serial branch on the
clamped frames, and leaves them in the ring. -/
theorem processBatchSlices_eq_some {ring : SliceRing} {frames : List Bytes}
    (hle : frames.length ≤ ring.capacity) (hne : frames ≠ []) :
    ∃ ring', ring.pollSlices frames = some (frames.length, ring') ∧
      SliceRing.Polled ring.capacity ring.slotSize frames ring' ∧
      f.processBatchSlices g ring frames =
        some (f.processSerial g (frames.map (List.take ring.slotSize)), ring') := by
  have hpoll := ring.pollSlices_eq frames
  rw [if_pos hle] at hpoll
  obtain ⟨ring', hpoll, hring⟩ := hpoll
  have hpos : frames.length ≠ 0 := fun h => hne (List.length_eq_zero_iff.mp h)
  have hact : ring'.active.take frames.length = ring'.active :=
    List.take_of_length_le (by rw [hring.active_eq, List.length_range])
  have hbytes : (ring'.active.map ring'.slotLen).sum + frames.length * tagSize =
      batchBytes (frames.map (List.take ring.slotSize)) := by
    rw [hring.lens_eq hle, batchBytes, List.length_map]
  refine ⟨ring', hpoll, hring, ?_⟩
  simp only [processBatchSlices, hpoll, Option.bind_eq_bind, Option.bind_some, hact, hbytes, hpos,
    hring.slots_eq, if_false, processSerial, List.length_map]

/-- It sends what the serial branch sends for the clamped frames. -/
theorem sends_processBatchSlices {ring : SliceRing} {frames : List Bytes}
    (hle : frames.length ≤ ring.capacity) (hne : frames ≠ []) :
    ∃ r, f.processBatchSlices g ring frames = some r ∧ r.1.Sends frames.length
      (f.startBatch frames.length (batchBytes (frames.map (List.take ring.slotSize)))).arena.cap
      ((frames.map (List.take ring.slotSize)).flatMap (serialEmissions f.routes f.session)) := by
  obtain ⟨ring', -, -, hr⟩ := f.processBatchSlices_eq_some g hle hne
  have hsends := f.sends_processSerial g (frames.map (List.take ring.slotSize))
  rw [List.length_map] at hsends
  exact ⟨_, hr, hsends⟩

/-- An empty poll leaves the slice path idle. -/
theorem processBatchSlices_nil (ring : SliceRing) :
    f.processBatchSlices g ring [] =
      some (({ f with arena := f.arena.clear, offsets := [] } : Forwarder).idle g, ring.clear) :=
  rfl

/-- The slice path panics on more frames than the ring has slots for. -/
theorem processBatchSlices_eq_none {ring : SliceRing} {frames : List Bytes}
    (hgt : ring.capacity < frames.length) : f.processBatchSlices g ring frames = none := by
  have hpoll := ring.pollSlices_eq frames
  rw [if_neg (not_le.mpr hgt)] at hpoll
  rw [processBatchSlices, hpoll]
  rfl

/-! ## Entry points -/

theorem fresh_startMcr (frames : List Bytes) : (f.startMcr frames).Fresh frames.length :=
  f.fresh_startBatch _ _

end Forwarder

end SmipMwp.Datapath
