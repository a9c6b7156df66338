import SmipMwp.Datapath.Batch
import SmipMwp.Routing.Table

/-!
# The forwarder

The five packet-processing paths of `Forwarder`: the serial and the parallel branch of
`process_batch`, and the primary, serial full-spray and parallel full-spray branches of
`process_batch_mcr`. A batch is the list of frames that `sock.poll(64)` returned; what a run hands
to `sock.send` is in `BatchRun.sent`. The number of rayon threads is a parameter, a parallel map
is a map. Route lookups are those of the forwarder's one table: `Routing/Isolation.lean` shows that,
up to `2 ^ 64 - 2` updates, the caches of a thread answer what these do.
-/

namespace SmipMwp.Datapath

open Crypto Routing Wire

def parallelBatchThreshold : ℕ := 1024

/-! ## Serial processing: `handle_packet` -/

/-- The lookups of `handle_packet`: exact, then predictive, a miss counted if both fail. -/
def lookupRoute (routes : Table) (s : Batch) (h : HeaderViewRef) : Batch × Bool :=
  let s := s.meter fun m => { m with lookupCalls := m.lookupCalls + 1 }
  if (routes.lookupNextHop h.dstId h.flowLabel).isSome then
    (s.meter fun m => { m with lookupHits := m.lookupHits + 1 }, true)
  else
    let s := s.meter fun m => { m with predictCalls := m.predictCalls + 1 }
    if (routes.lookupPredictiveFallback h.srcId h.dstId h.flowLabel).isSome then
      (s.meter fun m => { m with predictHits := m.predictHits + 1 }, true)
    else (s.countMiss, false)

/-- `handle_packet`; the Boolean says whether an output was pushed. -/
def handlePacket (routes : Table) (session : Option HybridSession) (s : Batch) (pkt : Bytes) :
    Batch × Bool :=
  match HeaderViewRef.new pkt with
  | .error _ => (s, false)
  | .ok h =>
    match lookupRoute routes s h, session with
    | (s, true), some session =>
      let payloadLen := h.length.toNat
      if headerSize + payloadLen ≤ pkt.length ∧ 0 < payloadLen then
        let start := s.arena.len
        let s := s.append (pkt.take (headerSize + payloadLen))
        match s.sealAt session (start + headerSize) payloadLen h.seqNum with
        | (s, .ok tag) =>
          let s := s.meter fun m => { m with encryptCount := m.encryptCount + 1 }
          let s := s.appendTag tag
          (s.pushEncrypted pkt start (s.arena.len - start), true)
        | (s, .error _) => ((s.truncate start).countMiss, false)
      else if 0 < payloadLen then (s.countMiss, false)
      else (s, false)
    | (s, _), _ => (s, false)

/-- The frame as it is, appended and pushed. -/
def forwardWhole (s : Batch) (pkt : Bytes) : Batch :=
  let start := s.arena.len
  let s := s.append pkt
  s.pushForwarded pkt start (s.arena.len - start)

/-- The loop body of the serial branch of `process_batch`. -/
def serialStep (routes : Table) (session : Option HybridSession) (s : Batch) (pkt : Bytes) :
    Batch :=
  match handlePacket routes session s pkt with
  | (s, true) => s
  | (s, false) => forwardWhole s pkt

/-! ## Owned processing: `process_packet_owned` -/

structure PacketOutput where
  bytes : Bytes
  encrypted : Bool
  routeMiss : Bool
  deriving DecidableEq

/-- `encrypt_packet_owned`: in-place encryption of an owned frame, grown to make room for the tag,
and the session calls made. -/
def encryptPacketOwned (pkt : Bytes) (seqNum : UInt64) (payloadLen : ℕ)
    (session : Option HybridSession) : PacketOutput × List SealCall :=
  match session with
  | some session =>
    if headerSize + payloadLen ≤ pkt.length ∧ 0 < payloadLen then
      let targetLen := headerSize + payloadLen + tagSize
      let pkt := if pkt.length < targetLen then resize pkt targetLen 0 else pkt
      match sealRecorded session (slice pkt headerSize payloadLen) seqNum with
      | (.ok (ct, tag), seals) =>
        let pkt := overwrite pkt headerSize ct
        (⟨overwrite pkt (headerSize + payloadLen) tag.toList, true, false⟩, seals)
      | (.error _, seals) => (⟨pkt, false, true⟩, seals)
    else if 0 < payloadLen then (⟨pkt, false, true⟩, [])
    else (⟨pkt, false, false⟩, [])
  | none => (⟨pkt, false, false⟩, [])

def processPacketOwned (pkt : Bytes) (routes : Table) (session : Option HybridSession) :
    PacketOutput × List SealCall :=
  match HeaderViewRef.new pkt with
  | .error _ => (⟨pkt, false, false⟩, [])
  | .ok h =>
    if (routes.lookupOrPredict h.srcId h.dstId h.flowLabel).isSome then
      encryptPacketOwned pkt h.seqNum h.length.toNat session
    else (⟨pkt, false, true⟩, [])

/-- `process_packet_owned_consuming` repeats `process_packet_owned`, with the body of
`encrypt_packet_owned` inline. -/
def processPacketOwnedConsuming (pkt : Bytes) (routes : Table) (session : Option HybridSession) :
    PacketOutput × List SealCall :=
  processPacketOwned pkt routes session

/-- The loop body of `append_outputs`, and of the append loop after the parallel full spray. -/
def appendStep (s : Batch) (out : Bytes × PacketOutput × List SealCall) : Batch :=
  let (frame, output, seals) := out
  let start := s.arena.len
  let s := s.append output.bytes
  let len := s.arena.len - start
  let s := { s with trace.seals := s.trace.seals ++ seals }
  let s := if output.encrypted then
      (s.pushEncrypted frame start len).meter fun m =>
        { m with localEncCount := m.localEncCount + 1 }
    else s.pushForwarded frame start len
  if output.routeMiss then s.countMiss else s

/-! ## MCR primary mode -/

/-- The loop body of the primary branch of `process_batch_mcr`. -/
def primaryStep (routes : Table) (session : Option HybridSession) (s : Batch) (pkt : Bytes) :
    Batch :=
  match HeaderViewRef.new pkt with
  | .error _ => (forwardWhole s pkt).countMiss
  | .ok h =>
    let s := s.meter fun m => { m with lookupCalls := m.lookupCalls + 1 }
    match routes.lookupSprayPrimary h.dstId h.flowLabel with
    | none => (forwardWhole s pkt).countMiss
    | some nextHop =>
      let s := s.meter fun m => { m with lookupHits := m.lookupHits + 1 }
      let payloadLen := h.length.toNat
      let start := s.arena.len
      -- the batch, `was_encrypted` and `was_route_miss`
      let (s, wasEncrypted, wasRouteMiss) :=
        if headerSize + payloadLen ≤ pkt.length ∧ 0 < payloadLen then
          let s := s.append (pkt.take (headerSize + payloadLen))
          let s := s.writeId (start + 32) nextHop
          match session with
          | some session =>
            match s.sealAt session (start + headerSize) payloadLen h.seqNum with
            | (s, .ok tag) =>
              let s := s.meter fun m => { m with encryptCount := m.encryptCount + 1 }
              let s := s.appendTag tag
              let s := if headerSize + payloadLen < pkt.length then
                  s.append (pkt.drop (headerSize + payloadLen)) else s
              (s, true, false)
            | (s, .error _) => (s, false, true)
          | none => (s, false, false)
        else
          let s := s.append (pkt.take headerSize)
          let s := s.writeId (start + 32) nextHop
          (s, false, decide (0 < payloadLen))
      if wasRouteMiss then
        let s := (s.truncate start).countMiss
        let fStart := s.arena.len
        let s := s.append pkt
        let s := s.writeId (fStart + 32) nextHop
        s.pushForwarded pkt fStart (s.arena.len - fStart)
      else
        let len := s.arena.len - start
        if wasEncrypted then s.pushEncrypted pkt start len else s.pushForwarded pkt start len

/-! ## MCR full spray -/

/-- The stack buffer of `lookup_spray_buf`. -/
def channelsBuf : List (Id × Bool) := List.replicate 16 (Vector.replicate 32 0, false)

/-- The channels written, `&channels_buf[..ch_count]`. -/
def sprayChannels (routes : Table) (dstId : Id) (flowLabel : UInt32) : List Id :=
  let (buf, chCount) := routes.lookupSprayBuf dstId flowLabel channelsBuf
  (buf.take chCount).map Prod.fst

/-- Rewrites the destination of the copy at `start` to the channel, if there is one. -/
def redirect (nh : Option Id) (start : ℕ) (s : Batch) : Batch :=
  match nh with
  | some nh => s.writeId (start + 32) nh
  | none => s

/-- The hit counted for a frame without channels; with channels it has been counted before. -/
def countHit (nh : Option Id) (s : Batch) : Batch :=
  match nh with
  | some _ => s
  | none => s.meter fun m => { m with lookupHits := m.lookupHits + 1 }

/-- One output of the serial full spray: a copy for the channel `nh`, or the frame itself when its
destination has no channels. -/
def sprayCopy (routes : Table) (session : Option HybridSession) (h : HeaderViewRef) (pkt : Bytes)
    (s : Batch) (nh : Option Id) : Batch :=
  let start := s.arena.len
  let payloadLen := h.length.toNat
  let (s, wasEncrypted, wasRouteMiss) :=
    if (routes.lookupOrPredict h.srcId (nh.getD h.dstId) h.flowLabel).isSome then
      let s := countHit nh s
      match session with
      | some session =>
        if headerSize + payloadLen ≤ pkt.length ∧ 0 < payloadLen then
          let s := redirect nh start (s.append (pkt.take (headerSize + payloadLen)))
          match s.sealAt session (start + headerSize) payloadLen h.seqNum with
          | (s, .ok tag) =>
            let s := s.meter fun m => { m with localEncCount := m.localEncCount + 1 }
            let s := s.appendTag tag
            let s := if headerSize + payloadLen < pkt.length then
                s.append (pkt.drop (headerSize + payloadLen)) else s
            (s, true, false)
          | (s, .error _) => (redirect nh start ((s.truncate start).append pkt), false, true)
        else (redirect nh start (s.append pkt), false, decide (0 < payloadLen))
      | none => (redirect nh start (s.append pkt), false, false)
    else (redirect nh start (s.append pkt), false, true)
  let len := s.arena.len - start
  let s := if wasEncrypted then s.pushEncrypted pkt start len else s.pushForwarded pkt start len
  if wasRouteMiss then s.countMiss else s

/-- The loop body of the serial full-spray branch. -/
def sprayStep (routes : Table) (session : Option HybridSession) (s : Batch) (pkt : Bytes) :
    Batch :=
  match HeaderViewRef.new pkt with
  | .error _ => (forwardWhole s pkt).countMiss
  | .ok h =>
    let s := s.meter fun m => { m with lookupCalls := m.lookupCalls + 1 }
    let channels := sprayChannels routes h.dstId h.flowLabel
    if channels.isEmpty then sprayCopy routes session h pkt s none
    else
      let s := s.meter fun m => { m with lookupHits := m.lookupHits + 1 }
      (channels.map some).foldl (sprayCopy routes session h pkt) s

/-- The copies the parallel full spray makes of a frame before processing them. -/
def duplicate (routes : Table) (pkt : Bytes) : List Bytes :=
  match HeaderViewRef.new pkt with
  | .error _ => [pkt]
  | .ok h =>
    let channels := sprayChannels routes h.dstId h.flowLabel
    if channels.isEmpty then [pkt]
    else channels.map fun nh => overwrite pkt 32 nh.toList

/-! ## The batches -/

/-- The process-wide counters. -/
structure Telemetry where
  packetsProcessed : UInt64 := 0
  handleCount : UInt64 := 0
  encryptCount : UInt64 := 0
  appendCount : UInt64 := 0
  lookupNextHopCalls : UInt64 := 0
  lookupNextHopHits : UInt64 := 0
  lookupPredictCalls : UInt64 := 0
  lookupPredictHits : UInt64 := 0

namespace Telemetry

variable (g : Telemetry)

/-- `LocalMetrics::apply`; the source skips the additions of zero. -/
def apply (m : LocalMetrics) : Telemetry :=
  { g with
    handleCount := g.handleCount + UInt64.ofNat m.handleCount
    encryptCount := g.encryptCount + UInt64.ofNat m.encryptCount
    lookupNextHopCalls := g.lookupNextHopCalls + UInt64.ofNat m.lookupCalls
    lookupNextHopHits := g.lookupNextHopHits + UInt64.ofNat m.lookupHits
    lookupPredictCalls := g.lookupPredictCalls + UInt64.ofNat m.predictCalls
    lookupPredictHits := g.lookupPredictHits + UInt64.ofNat m.predictHits }

def addHandled (n : ℕ) : Telemetry := { g with handleCount := g.handleCount + UInt64.ofNat n }

def addEncrypted (n : ℕ) : Telemetry := { g with encryptCount := g.encryptCount + UInt64.ofNat n }

def addAppend (profileEnabled : Bool) : Telemetry :=
  if profileEnabled then { g with appendCount := g.appendCount + 1 } else g

def addProcessed (n : ℕ) : Telemetry :=
  { g with packetsProcessed := g.packetsProcessed + UInt64.ofNat n }

end Telemetry

structure Forwarder where
  routes : Table
  session : Option HybridSession
  arena : AlignedBuffer
  offsets : List (ℕ × ℕ)
  mcrForwarded : UInt64
  mcrDropped : UInt64
  mcrEnabled : Bool
  mcrSprayMode : String
  profileEnabled : Bool

/-- `Forwarder::with_session`, with the session it derives and the configuration it reads. -/
def Forwarder.withSession (routes : Table) (session : Option HybridSession) (mcrEnabled : Bool)
    (mcrSprayMode : String) (profileEnabled : Bool) : Forwarder where
  routes := routes
  session := session
  arena := .withCapacity 262144
  offsets := []
  mcrForwarded := 0
  mcrDropped := 0
  mcrEnabled := mcrEnabled
  mcrSprayMode := mcrSprayMode
  profileEnabled := profileEnabled

/-- What one call of a processing entry point leaves: the forwarder and the counters, the buffer
and offsets passed to `sock.send` if it was called, the statistics returned and the trace. -/
structure BatchRun where
  forwarder : Forwarder
  telemetry : Telemetry
  sent : Option (Bytes × List (ℕ × ℕ))
  stats : ForwarderStats
  trace : Trace

namespace Forwarder

variable (f : Forwarder) (g : Telemetry)

/-- The return on an empty poll. -/
def idle : BatchRun where
  forwarder := f
  telemetry := g
  sent := none
  stats := {}
  trace := {}

/-- The batch sent and returned. -/
def finish (s : Batch) : BatchRun where
  forwarder := { f with arena := s.arena, offsets := s.offsets }
  telemetry := g.addProcessed s.stats.received
  sent := some (s.arena.asSlice, s.offsets)
  stats := s.stats
  trace := s.trace

/-- `mcr_forwarded` and `mcr_dropped` after a batch with the given statistics. -/
def countMcr (stats : ForwarderStats) : Forwarder :=
  { f with
    mcrForwarded := f.mcrForwarded + UInt64.ofNat stats.forwarded
    mcrDropped := f.mcrDropped + UInt64.ofNat stats.routeMisses }

/-- The bytes of all frames, and a tag for each. -/
def batchBytes (frames : List Bytes) : ℕ :=
  (frames.map List.length).sum + frames.length * tagSize

/-- An emptied arena with `additional` bytes reserved, and no offsets. -/
def startBatch (received additional : ℕ) : Batch where
  arena := f.arena.clear.reserve additional
  offsets := []
  stats := { received }

/-- The serial branch of `process_batch`. -/
def processSerial (frames : List Bytes) : BatchRun :=
  let s := frames.foldl (serialStep f.routes f.session)
    (f.startBatch frames.length (batchBytes frames))
  let s := s.meter fun m => { m with handleCount := m.handleCount + frames.length }
  f.finish (g.apply s.metrics) s

/-- `append_outputs`: the outputs of the parallel map, appended in order. -/
def appendOutputs (outputs : List (Bytes × PacketOutput × List SealCall)) (received : ℕ) :
    Batch × Telemetry :=
  let g := g.addHandled received
  let s := outputs.foldl appendStep
    (f.startBatch received (outputs.map fun o => o.2.1.bytes.length).sum)
  (s, ((g.apply s.metrics).addEncrypted s.metrics.localEncCount).addAppend f.profileEnabled)

/-- The rayon branch of `process_batch`. -/
def processParallel (frames : List Bytes) : BatchRun :=
  let outputs := frames.map fun pkt => (pkt, processPacketOwned pkt f.routes f.session)
  let (s, g) := f.appendOutputs g outputs frames.length
  f.finish (g.addHandled s.stats.received) s

/-- The primary branch of `process_batch_mcr`. -/
def processPrimary (s : Batch) (frames : List Bytes) : BatchRun :=
  let s := frames.foldl (primaryStep f.routes f.session) s
  let s := s.meter fun m => { m with handleCount := m.handleCount + frames.length }
  (f.countMcr s.stats).finish (g.apply s.metrics) s

/-- The serial full-spray branch of `process_batch_mcr`. -/
def processSpraySerial (s : Batch) (frames : List Bytes) : BatchRun :=
  let s := frames.foldl (sprayStep f.routes f.session) s
  let s := s.meter fun m => { m with handleCount := m.handleCount + frames.length }
  let g := (g.apply s.metrics).addEncrypted s.metrics.localEncCount
  (f.countMcr s.stats).finish (g.addHandled s.stats.received) s

/-- The parallel full-spray branch of `process_batch_mcr`. -/
def processSprayParallel (s : Batch) (frames : List Bytes) : BatchRun :=
  let duplicated := frames.flatMap fun pkt => (duplicate f.routes pkt).map fun copy => (pkt, copy)
  let outputs := duplicated.map fun d =>
    (d.1, processPacketOwnedConsuming d.2 f.routes f.session)
  let s := { s with arena := s.arena.reserve (outputs.map fun o => o.2.1.bytes.length).sum }
  let s := outputs.foldl appendStep s
  (f.countMcr s.stats).finish (g.addEncrypted s.metrics.localEncCount) s

/-- The multiplier of the reservation of `process_batch_mcr`. -/
def sprayMultiplier : ℕ := if f.mcrSprayMode = "full" then 3 else 1

/-- The arena and offsets at the top of `process_batch_mcr`, after its single reservation. -/
def startMcr (frames : List Bytes) : Batch :=
  f.startBatch frames.length (batchBytes frames * f.sprayMultiplier)

def processBatchMcr (threads : ℕ) (frames : List Bytes) : BatchRun :=
  if frames.isEmpty then f.idle g
  else if f.mcrSprayMode ≠ "full" then f.processPrimary g (f.startMcr frames) frames
  else if frames.length < parallelBatchThreshold ∨ threads ≤ 1 then
    f.processSpraySerial g (f.startMcr frames) frames
  else f.processSprayParallel g (f.startMcr frames) frames

def processBatch (threads : ℕ) (frames : List Bytes) : BatchRun :=
  if f.mcrEnabled then f.processBatchMcr g threads frames
  else if frames.isEmpty then f.idle g
  else if frames.length < parallelBatchThreshold ∨ threads ≤ 1 then f.processSerial g frames
  else f.processParallel g frames

def processBatchSprayFull (threads : ℕ) (frames : List Bytes) : BatchRun :=
  f.processBatchMcr g threads frames

end Forwarder

end SmipMwp.Datapath
