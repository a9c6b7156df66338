import SmipMwp.Crypto.Session
import SmipMwp.Datapath.AlignedBuffer
import SmipMwp.Foundations.Packing
import SmipMwp.Wire.Header

/-!
# The state of one batch

What the forwarder carries through the packet loop of a batch: the arena, the offsets, the
statistics and the local metrics. Beside them a `Trace` records the calls that the statements of
this development are about, and that the source makes but does not keep: the ranges of the
unchecked arena calls, the successful calls of the session, and for every offset pushed the frame
it came from and whether it was counted as encrypted.
-/

namespace SmipMwp.Datapath

open Crypto

structure ForwarderStats where
  received : ℕ := 0
  forwarded : ℕ := 0
  encrypted : ℕ := 0
  routeMisses : ℕ := 0
  deriving DecidableEq

/-- `LocalMetrics`, the counts. `localEncCount` is the encryption count that the full-spray and
append loops keep in a variable of their own. -/
structure LocalMetrics where
  handleCount : ℕ := 0
  encryptCount : ℕ := 0
  lookupCalls : ℕ := 0
  lookupHits : ℕ := 0
  predictCalls : ℕ := 0
  predictHits : ℕ := 0
  localEncCount : ℕ := 0
  deriving DecidableEq

/-! ## What is recorded -/

/-- The unchecked arena methods with a capacity precondition. -/
inductive CallKind
  | extendFromSlice
  | extendFromTag
  | asMutSliceAt
  deriving DecidableEq

/-- An unchecked call on the range `[start, start + len)` of an arena of capacity `cap`. -/
structure ArenaCall where
  kind : CallKind
  start : ℕ
  len : ℕ
  cap : ℕ
  deriving DecidableEq

namespace ArenaCall

/-- The end of the range. -/
def stop (c : ArenaCall) : ℕ := c.start + c.len

/-- The documented precondition of the call. -/
def InBounds (c : ArenaCall) : Prop := c.stop ≤ c.cap

/-- The call appends: `extend_from_slice_unchecked` or `extend_from_tag_unchecked`. -/
def IsAppend (c : ArenaCall) : Prop := c.kind ≠ .asMutSliceAt

end ArenaCall

/-- A successful `encrypt_into_slice`: the nonce built and the bytes encrypted. -/
structure SealCall where
  nonce : Nonce
  payload : Bytes
  deriving DecidableEq

/-- An offset pushed: the frame it came from, its range, and whether it was counted in
`stats.encrypted` (or else in `stats.forwarded`). -/
structure OutputRecord where
  frame : Bytes
  start : ℕ
  len : ℕ
  encrypted : Bool
  deriving DecidableEq

structure Trace where
  calls : List ArenaCall := []
  seals : List SealCall := []
  outputs : List OutputRecord := []

structure Batch where
  arena : AlignedBuffer
  offsets : List (ℕ × ℕ)
  stats : ForwarderStats
  metrics : LocalMetrics := {}
  trace : Trace := {}

/-! ## The operations of the packet loops -/

/-- `session.encrypt_into_slice`, with the successful call recorded. -/
def sealRecorded (session : HybridSession) (payload : Bytes) (seqNum : UInt64) :
    Except SessionError (Bytes × Tag) × List SealCall :=
  match session.encryptIntoSlice payload seqNum with
  | .ok r => (.ok r, [⟨session.buildNonce seqNum, payload⟩])
  | .error e => (.error e, [])

namespace Batch

variable (s : Batch)

/-- `extend_from_slice_unchecked`. -/
def append (src : Bytes) : Batch :=
  { s with
    arena := s.arena.extendFromSliceUnchecked src
    trace.calls := s.trace.calls ++ [⟨.extendFromSlice, s.arena.len, src.length, s.arena.cap⟩] }

/-- `extend_from_tag_unchecked`. -/
def appendTag (tag : Tag) : Batch :=
  { s with
    arena := s.arena.extendFromSliceUnchecked tag.toList
    trace.calls := s.trace.calls ++ [⟨.extendFromTag, s.arena.len, tagSize, s.arena.cap⟩] }

def truncate (len : ℕ) : Batch := { s with arena := s.arena.truncate len }

/-- `*(arena.as_mut_ptr().add(off) as *mut [u8; 32]) = id`. -/
def writeId (off : ℕ) (id : Wire.Id) : Batch := { s with arena := s.arena.store off id.toList }

/-- `session.encrypt_into_slice(arena.as_mut_slice_at_unchecked(start, len), seq_num)`. -/
def sealAt (session : HybridSession) (start len : ℕ) (seqNum : UInt64) :
    Batch × Except SessionError Tag :=
  let s := { s with trace.calls := s.trace.calls ++ [⟨.asMutSliceAt, start, len, s.arena.cap⟩] }
  match sealRecorded session (s.arena.load start len) seqNum with
  | (.ok (ct, tag), seals) =>
    ({ s with arena := s.arena.store start ct, trace.seals := s.trace.seals ++ seals }, .ok tag)
  | (.error e, _) => (s, .error e)

/-- `offsets.push((start, len))` for `frame`, counted in `stats.encrypted`. -/
def pushEncrypted (frame : Bytes) (start len : ℕ) : Batch :=
  { s with
    offsets := s.offsets ++ [(start, len)]
    stats.encrypted := s.stats.encrypted + 1
    trace.outputs := s.trace.outputs ++ [⟨frame, start, len, true⟩] }

/-- `offsets.push((start, len))` for `frame`, counted in `stats.forwarded`. -/
def pushForwarded (frame : Bytes) (start len : ℕ) : Batch :=
  { s with
    offsets := s.offsets ++ [(start, len)]
    stats.forwarded := s.stats.forwarded + 1
    trace.outputs := s.trace.outputs ++ [⟨frame, start, len, false⟩] }

/-- `stats.route_misses += 1`. -/
def countMiss : Batch := { s with stats.routeMisses := s.stats.routeMisses + 1 }

/-- A change of the local metrics only. -/
def meter (f : LocalMetrics → LocalMetrics) : Batch := { s with metrics := f s.metrics }

end Batch

end SmipMwp.Datapath
