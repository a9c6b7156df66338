import SmipMwp.Wire.Header
import Mathlib.Logic.Function.Basic
import Std.Data.TreeMap

/-!
# The routing table

A `Table` keeps its routes twice: in `fastShards`, sixteen hash maps that the exact lookups read,
and in `inner.entries`, the ordered map from which `predictiveNextHops` is rebuilt. An update
writes the two under separate locks, then the channel statistics; each of these lock-protected
steps is a function of its own here (`writeShard`, `writeMain`, `writeStats`), and `updateRoute`
and `removeRoute` run them in the order of the source.

The lookups of this module read the shards and the predictive list directly. The per-thread
caches in front of two of them are in `Routing/Cache.lean`; `Routing/Isolation.lean` shows that
they do not change the answers while a thread uses one table.
-/

namespace SmipMwp.Routing

open Wire (Id)

/-- `RouteEntry`, without the time it was last seen. -/
structure RouteEntry where
  destId : Id
  nextHopId : Id
  metric : Int32 := 1
  /-- The number of channels, as given; the lookups count the alternates. -/
  channelCount : UInt8 := 1
  /-- Alternative next hops for spraying. -/
  alternateChannels : List Id
  mcrEpoch : UInt64 := 1
  deriving DecidableEq

/-- The channels of a route: the next hop, then the alternates. -/
def RouteEntry.channels (e : RouteEntry) : List Id := e.nextHopId :: e.alternateChannels

/-- `ChannelStats`: per-next-hop forwarded counters and the drop counter. -/
structure ChannelStats where
  perChannelForwarded : Std.TreeMap Id UInt64 := {}
  packetsDropped : UInt64 := 0

structure TableInner where
  entries : Std.TreeMap Id RouteEntry
  predictiveNextHops : List Id

def fastShardCount : ℕ := 16

structure Table where
  inner : TableInner
  fastShards : Fin fastShardCount → Std.TreeMap Id RouteEntry
  mcrChannelStats : Std.TreeMap Id ChannelStats

/-! ## Hashing -/

/-- The `i`-th 64-bit word of an identifier, as `read_unaligned` loads it. -/
def idWord (id : Id) (i : ℕ) : UInt64 := UInt64.ofNat (leNat (slice id.toList (8 * i) 8))

/-- The first word of an identifier, the key of every index computation. -/
def val64 (id : Id) : UInt64 := idWord id 0

def knuth : UInt64 := 0x9e3779b97f4a7c15

/-- `fast_flow_hash`: the XOR of the eight words and the label. -/
def fastFlowHash (srcId dstId : Id) (flowLabel : UInt32) : UInt64 :=
  idWord srcId 0 ^^^ idWord srcId 1 ^^^ idWord srcId 2 ^^^ idWord srcId 3 ^^^
    idWord dstId 0 ^^^ idWord dstId 1 ^^^ idWord dstId 2 ^^^ idWord dstId 3 ^^^ flowLabel.toUInt64

def shardForVal (v : UInt64) : Fin fastShardCount :=
  ⟨(v * knuth).toNat &&& (fastShardCount - 1), Nat.lt_of_le_of_lt Nat.and_le_right (by decide)⟩

def shardForDest (destId : Id) : Fin fastShardCount := shardForVal (val64 destId)

/-- `usize::is_power_of_two`. -/
def isPowerOfTwo (n : ℕ) : Bool := n == 2 ^ n.log2

/-- The channel a flow label picks among `choices`: a mask for powers of two, else a remainder. -/
def flowIndex (choices : ℕ) (flowLabel : UInt32) : ℕ :=
  if isPowerOfTwo choices then flowLabel.toNat &&& (choices - 1) else flowLabel.toNat % choices

theorem isPowerOfTwo_iff {n : ℕ} : isPowerOfTwo n = true ↔ ∃ k, n = 2 ^ k := by
  rw [isPowerOfTwo, beq_iff_eq]
  constructor
  · exact fun h => ⟨_, h⟩
  · rintro ⟨k, rfl⟩
    rw [Nat.log2_two_pow]

/-- The mask of a power of two is the remainder. -/
theorem mask_or_mod (n i : ℕ) : (if isPowerOfTwo n then i &&& (n - 1) else i % n) = i % n := by
  split_ifs with h
  · obtain ⟨k, rfl⟩ := isPowerOfTwo_iff.mp h
    exact Nat.and_two_pow_sub_one_eq_mod i k
  · rfl

theorem flowIndex_eq_mod (n : ℕ) (flowLabel : UInt32) :
    flowIndex n flowLabel = flowLabel.toNat % n := mask_or_mod n flowLabel.toNat

namespace Table

def new : Table where
  inner := { entries := {}, predictiveNextHops := [] }
  fastShards := fun _ => {}
  mcrChannelStats := {}

/-! ## The lock-protected steps of an update -/

def rebuildPredictiveEntries (entries : Std.TreeMap Id RouteEntry) : TableInner where
  entries := entries
  predictiveNextHops := entries.values.map RouteEntry.nextHopId

/-- What an update does to one destination: a new route, or its removal. -/
inductive Write
  | update (e : RouteEntry)
  | remove (dest : Id)
  deriving DecidableEq

namespace Write

/-- The destination written. -/
def dest : Write → Id
  | update e => e.destId
  | remove d => d

/-- The route the destination has afterwards. -/
def content : Write → Option RouteEntry
  | update e => some e
  | remove _ => none

/-- The write on one index: `insert` or `remove`. -/
def apply (w : Write) (m : Std.TreeMap Id RouteEntry) : Std.TreeMap Id RouteEntry :=
  match w with
  | update e => m.insert e.destId e
  | remove d => m.erase d

end Write

/-- First lock: the shard map of the destination. -/
def writeShard (t : Table) (w : Write) : Table :=
  { t with
    fastShards := Function.update t.fastShards (shardForDest w.dest)
      (w.apply (t.fastShards (shardForDest w.dest))) }

/-- Second lock: the main entries, and the predictive list rebuilt from them. -/
def writeMain (t : Table) (w : Write) : Table :=
  { t with inner := rebuildPredictiveEntries (w.apply t.inner.entries) }

/-- Third lock: `entry(dest).or_default()` for an update, `remove` for a removal. -/
def writeStats (t : Table) (w : Write) : Table :=
  { t with
    mcrChannelStats :=
      match w with
      | .update e => t.mcrChannelStats.alter e.destId fun s => some (s.getD {})
      | .remove d => t.mcrChannelStats.erase d }

/-- `update_route` / `remove_route`, up to the epoch increment that follows. -/
def write (t : Table) (w : Write) : Table := ((t.writeShard w).writeMain w).writeStats w

def updateRoute (t : Table) (e : RouteEntry) : Table := t.write (.update e)

def removeRoute (t : Table) (dest : Id) : Table := t.write (.remove dest)

/-! ## Lookups -/

/-- The entry the exact lookups find: the destination's shard, by key. -/
def shardEntry (t : Table) (dstId : Id) : Option RouteEntry :=
  (t.fastShards (shardForDest dstId))[dstId]?

/-- The next hop that `lookup_next_hop` reads from an entry. -/
def nextHop (e : RouteEntry) : Id := e.nextHopId

/-- The channel that `lookup_spray_primary` picks from an entry. -/
def sprayPrimary (e : RouteEntry) (flowLabel : UInt32) : Id :=
  if e.alternateChannels.isEmpty then e.nextHopId
  else
    let chIdx := flowIndex (1 + e.alternateChannels.length) flowLabel
    if chIdx = 0 then e.nextHopId else e.alternateChannels.getD (chIdx - 1) e.nextHopId

/-- `lookup_next_hop` behind its cache. -/
def lookupNextHop (t : Table) (dstId : Id) (_flowLabel : UInt32) : Option Id :=
  (t.shardEntry dstId).map nextHop

/-- `lookup_spray_primary` behind its cache. -/
def lookupSprayPrimary (t : Table) (dstId : Id) (flowLabel : UInt32) : Option Id :=
  (t.shardEntry dstId).map (sprayPrimary · flowLabel)

/-- `lookup_spray_buf`: the buffer with the channels written, and their number. -/
def lookupSprayBuf (t : Table) (dstId : Id) (flowLabel : UInt32) (buf : List (Id × Bool)) :
    List (Id × Bool) × ℕ :=
  match t.shardEntry dstId with
  | some e =>
    let total := 1 + e.alternateChannels.length
    let count := min total buf.length
    if count = 0 then (buf, 0)
    else if total = 1 then (buf.set 0 (e.nextHopId, true), 1)
    else
      let idx := flowIndex total flowLabel
      let primaryNh :=
        if idx = 0 then e.nextHopId else e.alternateChannels.getD (idx - 1) e.nextHopId
      let writeChannel := fun (buf : List (Id × Bool)) i =>
        let nh := if i = idx then e.nextHopId else e.alternateChannels.getD (i - 1) e.nextHopId
        buf.set i (nh, false)
      ((List.range' 1 (count - 1)).foldl writeChannel (buf.set 0 (primaryNh, true)), count)
  | none => (buf, 0)

/-- The position of the predictive list a flow is hashed to. -/
def predictiveIndex (n : ℕ) (hash : UInt64) : ℕ :=
  if isPowerOfTwo n then hash.toNat &&& (n - 1) else (hash.toNat * n) >>> 64

/-- `lookup_predictive_fallback`; the index is below the length of the list. -/
def lookupPredictiveFallback (t : Table) (srcId dstId : Id) (flowLabel : UInt32) : Option Id :=
  let n := t.inner.predictiveNextHops.length
  if n = 0 then none
  else if n = 1 then t.inner.predictiveNextHops[0]?
  else t.inner.predictiveNextHops[predictiveIndex n (fastFlowHash srcId dstId flowLabel)]?

def lookupOrPredict (t : Table) (srcId dstId : Id) (flowLabel : UInt32) : Option Id :=
  match t.lookupNextHop dstId flowLabel with
  | some nh => some nh
  | none => t.lookupPredictiveFallback srcId dstId flowLabel

/-! ## The entry a write leaves -/

theorem Write.getElem?_apply (w : Write) (m : Std.TreeMap Id RouteEntry) (d : Id) :
    (w.apply m)[d]? = if d = w.dest then w.content else m[d]? := by
  cases w with
  | update e =>
    rw [apply, Std.TreeMap.getElem?_insert, dest, content]
    simp only [Std.compare_eq_iff_eq, eq_comm (a := d)]
  | remove d' =>
    rw [apply, Std.TreeMap.getElem?_erase, dest, content]
    simp only [Std.compare_eq_iff_eq, eq_comm (a := d)]

/-- A shard write changes the exact entry of its own destination only. -/
theorem shardEntry_writeShard (t : Table) (w : Write) (d : Id) :
    (t.writeShard w).shardEntry d = if d = w.dest then w.content else t.shardEntry d := by
  simp only [shardEntry, writeShard]
  by_cases hs : shardForDest d = shardForDest w.dest
  · rw [hs, Function.update_self, Write.getElem?_apply]
  · have hd : d ≠ w.dest := fun h => hs (congrArg shardForDest h)
    rw [Function.update_of_ne hs, if_neg hd]

theorem entries_writeMain (t : Table) (w : Write) (d : Id) :
    (t.writeMain w).inner.entries[d]? =
      if d = w.dest then w.content else t.inner.entries[d]? :=
  Write.getElem?_apply w _ d

@[simp] theorem shardEntry_writeMain (t : Table) (w : Write) (d : Id) :
    (t.writeMain w).shardEntry d = t.shardEntry d := rfl

@[simp] theorem shardEntry_writeStats (t : Table) (w : Write) (d : Id) :
    (t.writeStats w).shardEntry d = t.shardEntry d := rfl

@[simp] theorem inner_writeShard (t : Table) (w : Write) : (t.writeShard w).inner = t.inner := rfl

@[simp] theorem inner_writeStats (t : Table) (w : Write) : (t.writeStats w).inner = t.inner := rfl

theorem shardEntry_write (t : Table) (w : Write) (d : Id) :
    (t.write w).shardEntry d = if d = w.dest then w.content else t.shardEntry d := by
  simp only [write, shardEntry_writeStats, shardEntry_writeMain, shardEntry_writeShard]

/-! ## The channels of a full spray -/

/-- `lookup_spray_buf` writes as many channels as the route has and the buffer holds. -/
theorem lookupSprayBuf_count (t : Table) (d : Id) (flowLabel : UInt32) (buf : List (Id × Bool)) :
    (t.lookupSprayBuf d flowLabel buf).2 =
      ((t.shardEntry d).map fun e => min (1 + e.alternateChannels.length) buf.length).getD 0 := by
  unfold lookupSprayBuf
  cases t.shardEntry d with
  | none => rfl
  | some e =>
    simp only [Option.map_some, Option.getD_some]
    split_ifs <;> omega

theorem length_lookupSprayBuf (t : Table) (d : Id) (flowLabel : UInt32)
    (buf : List (Id × Bool)) : (t.lookupSprayBuf d flowLabel buf).1.length = buf.length := by
  have hfold : ∀ (g : ℕ → Id × Bool) (is : List ℕ) (buf : List (Id × Bool)),
      (is.foldl (fun buf i => buf.set i (g i)) buf).length = buf.length := by
    intro g is
    induction is with
    | nil => simp
    | cons i is ih => simp [ih]
  unfold lookupSprayBuf
  cases t.shardEntry d with
  | none => rfl
  | some e =>
    simp only
    split_ifs
    · rfl
    · rw [List.length_set]
    · rw [hfold, List.length_set]
    · rw [hfold, List.length_set]

end Table

/-! ## A sample route -/

def zeroId : Id := Vector.replicate 32 0

/-- A route for the zero destination over the next hop all of whose bytes are `b`. -/
def zeroDestRoute (b : UInt8) : RouteEntry where
  destId := zeroId
  nextHopId := Vector.replicate 32 b
  alternateChannels := []

end SmipMwp.Routing
