import SmipMwp.Routing.Table
import SmipMwp.Foundations.Counters
import Mathlib.Data.UInt

/-!
# Channel statistics, one by one and in batches

`inc_channel_forwarded` and `inc_channel_dropped` count one packet; `apply_mcr_batch_stats` counts a
batch, given as a map of maps and a map. All three create what they do not find, in code of their
own.

Seen as `Counters` (`Table.counter`: the forwarded counter of a destination and a next hop, and the
drop counter of a destination), each is a list of bumps: a single call creates the entry of its
destination and adds one (`counter_run`), the batch does that for each entry of its maps
(`counter_applyMcrBatchStats`). `applyMcrBatchStats_eq_calls`: the batch leaves the counters and the
exported triples that single calls leave, in whatever order they come.
-/

namespace SmipMwp.Routing

open Wire (Id)

/-! ## The updates -/

namespace ChannelStats

/-- `per_channel_forwarded`, one more for a next hop: `fetch_add`, or a new counter at one. -/
def incForwarded (entry : ChannelStats) (nextHop : Id) : ChannelStats :=
  match entry.perChannelForwarded[nextHop]? with
  | some counter =>
    { entry with perChannelForwarded := entry.perChannelForwarded.insert nextHop (counter + 1) }
  | none => { entry with perChannelForwarded := entry.perChannelForwarded.insert nextHop 1 }

/-- The inner loop of `apply_mcr_batch_stats`: `or_insert_with` zero, then `fetch_add`. -/
def addForwarded (entry : ChannelStats) (p : Id × UInt64) : ChannelStats :=
  { entry with
    perChannelForwarded := entry.perChannelForwarded.alter p.1 fun counter =>
      some (counter.getD 0 + p.2) }

def addDropped (entry : ChannelStats) (count : UInt64) : ChannelStats :=
  { entry with packetsDropped := entry.packetsDropped + count }

end ChannelStats

namespace Table

/-- An update of the statistics of one destination: `stats.entry(dest).or_default()`. -/
def updateStats (t : Table) (dest : Id) (f : ChannelStats → ChannelStats) : Table :=
  { t with mcrChannelStats := t.mcrChannelStats.alter dest fun s => some (f (s.getD {})) }

def incChannelForwarded (t : Table) (destId nextHop : Id) : Table :=
  t.updateStats destId (·.incForwarded nextHop)

def incChannelDropped (t : Table) (destId : Id) : Table :=
  t.updateStats destId (·.addDropped 1)

/-- `apply_mcr_batch_stats`, the entries of each map in the order it is iterated in. -/
def applyMcrBatchStats (t : Table) (forwarded : List (Id × List (Id × UInt64)))
    (dropped : List (Id × UInt64)) : Table :=
  let t := forwarded.foldl (fun t p => t.updateStats p.1 fun entry =>
    p.2.foldl ChannelStats.addForwarded entry) t
  dropped.foldl (fun t p => t.updateStats p.1 (·.addDropped p.2)) t

/-- `collect_mcr_metrics`: a triple for each counter, and one for the drops if there are any, with
the ids as `hex::encode` writes them. -/
def collectMcrMetrics (hexEncode : Id → String) (t : Table) : List (String × String × UInt64) :=
  t.mcrChannelStats.toList.flatMap fun (dest, chStats) =>
    (chStats.perChannelForwarded.toList.map fun (nh, count) =>
      (hexEncode dest, hexEncode nh, count)) ++
    if chStats.packetsDropped > 0 then [(hexEncode dest, "dropped", chStats.packetsDropped)]
    else []

/-! ## The statistics as counters -/

/-- The counter of a next hop of a destination, or its drop counter. -/
def counter (t : Table) : Counters (Id × Option Id) UInt64
  | (dest, some nh) => t.mcrChannelStats[dest]?.bind fun s => s.perChannelForwarded[nh]?
  | (dest, none) => t.mcrChannelStats[dest]?.map ChannelStats.packetsDropped

/-- `collect_mcr_metrics` lists the forwarded counters, and the drop counters that are not zero. -/
theorem mem_collectMcrMetrics_iff (hexEncode : Id → String) (t : Table)
    (triple : String × String × UInt64) :
    triple ∈ t.collectMcrMetrics hexEncode ↔
      (∃ dest nh count, t.counter (dest, some nh) = some count ∧
        triple = (hexEncode dest, hexEncode nh, count)) ∨
      ∃ dest count, t.counter (dest, none) = some count ∧ 0 < count ∧
        triple = (hexEncode dest, "dropped", count) := by
  rw [collectMcrMetrics, List.mem_flatMap]
  constructor
  · rintro ⟨⟨dest, chStats⟩, hdest, htriple⟩
    rw [Std.TreeMap.mem_toList_iff_getElem?_eq_some] at hdest
    rcases List.mem_append.mp htriple with hforwarded | hdropped
    · obtain ⟨⟨nh, count⟩, hnh, rfl⟩ := List.mem_map.mp hforwarded
      rw [Std.TreeMap.mem_toList_iff_getElem?_eq_some] at hnh
      refine Or.inl ⟨dest, nh, count, ?_, rfl⟩
      rw [counter, hdest, Option.bind_some, hnh]
    · split_ifs at hdropped with hpos
      · refine Or.inr ⟨dest, chStats.packetsDropped, ?_, hpos, List.mem_singleton.mp hdropped⟩
        rw [counter, hdest, Option.map_some]
      · exact absurd hdropped List.not_mem_nil
  · rintro (⟨dest, nh, count, hcount, rfl⟩ | ⟨dest, count, hcount, hpos, rfl⟩)
    · obtain ⟨chStats, hdest, hnh⟩ := Option.bind_eq_some_iff.mp hcount
      refine ⟨(dest, chStats), Std.TreeMap.mem_toList_iff_getElem?_eq_some.mpr hdest,
        List.mem_append_left _ (List.mem_map.mpr ⟨(nh, count), ?_, rfl⟩)⟩
      exact Std.TreeMap.mem_toList_iff_getElem?_eq_some.mpr hnh
    · obtain ⟨chStats, hdest, rfl⟩ := Option.map_eq_some_iff.mp hcount
      refine ⟨(dest, chStats), Std.TreeMap.mem_toList_iff_getElem?_eq_some.mpr hdest,
        List.mem_append_right _ ?_⟩
      rw [if_pos hpos]
      exact List.mem_singleton_self _

/-- The triples depend on the counters only. -/
theorem mem_collectMcrMetrics_congr {t t' : Table} (h : t.counter = t'.counter)
    (hexEncode : Id → String) (triple : String × String × UInt64) :
    triple ∈ t.collectMcrMetrics hexEncode ↔ triple ∈ t'.collectMcrMetrics hexEncode := by
  rw [mem_collectMcrMetrics_iff, mem_collectMcrMetrics_iff, h]

end Table

/-! ## The updates as bumps -/

namespace ChannelStats

/-- The counters of one destination. -/
def counter (entry : ChannelStats) : Counters (Option Id) UInt64
  | some nh => entry.perChannelForwarded[nh]?
  | none => some entry.packetsDropped

theorem counter_addForwarded (entry : ChannelStats) (p : Id × UInt64) :
    (entry.addForwarded p).counter = bump entry.counter (some p.1, p.2) := by
  funext o
  cases o with
  | none => rfl
  | some nh =>
    rw [counter, addForwarded, Std.TreeMap.getElem?_alter, bump]
    by_cases h : p.1 = nh
    · subst h
      rw [Std.compare_self, if_pos rfl, Function.update_self]
      rfl
    · rw [if_neg (by rwa [Std.compare_eq_iff_eq]), Function.update_of_ne (by simpa using Ne.symm h)]
      rfl

/-- `inc_channel_forwarded` and the loop of the batch add alike. -/
theorem counter_incForwarded (entry : ChannelStats) (nextHop : Id) :
    (entry.incForwarded nextHop).counter = bump entry.counter (some nextHop, 1) := by
  rw [← counter_addForwarded entry (nextHop, 1)]
  funext o
  cases o with
  | none =>
    rw [incForwarded]
    split <;> rfl
  | some nh =>
    simp only [counter, addForwarded, Std.TreeMap.getElem?_alter]
    rw [incForwarded]
    cases hnh : entry.perChannelForwarded[nextHop]? with
    | none => simp only [Std.TreeMap.getElem?_insert, Option.getD_none, zero_add]
    | some counter => simp only [Std.TreeMap.getElem?_insert, Option.getD_some]

theorem counter_addDropped (entry : ChannelStats) (count : UInt64) :
    (entry.addDropped count).counter = bump entry.counter (none, count) := by
  funext o
  cases o <;> rfl

end ChannelStats

namespace Table

/-- The counters of a destination, once it has an entry. -/
theorem bump_counter_getD (t : Table) (dest : Id) (o : Option Id) :
    bump t.counter ((dest, none), 0) (dest, o) =
      (t.mcrChannelStats[dest]?.getD {}).counter o := by
  cases o with
  | none =>
    rw [bump, Function.update_self, add_zero, counter, ChannelStats.counter]
    cases t.mcrChannelStats[dest]? <;> rfl
  | some nh =>
    rw [bump, Function.update_of_ne (by simp), counter, ChannelStats.counter]
    cases t.mcrChannelStats[dest]? with
    | none => exact Std.TreeMap.getElem?_emptyc.symm
    | some entry => rfl

/-- An update of the statistics of a destination creates its entry, with a drop counter of zero, and
bumps what the update of the entry bumps. -/
theorem counter_updateStats (t : Table) (dest : Id) {f : ChannelStats → ChannelStats}
    (ps : List (Option Id × UInt64)) (hf : ∀ entry, (f entry).counter = bumpAll entry.counter ps) :
    (t.updateStats dest f).counter =
      bumpAll t.counter (((dest, none), 0) :: ps.map fun p => ((dest, p.1), p.2)) := by
  funext ⟨d, o⟩
  by_cases hd : d = dest
  case neg =>
    -- Another destination: none of the keys is its own.
    have hkeys : (d, o) ∉ (((dest, none), 0) ::
        ps.map fun p => ((dest, p.1), p.2)).map Prod.fst := by
      rw [List.map_cons, List.mem_cons, List.map_map, List.mem_map]
      rintro (h | ⟨p, _, h⟩)
      · exact hd (congrArg Prod.fst h)
      · exact hd (congrArg Prod.fst h).symm
    rw [bumpAll_of_notMem hkeys]
    cases o <;>
      simp only [counter, updateStats, Std.TreeMap.getElem?_alter, Std.compare_eq_iff_eq,
        Ne.symm hd, if_false]
  case pos =>
    subst hd
    calc (t.updateStats d f).counter (d, o)
        = (f (t.mcrChannelStats[d]?.getD {})).counter o := by
          have hstats : (t.updateStats d f).mcrChannelStats[d]? =
              some (f (t.mcrChannelStats[d]?.getD {})) := by
            rw [updateStats, Std.TreeMap.getElem?_alter, Std.compare_self, if_pos rfl]
          cases o with
          | none => rw [counter, hstats]; rfl
          | some nh => rw [counter, hstats]; rfl
      _ = bumpAll (fun o => bump t.counter ((d, none), 0) (d, o)) ps o := by
          rw [hf, funext (bump_counter_getD t d)]
      _ = bumpAll t.counter (((d, none), 0) :: ps.map fun p => ((d, p.1), p.2)) (d, o) :=
          (bumpAll_map (Prod.mk_right_injective d) _ ps o).symm

theorem counter_incChannelForwarded (t : Table) (destId nextHop : Id) :
    (t.incChannelForwarded destId nextHop).counter =
      bumpAll t.counter [((destId, none), 0), ((destId, some nextHop), 1)] :=
  t.counter_updateStats destId [(some nextHop, 1)] fun entry =>
    entry.counter_incForwarded nextHop

theorem counter_incChannelDropped (t : Table) (destId : Id) :
    (t.incChannelDropped destId).counter =
      bumpAll t.counter [((destId, none), 0), ((destId, none), 1)] :=
  t.counter_updateStats destId [(none, 1)] fun entry => entry.counter_addDropped 1

/-- The bumps of a batch, map by map. -/
def batchBumps (forwarded : List (Id × List (Id × UInt64))) (dropped : List (Id × UInt64)) :
    List ((Id × Option Id) × UInt64) :=
  (forwarded.flatMap fun p => ((p.1, none), 0) :: p.2.map fun q => ((p.1, some q.1), q.2)) ++
    dropped.flatMap fun p => [((p.1, none), 0), ((p.1, none), p.2)]

/-- Updates that each bump leave what the bumps together leave. -/
theorem counter_foldl {α : Type*} {f : Table → α → Table}
    {g : α → List ((Id × Option Id) × UInt64)}
    (h : ∀ t a, (f t a).counter = bumpAll t.counter (g a)) (t : Table) (l : List α) :
    (l.foldl f t).counter = bumpAll t.counter (l.flatMap g) := by
  induction l generalizing t with
  | nil => rfl
  | cons a l ih => rw [List.foldl_cons, ih, h, List.flatMap_cons, bumpAll_append]

theorem counter_applyMcrBatchStats (t : Table) (forwarded : List (Id × List (Id × UInt64)))
    (dropped : List (Id × UInt64)) :
    (t.applyMcrBatchStats forwarded dropped).counter =
      bumpAll t.counter (batchBumps forwarded dropped) := by
  have hforwarded : ∀ (ps : List (Id × UInt64)) (entry : ChannelStats),
      (ps.foldl ChannelStats.addForwarded entry).counter =
        bumpAll entry.counter (ps.map fun q => (some q.1, q.2)) := by
    intro ps
    induction ps with
    | nil => exact fun _ => rfl
    | cons q ps ih =>
      intro entry
      rw [List.foldl_cons, ih, ChannelStats.counter_addForwarded]
      rfl
  rw [batchBumps, bumpAll_append, applyMcrBatchStats]
  rw [counter_foldl fun t p => t.counter_updateStats p.1 [(none, p.2)] fun entry =>
    entry.counter_addDropped p.2]
  rw [counter_foldl fun t p => by rw [t.counter_updateStats p.1 _ (hforwarded p.2), List.map_map]]
  rfl

/-! ## Single calls -/

inductive ChannelCall
  | forwarded (destId nextHop : Id)
  | dropped (destId : Id)
  deriving DecidableEq

namespace ChannelCall

def run (t : Table) : ChannelCall → Table
  | forwarded destId nextHop => t.incChannelForwarded destId nextHop
  | dropped destId => t.incChannelDropped destId

def bumps : ChannelCall → List ((Id × Option Id) × UInt64)
  | forwarded destId nextHop => [((destId, none), 0), ((destId, some nextHop), 1)]
  | dropped destId => [((destId, none), 0), ((destId, none), 1)]

theorem counter_run (t : Table) (call : ChannelCall) :
    (run t call).counter = bumpAll t.counter call.bumps := by
  cases call with
  | forwarded destId nextHop => exact t.counter_incChannelForwarded destId nextHop
  | dropped destId => exact t.counter_incChannelDropped destId

end ChannelCall

/-- The single calls a batch stands for: one for each packet counted. -/
def callsOf (forwarded : List (Id × List (Id × UInt64))) (dropped : List (Id × UInt64)) :
    List ChannelCall :=
  (forwarded.flatMap fun p => p.2.flatMap fun q =>
    List.replicate q.2.toNat (.forwarded p.1 q.1)) ++
  dropped.flatMap fun p => List.replicate p.2.toNat (.dropped p.1)

theorem nsmul_one_uint64 (n : ℕ) : n • (1 : UInt64) = UInt64.ofNat n := by
  induction n with
  | zero => rfl
  | succ n ih => rw [succ_nsmul, ih, UInt64.ofNat_add]; rfl

/-- The calls for one counter of a batch bump it by its count. -/
theorem sameBumps_replicate {call : ChannelCall} {k k' : Id × Option Id} {count : UInt64}
    (hcall : call.bumps = [(k, 0), (k', 1)]) (hpos : 0 < count) :
    SameBumps ((List.replicate count.toNat call).flatMap ChannelCall.bumps)
      [(k, 0), (k', count)] := by
  have hne : count.toNat ≠ 0 := by
    have hlt : (0 : UInt64).toNat < count.toNat := hpos
    exact Nat.ne_of_gt hlt
  have h := SameBumps.replicate hne call.bumps
  rw [hcall, List.map_cons, List.map_singleton, nsmul_zero, nsmul_one_uint64,
    UInt64.ofNat_toNat] at h
  rwa [List.flatMap_replicate, hcall]

/-- **A batch bumps as its single calls do**, if each of its maps has something to count. -/
theorem sameBumps_callsOf {forwarded : List (Id × List (Id × UInt64))}
    {dropped : List (Id × UInt64)} (hne : ∀ p ∈ forwarded, p.2 ≠ [])
    (hpos : ∀ p ∈ forwarded, ∀ q ∈ p.2, 0 < q.2) (hdropped : ∀ p ∈ dropped, 0 < p.2) :
    SameBumps ((callsOf forwarded dropped).flatMap ChannelCall.bumps)
      (batchBumps forwarded dropped) := by
  rw [callsOf, batchBumps, List.flatMap_append]
  refine SameBumps.append ?_ ?_
  · rw [List.flatMap_assoc]
    refine SameBumps.flatMap fun p hp => ?_
    rw [List.flatMap_assoc]
    have hcalls : SameBumps
        (p.2.flatMap fun q => (List.replicate q.2.toNat
          (ChannelCall.forwarded p.1 q.1)).flatMap ChannelCall.bumps)
        (p.2.flatMap fun q => [((p.1, none), 0), ((p.1, some q.1), q.2)]) :=
      SameBumps.flatMap fun q hq => sameBumps_replicate rfl (hpos p hp q hq)
    exact hcalls.trans (SameBumps.flatMap_cons_zero _ _ (hne p hp))
  · rw [List.flatMap_assoc]
    exact SameBumps.flatMap fun p hp => sameBumps_replicate rfl (hdropped p hp)

/-- **A batch of statistics is its single calls**: whatever the table has counted, calls for the
packets of the batch, in any order, leave the counters and the triples that the batch leaves, in
whatever way ids are written. -/
theorem applyMcrBatchStats_eq_calls (t : Table) {forwarded : List (Id × List (Id × UInt64))}
    {dropped : List (Id × UInt64)} (hne : ∀ p ∈ forwarded, p.2 ≠ [])
    (hpos : ∀ p ∈ forwarded, ∀ q ∈ p.2, 0 < q.2) (hdropped : ∀ p ∈ dropped, 0 < p.2)
    {calls : List ChannelCall} (hcalls : calls.Perm (callsOf forwarded dropped)) :
    (calls.foldl ChannelCall.run t).counter = (t.applyMcrBatchStats forwarded dropped).counter ∧
      ∀ hexEncode triple, triple ∈ (calls.foldl ChannelCall.run t).collectMcrMetrics hexEncode ↔
        triple ∈ (t.applyMcrBatchStats forwarded dropped).collectMcrMetrics hexEncode := by
  have hbumps : SameBumps (calls.flatMap ChannelCall.bumps) (batchBumps forwarded dropped) :=
    (SameBumps.of_perm (hcalls.flatMap_right _)).trans (sameBumps_callsOf hne hpos hdropped)
  have hcounter : (calls.foldl ChannelCall.run t).counter =
      (t.applyMcrBatchStats forwarded dropped).counter := by
    rw [counter_foldl ChannelCall.counter_run, counter_applyMcrBatchStats]
    exact hbumps.bumpAll_eq_bumpAll t.counter
  exact ⟨hcounter, mem_collectMcrMetrics_congr hcounter⟩

/-- Two packets forwarded and one dropped, counted in a batch and the drop first. -/
theorem applyMcrBatchStats_eq_calls_three :
    ([ChannelCall.dropped zeroId, .forwarded zeroId zeroId, .forwarded zeroId zeroId].foldl
        ChannelCall.run Table.new).counter =
      (Table.new.applyMcrBatchStats [(zeroId, [(zeroId, 2)])] [(zeroId, 1)]).counter ∧
    ∀ hexEncode triple, triple ∈ ([ChannelCall.dropped zeroId, .forwarded zeroId zeroId,
        .forwarded zeroId zeroId].foldl ChannelCall.run Table.new).collectMcrMetrics hexEncode ↔
      triple ∈ (Table.new.applyMcrBatchStats [(zeroId, [(zeroId, 2)])]
        [(zeroId, 1)]).collectMcrMetrics hexEncode :=
  applyMcrBatchStats_eq_calls Table.new (by decide) (by decide) (by decide) (by decide)

end Table

end SmipMwp.Routing
