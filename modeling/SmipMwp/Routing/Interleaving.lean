import SmipMwp.Foundations.Writers
import SmipMwp.Routing.Table

/-!
# Concurrent updates of one table

`update_route` and `remove_route` take the locks of the shard map, of the main entries and of the
statistics one after the other, and increment the global epoch at the end. Concurrent calls
interleave these four steps. Each index of the table then holds, for a destination, what the last
step on that index wrote for it (`shardEntry_final`, `entries_final`); nothing makes the last
shard step and the last main step belong to the same call.

The two indices agree at the end of an interleaving exactly when, for every destination, these
two last steps write the same next hop and alternate channels, or none (`indicesAgree_final_iff`).
-/

namespace SmipMwp.Routing

open Wire (Id)

/-- The steps of a call, each one lock or one atomic operation. -/
inductive Phase
  | shard
  | main
  | stats
  | epoch
  deriving DecidableEq

/-- The steps of a call in program order. -/
def Phase.all : List Phase := [.shard, .main, .stats, .epoch]

/-- What the threads share: the table and `GLOBAL_TABLE_EPOCH`. -/
structure Shared where
  table : Table
  epoch : UInt64

namespace Shared

def new : Shared := { table := Table.new, epoch := 1 }

/-- One step of a call. -/
def step (s : Shared) (w : Table.Write) : Phase → Shared
  | .shard => { s with table := s.table.writeShard w }
  | .main => { s with table := s.table.writeMain w }
  | .stats => { s with table := s.table.writeStats w }
  | .epoch => { s with epoch := s.epoch + 1 }

/-- A call whose steps nobody interrupts. -/
theorem foldl_step_all (s : Shared) (w : Table.Write) :
    Phase.all.foldl (·.step w) s = { table := s.table.write w, epoch := s.epoch + 1 } := rfl

end Shared

/-- The union of the shards and the main entries have the same destinations, each with the same
next hop and alternate channels, and the predictive list is the list of the next hops that the exact
lookup returns for the destinations of the table. -/
structure Table.IndicesAgree (t : Table) : Prop where
  entries : ∀ (d : Id) (channels : List Id),
    (∃ s, ((t.fastShards s)[d]?).map RouteEntry.channels = some channels) ↔
      (t.inner.entries[d]?).map RouteEntry.channels = some channels
  predictive : ∀ flowLabel, t.inner.predictiveNextHops.map some =
    t.inner.entries.keys.map (t.lookupNextHop · flowLabel)

/-! ## What every step keeps -/

/-- Every route is in the shard of its destination. -/
def Table.Placed (t : Table) : Prop :=
  ∀ s (d : Id), (t.fastShards s)[d]? ≠ none → s = shardForDest d

/-- The predictive list is the one rebuilt from the main entries. -/
def Table.Rebuilt (t : Table) : Prop :=
  t.inner = rebuildPredictiveEntries t.inner.entries

namespace Table

theorem placed_writeShard {t : Table} (ht : t.Placed) (w : Write) : (t.writeShard w).Placed := by
  intro s d hd
  simp only [writeShard] at hd
  by_cases hs : s = shardForDest w.dest
  · rw [hs, Function.update_self, Write.getElem?_apply] at hd
    split_ifs at hd with hdw
    · rw [hs, hdw]
    · rw [hs, ht _ d hd]
  · rw [Function.update_of_ne hs] at hd
    exact ht s d hd

theorem Placed.exists_iff {t : Table} (ht : t.Placed) (d : Id) (channels : List Id) :
    (∃ s, ((t.fastShards s)[d]?).map RouteEntry.channels = some channels) ↔
      (t.shardEntry d).map RouteEntry.channels = some channels := by
  constructor
  · rintro ⟨s, hs⟩
    have hne : (t.fastShards s)[d]? ≠ none := by
      intro h
      rw [h] at hs
      cases hs
    rwa [shardEntry, ← ht s d hne]
  · exact fun h => ⟨shardForDest d, h⟩

/-- The exact lookup answers the first channel. -/
theorem lookupNextHop_eq (t : Table) (d : Id) (flowLabel : UInt32) :
    t.lookupNextHop d flowLabel = ((t.shardEntry d).map RouteEntry.channels).bind List.head? := by
  rw [lookupNextHop]
  cases t.shardEntry d with
  | none => rfl
  | some e => rfl

/-- The values of an ordered map, in the order of its list of pairs. -/
theorem values_eq_map_toList (m : Std.TreeMap Id RouteEntry) :
    m.values = m.toList.map Prod.snd := by
  have hlist := Std.DTreeMap.Internal.Impl.Const.toList_eq_toListModel_map (t := m.inner.inner)
  change m.inner.inner.values = (Std.DTreeMap.Internal.Impl.Const.toList m.inner.inner).map Prod.snd
  rw [hlist, Std.DTreeMap.Internal.Impl.values_eq_map_snd, List.map_map]
  rfl

/-- A predictive list rebuilt from entries that the shards agree with lists the answers of the
exact lookup. -/
theorem Rebuilt.predictive {t : Table} (ht : t.Rebuilt)
    (hentries : ∀ d, (t.shardEntry d).map RouteEntry.channels =
      (t.inner.entries[d]?).map RouteEntry.channels) (flowLabel : UInt32) :
    t.inner.predictiveNextHops.map some =
      t.inner.entries.keys.map (t.lookupNextHop · flowLabel) := by
  have hpred : t.inner.predictiveNextHops = t.inner.entries.values.map RouteEntry.nextHopId := by
    rw [ht]
    rfl
  rw [hpred, ← Std.TreeMap.map_fst_toList_eq_keys, values_eq_map_toList,
    List.map_map, List.map_map, List.map_map]
  refine List.map_congr_left fun p hp => ?_
  have hget : t.inner.entries[p.1]? = some p.2 :=
    Std.TreeMap.mem_toList_iff_getElem?_eq_some.mp hp
  simp only [Function.comp_apply, lookupNextHop_eq, hentries, hget, Option.map_some,
    Option.bind_some, RouteEntry.channels, List.head?_cons]

/-- On a table in order, the indices agree when every destination has the same channels in both. -/
theorem indicesAgree_iff {t : Table} (hp : t.Placed) (hr : t.Rebuilt) :
    t.IndicesAgree ↔ ∀ d, (t.shardEntry d).map RouteEntry.channels =
      (t.inner.entries[d]?).map RouteEntry.channels := by
  constructor
  · intro h d
    refine Option.ext fun channels => ?_
    rw [← hp.exists_iff]
    exact h.entries d channels
  · intro h
    exact ⟨fun d channels => by rw [hp.exists_iff, h], hr.predictive h⟩

end Table

/-! ## Interleavings -/

/-- **An interleaving** of the steps of concurrent calls: every call takes all its steps, in
program order. -/
structure Interleaving (calls : List Table.Write) where
  events : List (Fin calls.length × Phase)
  complete : ∀ c, (events.filter (·.1 = c)).map Prod.snd = Phase.all

namespace Interleaving

variable {calls : List Table.Write}

/-- The state once all calls have returned. -/
def final (i : Interleaving calls) : Shared :=
  i.events.foldl (fun s e => s.step (calls.get e.1) e.2) Shared.new

/-- The content that the last step of this phase for the destination writes: none if no call is
for it. -/
def lastContent (i : Interleaving calls) (phase : Phase) (d : Id) : Option RouteEntry :=
  (lastWrite (fun e => if e.2 = phase then some (calls.get e.1).dest else none)
    (fun e => (calls.get e.1).content) i.events d).getD none

theorem placed_final (i : Interleaving calls) : i.final.table.Placed := by
  unfold final
  induction i.events using List.reverseRecOn with
  | nil => exact fun s d h => absurd Std.TreeMap.getElem?_emptyc h
  | append_singleton es e ih =>
    rw [List.foldl_append, List.foldl_cons, List.foldl_nil]
    rcases e with ⟨c, _ | _ | _ | _⟩
    · exact Table.placed_writeShard ih _
    all_goals exact ih

theorem rebuilt_final (i : Interleaving calls) : i.final.table.Rebuilt := by
  unfold final
  induction i.events using List.reverseRecOn with
  | nil => rfl
  | append_singleton es e ih =>
    rw [List.foldl_append, List.foldl_cons, List.foldl_nil]
    rcases e with ⟨c, _ | _ | _ | _⟩
    · exact ih
    · rfl
    all_goals exact ih

/-- The shards end with what the last shard step wrote. -/
theorem shardEntry_final (i : Interleaving calls) (d : Id) :
    i.final.table.shardEntry d = i.lastContent .shard d := by
  refine foldl_eq_lastWrite (fun s d => s.table.shardEntry d) ?_ i.events Shared.new d
  rintro s ⟨c, _ | _ | _ | _⟩ d
  · simp [Shared.step, Table.shardEntry_writeShard, eq_comm]
  all_goals simp [Shared.step]

/-- The main entries end with what the last main step wrote. -/
theorem entries_final (i : Interleaving calls) (d : Id) :
    i.final.table.inner.entries[d]? = i.lastContent .main d := by
  refine foldl_eq_lastWrite (fun s d => s.table.inner.entries[d]?) ?_ i.events Shared.new d
  rintro s ⟨c, _ | _ | _ | _⟩ d
  · simp [Shared.step]
  · simp [Shared.step, Table.entries_writeMain, eq_comm]
  all_goals simp [Shared.step]

end Interleaving

/-- **The indices agree after an interleaving** exactly when, for every destination, the last
shard step and the last main step write the same next hop and alternate channels, or both none. -/
theorem indicesAgree_final_iff (calls : List Table.Write) (i : Interleaving calls) :
    i.final.table.IndicesAgree ↔
      ∀ d, (i.lastContent .shard d).map RouteEntry.channels =
        (i.lastContent .main d).map RouteEntry.channels := by
  rw [Table.indicesAgree_iff i.placed_final i.rebuilt_final]
  simp only [i.shardEntry_final, i.entries_final]

/-! ## Two racing updates -/

/-- Two updates of one destination that pass each other between the two locks: the second one
writes the shard last, the first one the main entries. -/
def racingUpdates :
    Interleaving [Table.Write.update (zeroDestRoute 1), Table.Write.update (zeroDestRoute 2)] where
  events := [(0, .shard), (1, .shard), (1, .main), (0, .main), (1, .stats), (0, .stats),
    (1, .epoch), (0, .epoch)]
  complete := by decide

/-- After the race the exact lookup and the predictive list name different next hops for the
only destination of the table. -/
theorem indicesAgree_final_fails :
    ¬ ∀ (calls : List Table.Write) (i : Interleaving calls), i.final.table.IndicesAgree := by
  intro h
  have hagree := (Table.indicesAgree_iff racingUpdates.placed_final racingUpdates.rebuilt_final).mp
    (h _ racingUpdates) zeroId
  rw [racingUpdates.shardEntry_final, racingUpdates.entries_final] at hagree
  exact absurd hagree (by decide)

end SmipMwp.Routing
