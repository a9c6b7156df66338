import SmipMwp.Foundations.DirectMapped
import SmipMwp.Routing.Table

/-!
# The per-thread route caches

Two of the lookups have a direct-mapped cache in front of the shards: `THREAD_CACHE` for
`lookup_next_hop`, keyed by destination, and `SPRAY_CACHE` for `lookup_spray_primary`, keyed by
destination and flow label. Both belong to the thread, not to a table, and a line counts as valid
while `GLOBAL_TABLE_EPOCH` still is the epoch the line was filled in.

The two caches of a thread are one direct-mapped cache whose keys say which lookup they are for
(`Caches.lines`); the general facts about such caches are used through this view.
-/

namespace SmipMwp.Routing

open Wire (Id)

def hotCacheSize : ℕ := 256

abbrev HotCache (κ : Type) := DirectMapped (Fin hotCacheSize) κ Id

/-- The line a hash selects. -/
def hotCacheLine (hash : UInt64) : Fin hotCacheSize :=
  ⟨hash.toNat &&& (hotCacheSize - 1), Nat.lt_of_le_of_lt Nat.and_le_right (by decide)⟩

def simpleCacheIndex (v : UInt64) : Fin hotCacheSize := hotCacheLine (v * knuth)

def sprayCacheIndex (v : UInt64) (flowLabel : UInt32) : Fin hotCacheSize :=
  hotCacheLine ((v ^^^ flowLabel.toUInt64) * knuth)

/-- The line of a `lookup_next_hop`. -/
def threadIndex (dstId : Id) : Fin hotCacheSize := simpleCacheIndex (val64 dstId)

/-- The line of a `lookup_spray_primary`. -/
def sprayIndex (key : Id × UInt32) : Fin hotCacheSize := sprayCacheIndex (val64 key.1) key.2

/-- `THREAD_CACHE` and `SPRAY_CACHE` of one thread. -/
structure Caches where
  thread : HotCache Id
  spray : HotCache (Id × UInt32)

/-- The two lookups that go through a cache. -/
inductive Query
  | nextHop (dstId : Id) (flowLabel : UInt32)
  | sprayPrimary (dstId : Id) (flowLabel : UInt32)
  deriving DecidableEq

namespace Query

def dstId : Query → Id
  | nextHop d _ => d
  | sprayPrimary d _ => d

/-- The answer read from the entry that the shard has for the destination. -/
def answer : Query → Option RouteEntry → Option Id
  | nextHop _ _, entry => entry.map Table.nextHop
  | sprayPrimary _ flowLabel, entry => entry.map (Table.sprayPrimary · flowLabel)

end Query

/-- The answer of the table itself, its live route for the destination. -/
def Table.answer (t : Table) (q : Query) : Option Id := q.answer (t.shardEntry q.dstId)

@[simp] theorem Table.answer_nextHop (t : Table) (d : Id) (flowLabel : UInt32) :
    t.answer (.nextHop d flowLabel) = t.lookupNextHop d flowLabel := rfl

@[simp] theorem Table.answer_sprayPrimary (t : Table) (d : Id) (flowLabel : UInt32) :
    t.answer (.sprayPrimary d flowLabel) = t.lookupSprayPrimary d flowLabel := rfl

namespace Caches

/-- The zero-initialised caches of a new thread. -/
def new : Caches where
  thread := fun _ => { epoch := 0, key := zeroId, value := zeroId }
  spray := fun _ => { epoch := 0, key := (zeroId, 0), value := zeroId }

/-- The cache check: the epoch, the flow label of a spray lookup, and the destination. -/
def check (c : Caches) (epoch : UInt64) : Query → Option Id
  | .nextHop d _ => c.thread.check threadIndex epoch d
  | .sprayPrimary d flowLabel => c.spray.check sprayIndex epoch (d, flowLabel)

/-- The stores that fill a line with the next hop found. -/
def fill (c : Caches) (epoch : UInt64) (q : Query) (nh : Id) : Caches :=
  match q with
  | .nextHop d _ => { c with thread := c.thread.fill threadIndex epoch d nh }
  | .sprayPrimary d flowLabel =>
    { c with spray := c.spray.fill sprayIndex epoch (d, flowLabel) nh }

end Caches

/-- `lookup_next_hop` / `lookup_spray_primary` with the epoch loaded: the cache check, then the
shard, whose answer fills the line. -/
def Table.lookup (t : Table) (c : Caches) (epoch : UInt64) (q : Query) : Option Id × Caches :=
  match c.check epoch q with
  | some nh => (some nh, c)
  | none =>
    match t.answer q with
    | some nh => (some nh, c.fill epoch q nh)
    | none => (none, c)

/-! ## The caches of a thread as one cache -/

/-- What a line is compared with: the destination, for a spray lookup with the flow label. -/
abbrev CacheKey := Id ⊕ Id × UInt32

abbrev CacheIndex := Fin hotCacheSize ⊕ Fin hotCacheSize

def cacheIndex : CacheKey → CacheIndex := Sum.map threadIndex sprayIndex

def Query.key : Query → CacheKey
  | nextHop d _ => .inl d
  | sprayPrimary d flowLabel => .inr (d, flowLabel)

/-- A line of one of the two caches, its key marked with the cache. -/
def taggedLine {κ : Type} (tag : κ → CacheKey) (l : Line κ Id) : Line CacheKey Id :=
  { epoch := l.epoch, key := tag l.key, value := l.value }

/-- Queries with one key are answered alike by a table: the flow label of `lookup_next_hop` is
not used. -/
theorem Table.answer_congr (t : Table) {q q' : Query} (h : q.key = q'.key) :
    t.answer q = t.answer q' := by
  cases q with
  | nextHop d flowLabel =>
    cases q' with
    | nextHop d' flowLabel' => rw [answer_nextHop, answer_nextHop, Sum.inl.inj h]; rfl
    | sprayPrimary d' flowLabel' => cases h
  | sprayPrimary d flowLabel =>
    cases q' with
    | nextHop d' flowLabel' => cases h
    | sprayPrimary d' flowLabel' =>
      obtain ⟨rfl, rfl⟩ := Prod.mk.inj (Sum.inr.inj h)
      rfl

namespace Caches

/-- The lines of both caches. -/
def lines (c : Caches) : DirectMapped CacheIndex CacheKey Id :=
  Sum.elim (fun i => taggedLine .inl (c.thread i)) (fun i => taggedLine .inr (c.spray i))

theorem check_eq (c : Caches) (epoch : UInt64) (q : Query) :
    c.check epoch q = c.lines.check cacheIndex epoch q.key := by
  cases q <;> simp only [check, DirectMapped.check, lines, cacheIndex, Query.key, taggedLine,
    Sum.map_inl, Sum.map_inr, Sum.elim_inl, Sum.elim_inr, Sum.inl.injEq, Sum.inr.injEq]

theorem lines_fill (c : Caches) (epoch : UInt64) (q : Query) (nh : Id) :
    (c.fill epoch q nh).lines = c.lines.fill cacheIndex epoch q.key nh := by
  cases q with
  | nextHop d flowLabel =>
    refine funext (Sum.rec (fun i => ?_) fun i => ?_)
    · by_cases h : i = threadIndex d
      · subst h; simp [fill, lines, DirectMapped.fill, cacheIndex, Query.key, taggedLine]
      · simp [fill, lines, DirectMapped.fill, cacheIndex, Query.key, h]
    · simp [fill, lines, DirectMapped.fill, cacheIndex, Query.key]
  | sprayPrimary d flowLabel =>
    refine funext (Sum.rec (fun i => ?_) fun i => ?_)
    · simp [fill, lines, DirectMapped.fill, cacheIndex, Query.key]
    · by_cases h : i = sprayIndex (d, flowLabel)
      · subst h; simp [fill, lines, DirectMapped.fill, cacheIndex, Query.key, taggedLine]
      · simp [fill, lines, DirectMapped.fill, cacheIndex, Query.key, h]

end Caches

/-- A lookup is a lookup of the one cache, with the table's answer behind it. -/
theorem Table.lookup_eq (t : Table) (c : Caches) (epoch : UInt64) (q : Query) :
    ((t.lookup c epoch q).1, (t.lookup c epoch q).2.lines) =
      c.lines.lookup cacheIndex { epoch := epoch, key := q.key, own := t.answer q } := by
  unfold lookup DirectMapped.lookup
  rw [Caches.check_eq]
  cases c.lines.check cacheIndex epoch q.key with
  | some nh => rfl
  | none =>
    cases t.answer q with
    | some nh => simp only [Caches.lines_fill]
    | none => rfl

end SmipMwp.Routing
