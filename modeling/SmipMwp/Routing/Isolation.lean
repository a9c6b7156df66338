import SmipMwp.Routing.Cache
import SmipMwp.Routing.Sequential

/-!
# Several tables used from one thread

A run is a list of updates and lookups on any number of tables, made by one thread. Where there is
only one table, the caches do not show: every lookup answers what the table itself does
(`answer_eq_of_subsingleton`). But the caches and the epoch belong to the thread and to the
process, not to a table, so a lookup on one table can hit a line that a lookup on another table
filled; `noCrosstalk_iff` says exactly in which runs every lookup nevertheless answers what its
own table does.
-/

namespace SmipMwp.Routing

variable {τ : Type*} [DecidableEq τ]

/-- A call on one of the tables. -/
inductive Op (τ : Type*)
  | write (table : τ) (w : Table.Write)
  | lookup (table : τ) (q : Query)

/-- The tables, `GLOBAL_TABLE_EPOCH`, and the caches of the thread. -/
structure Thread (τ : Type*) where
  tables : τ → Table
  epoch : UInt64
  caches : Caches

namespace Thread

def new : Thread τ := { tables := fun _ => Table.new, epoch := 1, caches := Caches.new }

/-- What a lookup answers. -/
def answer (s : Thread τ) (table : τ) (q : Query) : Option Wire.Id :=
  ((s.tables table).lookup s.caches s.epoch q).1

def step (s : Thread τ) : Op τ → Thread τ
  | .write table w =>
    { s with
      tables := Function.update s.tables table ((s.tables table).write w)
      epoch := s.epoch + 1 }
  | .lookup table q => { s with caches := ((s.tables table).lookup s.caches s.epoch q).2 }

def run (ops : List (Op τ)) : Thread τ := ops.foldl step new

end Thread

/-! ## What a run asks of its tables -/

/-- The tables after a list of calls: the lookups do not change them. -/
def tablesAfter (ops : List (Op τ)) : τ → Table :=
  ops.foldl
    (fun tables op =>
      match op with
      | .write table w => Function.update tables table ((tables table).write w)
      | .lookup _ _ => tables)
    fun _ => Table.new

/-- The number of updates among the calls. -/
def updates (ops : List (Op τ)) : ℕ :=
  ops.countP fun
    | .write _ _ => true
    | .lookup _ _ => false

/-- Call `n` as an access to the caches, if it is a lookup: the epoch is one more than the number
of updates before it, modulo `2^64`, and `own` is the answer of its table's live route. -/
def access (ops : List (Op τ)) (n : ℕ) : Option (Access CacheKey Wire.Id) :=
  match ops[n]? with
  | some (.lookup table q) =>
    some
      { epoch := UInt64.ofNat (1 + updates (ops.take n))
        key := q.key
        own := (tablesAfter (ops.take n) table).answer q }
  | _ => none

/-- **No crosstalk**: take any lookup, and the last lookup before it that went to the same line
and whose own table had a route. If that one was for the same key, with no update in between (or
a multiple of `2^64` of them), the two tables answer alike. Where there is none, the lookup is not
led astray by the zero line: it is not for the zero key in epoch 0, or its answer is zero. -/
def NoCrosstalk (ops : List (Op τ)) : Prop :=
  ∀ n < ops.length, ∀ b, access ops n = some b →
    Undisturbed cacheIndex Caches.new.lines (access ops) n b

/-! ## The run as accesses to one cache -/

omit [DecidableEq τ] in
theorem updates_take_succ (ops : List (Op τ)) (n : ℕ) :
    updates (ops.take (n + 1)) = updates (ops.take n) + updates ops[n]?.toList := by
  rw [List.take_add_one, updates, List.countP_append]
  rfl

theorem access_eq_some {ops : List (Op τ)} {n : ℕ} {b : Access CacheKey Wire.Id}
    (h : access ops n = some b) :
    ∃ table q, ops[n]? = some (.lookup table q) ∧
      b = { epoch := UInt64.ofNat (1 + updates (ops.take n))
            key := q.key
            own := (tablesAfter (ops.take n) table).answer q } := by
  unfold access at h
  split at h
  · next table q hop => exact ⟨table, q, hop, (Option.some.inj h).symm⟩
  · cases h

namespace Thread

/-- The state before call `n`: the tables and the epoch are what the updates made them, and the
caches are those that the accesses leave. -/
theorem run_take (ops : List (Op τ)) (n : ℕ) :
    (run (ops.take n)).tables = tablesAfter (ops.take n) ∧
      (run (ops.take n)).epoch = UInt64.ofNat (1 + updates (ops.take n)) ∧
      (run (ops.take n)).caches.lines =
        cacheAt cacheIndex Caches.new.lines (access ops) n := by
  induction n with
  | zero => exact ⟨rfl, rfl, rfl⟩
  | succ n ih =>
    obtain ⟨htables, hepoch, hlines⟩ := ih
    rw [updates_take_succ, List.take_add_one, cacheAt, access]
    simp only [run, tablesAfter, List.foldl_append] at htables hepoch hlines ⊢
    cases hop : ops[n]? with
    | none => exact ⟨htables, hepoch, hlines⟩
    | some op =>
      cases op with
      | write table w =>
        refine ⟨?_, ?_, hlines⟩
        · simp only [Option.toList_some, List.foldl_cons, List.foldl_nil, step, htables]
        · simp only [Option.toList_some, List.foldl_cons, List.foldl_nil, step, hepoch]
          exact (UInt64.ofNat_add _ 1).symm
      | lookup table q =>
        refine ⟨htables, hepoch, ?_⟩
        simp only [Option.toList_some, List.foldl_cons, List.foldl_nil, step]
        rw [← hlines, ← hepoch, ← htables]
        exact congrArg Prod.snd (Table.lookup_eq _ _ _ _)

/-- The lookup of call `n` answers its table's own answer. -/
theorem answer_eq_iff (ops : List (Op τ)) (n : ℕ) :
    (∀ table q, ops[n]? = some (.lookup table q) →
      (run (ops.take n)).answer table q = (tablesAfter (ops.take n) table).answer q) ↔
      AnswersOwn cacheIndex Caches.new.lines (access ops) n := by
  obtain ⟨htables, hepoch, hlines⟩ := run_take ops n
  have hanswer : ∀ table q, (run (ops.take n)).answer table q =
      ((cacheAt cacheIndex Caches.new.lines (access ops) n).lookup cacheIndex
        { epoch := UInt64.ofNat (1 + updates (ops.take n))
          key := q.key
          own := (tablesAfter (ops.take n) table).answer q }).1 := by
    intro table q
    rw [← hlines, ← hepoch, ← htables]
    exact congrArg Prod.fst (Table.lookup_eq _ _ _ _)
  unfold AnswersOwn
  constructor
  · intro h b hb
    obtain ⟨table, q, hop, rfl⟩ := access_eq_some hb
    rw [← hanswer, h table q hop]
  · intro h table q hop
    rw [hanswer]
    exact h _ (by rw [access, hop])

end Thread

/-! ## One table -/

omit [DecidableEq τ] in
theorem updates_take_mono (ops : List (Op τ)) : Monotone fun n => updates (ops.take n) :=
  fun _ _ h => (List.take_prefix_take_left h).sublist.countP_le

omit [DecidableEq τ] in
theorem updates_take_le (ops : List (Op τ)) (n : ℕ) : updates (ops.take n) ≤ updates ops :=
  (List.take_sublist n ops).countP_le

/-- Between calls with the same number of updates before them no table changes. -/
theorem tablesAfter_take_of_updates_eq {ops : List (Op τ)} {j n : ℕ} (hjn : j ≤ n)
    (h : updates (ops.take n) = updates (ops.take j)) :
    tablesAfter (ops.take n) = tablesAfter (ops.take j) := by
  induction n, hjn using Nat.le_induction with
  | base => rfl
  | succ n hjn ih =>
    have hmono := updates_take_mono ops hjn
    rw [updates_take_succ] at h
    simp only at hmono
    rw [← ih (by omega), List.take_add_one, tablesAfter, List.foldl_append]
    cases hop : ops[n]? with
    | none => rfl
    | some op =>
      cases op with
      | write table w =>
        have hone : updates ((some (Op.write table w)).toList) = 1 := rfl
        rw [hop, hone] at h
        omega
      | lookup table q => rfl

/-- **The caches are transparent** for one table, up to `2^64 - 2` updates: every lookup answers
what the table itself does. -/
theorem answer_eq_of_subsingleton [Subsingleton τ] {ops : List (Op τ)}
    (hops : updates ops < 2 ^ 64 - 1) {n : ℕ} {table : τ} {q : Query}
    (hop : ops[n]? = some (.lookup table q)) :
    (Thread.run (ops.take n)).answer table q = (tablesAfter (ops.take n) table).answer q := by
  have hlt : ∀ m, 1 + updates (ops.take m) < 2 ^ 64 := by
    intro m
    have := updates_take_le ops m
    omega
  have hundisturbed : ∀ m < n + 1, ∀ b, access ops m = some b →
      Undisturbed cacheIndex Caches.new.lines (access ops) m b := by
    intro m _ b hb
    obtain ⟨t', q', -, rfl⟩ := access_eq_some hb
    constructor
    · intro j hj a ha hkey hepoch _ v hv
      obtain ⟨t, q, -, rfl⟩ := access_eq_some ha
      obtain rfl := Subsingleton.elim t t'
      have hupdates : updates (ops.take m) = updates (ops.take j) := by
        have := congrArg UInt64.toNat hepoch
        rw [UInt64.toNat_ofNat', UInt64.toNat_ofNat', Nat.mod_eq_of_lt (hlt j),
          Nat.mod_eq_of_lt (hlt m)] at this
        omega
      rw [tablesAfter_take_of_updates_eq hj.le hupdates, ← Table.answer_congr _ hkey]
      exact hv
    · intro _ v hv
      have hepoch : (Caches.new.lines (cacheIndex q'.key)).epoch = 0 := by
        cases q' <;> rfl
      rw [hv] at hepoch
      have := congrArg UInt64.toNat hepoch
      rw [UInt64.toNat_ofNat', Nat.mod_eq_of_lt (hlt m), UInt64.toNat_zero] at this
      omega
  exact (Thread.answer_eq_iff ops n).mpr
    ((answersOwn_iff (n + 1)).mpr hundisturbed n n.lt_succ_self) table q hop

/-- The answer to a lookup made after the calls `ops` on one table. -/
theorem answer_run_eq [Subsingleton τ] {ops : List (Op τ)} (hops : updates ops < 2 ^ 64 - 1)
    (table : τ) (q : Query) :
    (Thread.run ops).answer table q = ((Thread.run ops).tables table).answer q := by
  have hupdates : updates (ops ++ [Op.lookup table q]) = updates ops := by
    rw [updates, List.countP_append]
    rfl
  have hlast : (ops ++ [Op.lookup table q])[ops.length]? = some (.lookup table q) := by
    rw [List.getElem?_append_right le_rfl, Nat.sub_self]
    rfl
  have hanswer := answer_eq_of_subsingleton (by rw [hupdates]; exact hops) hlast
  have htables := (Thread.run_take ops ops.length).1
  rw [List.take_length] at htables
  rwa [List.take_left, ← htables] at hanswer

/-- The updates and removals among the calls on one table. -/
def writes (ops : List (Op Unit)) : List Table.Write :=
  ops.filterMap fun
    | .write _ w => some w
    | .lookup _ _ => none

theorem tablesAfter_eq_ofWrites (ops : List (Op Unit)) :
    tablesAfter ops () = Table.ofWrites (writes ops) := by
  induction ops using List.reverseRecOn with
  | nil => rfl
  | append_singleton ops op ih =>
    rw [tablesAfter, List.foldl_append, writes, List.filterMap_append]
    cases op with
    | write table w =>
      have hwrite := Table.ofWrites_append_singleton (writes ops) w
      rw [← ih] at hwrite
      refine Eq.trans ?_ hwrite.symm
      exact Function.update_self () ((tablesAfter ops ()).write w) (tablesAfter ops)
    | lookup table q => exact ih.trans (congrArg _ (List.append_nil _).symm)

/-- The table after the calls is that of its updates. -/
theorem tables_run (ops : List (Op Unit)) :
    (Thread.run ops).tables () = Table.ofWrites (writes ops) := by
  have htables := (Thread.run_take ops ops.length).1
  rw [List.take_length] at htables
  rw [htables, tablesAfter_eq_ofWrites]

/-! ## When the epoch comes back to zero -/

/-- The calls that only write. -/
def writeCalls (ws : List Table.Write) : List (Op Unit) := ws.map (.write ())

@[simp] theorem writes_writeCalls (ws : List Table.Write) : writes (writeCalls ws) = ws := by
  rw [writes, writeCalls, List.filterMap_map]
  exact List.filterMap_some

@[simp] theorem updates_writeCalls (ws : List Table.Write) :
    updates (writeCalls ws) = ws.length := by
  rw [updates, writeCalls, List.countP_map]
  exact List.countP_eq_length.mpr fun _ _ => rfl

/-- Writes leave the zero-initialised caches of the thread as they are. -/
theorem caches_run_writeCalls (ws : List Table.Write) :
    (Thread.run (writeCalls ws)).caches = Caches.new := by
  induction ws using List.reverseRecOn with
  | nil => rfl
  | append_singleton ws w ih =>
    rw [writeCalls, List.map_append, Thread.run, List.foldl_append]
    exact ih

/-- After `2^64 - 1` updates the epoch is that of the zero-initialised lines. -/
theorem epoch_run_writeCalls {ws : List Table.Write} (hws : ws.length = 2 ^ 64 - 1) :
    (Thread.run (writeCalls ws)).epoch = 0 := by
  have hepoch := (Thread.run_take (writeCalls ws) (writeCalls ws).length).2.1
  rw [List.take_length, updates_writeCalls, hws] at hepoch
  exact hepoch

/-- The zero line then answers for the zero key, whatever the table holds. -/
theorem answer_run_writeCalls {ws : List Table.Write} (hws : ws.length = 2 ^ 64 - 1) {q : Query}
    (hq : Caches.new.check 0 q = some zeroId) :
    (Thread.run (writeCalls ws)).answer () q = some zeroId := by
  rw [Thread.answer, Table.lookup, caches_run_writeCalls, epoch_run_writeCalls hws, hq]

/-! ## Any number of tables -/

/-- **Tables are isolated** in exactly the runs without crosstalk: there every lookup answers what
its own table's live route says. -/
theorem noCrosstalk_iff (ops : List (Op τ)) :
    (∀ n table q, ops[n]? = some (.lookup table q) →
      (Thread.run (ops.take n)).answer table q = (tablesAfter (ops.take n) table).answer q) ↔
      NoCrosstalk ops := by
  rw [NoCrosstalk, ← answersOwn_iff]
  constructor
  · intro h n _
    exact (Thread.answer_eq_iff ops n).mp (h n)
  · intro h n
    by_cases hn : n < ops.length
    · exact (Thread.answer_eq_iff ops n).mpr (h n hn)
    · intro table q hop
      rw [List.getElem?_eq_none (Nat.le_of_not_lt hn)] at hop
      cases hop

/-! ## A lookup on an empty table -/

/-- One table gets a route and is asked for it, then the other table is asked. -/
def routedThenEmpty : List (Op Bool) :=
  [.write false (.update (zeroDestRoute 1)), .lookup false (.nextHop zeroId 0),
    .lookup true (.nextHop zeroId 0)]

/-- The empty table answers with the route of the other one. -/
theorem answer_fails_own :
    ¬ ∀ ops : List (Op Bool), updates ops < 2 ^ 64 →
      ∀ n table q, ops[n]? = some (.lookup table q) →
        (Thread.run (ops.take n)).answer table q = (tablesAfter (ops.take n) table).answer q := by
  intro h
  have hempty := h routedThenEmpty (by decide) 2 true (.nextHop zeroId 0) rfl
  exact absurd hempty (by decide +kernel)

end SmipMwp.Routing
