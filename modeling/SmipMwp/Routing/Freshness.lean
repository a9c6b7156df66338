import SmipMwp.Routing.Cache
import SmipMwp.Routing.Interleaving

/-!
# Lookups during updates

Several threads look routes up in one table while calls update it. A lookup takes up to four
steps: it loads the epoch, checks its cache, reads the shard, and fills the line. A call takes the
four of `Phase`. A schedule is any sequence of such steps; a step of a call or a lookup that has
none left does nothing.

The epoch is incremented last, after the shard is written, and loaded first, before the shard is
read. A line filled in an epoch therefore holds what some shard state since the start of that
epoch had (`sourced_lines`), and a lookup that starts after an update has returned cannot see an
older one (`lookup_fresh`), as long as the epoch has not come back to the zero of an empty line.
-/

namespace SmipMwp.Routing

open Wire (Id)

/-- Where a thread is in its lookup. -/
inductive Reader
  | idle
  | invoked (q : Query)
  | loaded (q : Query) (epoch : UInt64)
  | missed (q : Query) (epoch : UInt64)
  | found (q : Query) (epoch : UInt64) (nh : Id)
  deriving DecidableEq

namespace Reader

/-- The next step of a lookup: where it is then, the caches of the thread, and the answer if it
returns. The source holds the lock of the shard until the line is filled; that writers may come
in between here only adds interleavings. -/
def step (r : Reader) (s : Shared) (c : Caches) : Reader × Caches × Option (Option Id) :=
  match r with
  | idle => (idle, c, none)
  | invoked q => (loaded q s.epoch, c, none)
  | loaded q epoch =>
    match c.check epoch q with
    | some nh => (idle, c, some (some nh))
    | none => (missed q epoch, c, none)
  | missed q epoch =>
    match s.table.answer q with
    | some nh => (found q epoch nh, c, none)
    | none => (idle, c, some none)
  | found q epoch nh => (idle, c.fill epoch q nh, some (some nh))

/-- The steps of a lookup while nothing else happens, up to its answer. -/
def runAlone (s : Shared) : ℕ → Reader → Caches → Option (Option Id × Caches)
  | 0, _, _ => none
  | fuel + 1, r, c =>
    match r.step s c with
    | (_, c', some a) => some (a, c')
    | (r', c', none) => runAlone s fuel r' c'

/-- A lookup that nobody interrupts is the lookup in one piece. -/
theorem runAlone_invoked (s : Shared) (q : Query) (c : Caches) :
    runAlone s 4 (invoked q) c = some (s.table.lookup c s.epoch q) := by
  simp only [runAlone, step, Table.lookup]
  cases hc : c.check s.epoch q with
  | some nh => rfl
  | none => cases ha : s.table.answer q <;> simp only [ha]

end Reader

/-- The shared state, the steps each call still has to take, and for every thread its caches and
its lookup. -/
structure System (γ τ : Type*) where
  shared : Shared
  pending : γ → List Phase
  caches : τ → Caches
  reader : τ → Reader

/-- A step: of a call, the start of a lookup, or a step of a thread's lookup. -/
inductive Event (γ τ : Type*)
  | call (c : γ)
  | invoke (th : τ) (q : Query)
  | advance (th : τ)

section Schedules

variable {γ τ : Type*} [DecidableEq γ] [DecidableEq τ] (calls : γ → Table.Write)

namespace System

def new : System γ τ where
  shared := Shared.new
  pending := fun _ => Phase.all
  caches := fun _ => Caches.new
  reader := fun _ => .idle

def step (s : System γ τ) : Event γ τ → System γ τ
  | .call c =>
    match s.pending c with
    | [] => s
    | phase :: rest =>
      { s with
        shared := s.shared.step (calls c) phase
        pending := Function.update s.pending c rest }
  | .invoke th q =>
    match s.reader th with
    | .idle => { s with reader := Function.update s.reader th (.invoked q) }
    | _ => s
  | .advance th =>
    let next := (s.reader th).step s.shared (s.caches th)
    { s with
      reader := Function.update s.reader th next.1
      caches := Function.update s.caches th next.2.1 }

/-- One if the step is an epoch increment. -/
def increment (s : System γ τ) : Event γ τ → ℕ
  | .call c => if (s.pending c).head? = some .epoch then 1 else 0
  | _ => 0

/-! ## What a step can do -/

/-- To the shared state and the calls: nothing, or the next step of one call. -/
theorem call_cases (s : System γ τ) (e : Event γ τ) :
    ((s.step calls e).shared = s.shared ∧ (s.step calls e).pending = s.pending ∧
      s.increment e = 0) ∨
    ∃ c phase rest, e = .call c ∧ s.pending c = phase :: rest ∧
      (s.step calls e).shared = s.shared.step (calls c) phase ∧
      (s.step calls e).pending = Function.update s.pending c rest ∧
      s.increment e = if phase = .epoch then 1 else 0 := by
  cases e with
  | call c =>
    simp only [step, increment]
    cases hp : s.pending c with
    | nil => exact .inl ⟨rfl, rfl, rfl⟩
    | cons phase rest => exact .inr ⟨c, phase, rest, rfl, hp, rfl, rfl, by simp⟩
  | invoke th q =>
    simp only [step]
    cases s.reader th <;> exact .inl ⟨rfl, rfl, rfl⟩
  | advance th => exact .inl ⟨rfl, rfl, rfl⟩

/-- To a thread: nothing, the start of a lookup, or a step of its lookup. -/
theorem thread_cases (s : System γ τ) (e : Event γ τ) (th : τ) :
    ((s.step calls e).reader th = s.reader th ∧ (s.step calls e).caches th = s.caches th) ∨
    (∃ q, e = .invoke th q ∧ s.reader th = .idle ∧ (s.step calls e).reader th = .invoked q ∧
      (s.step calls e).caches th = s.caches th) ∨
    (e = .advance th ∧
      (s.step calls e).reader th = ((s.reader th).step s.shared (s.caches th)).1 ∧
      (s.step calls e).caches th = ((s.reader th).step s.shared (s.caches th)).2.1) := by
  cases e with
  | call c =>
    simp only [step]
    cases s.pending c <;> exact .inl ⟨rfl, rfl⟩
  | invoke th' q =>
    simp only [step]
    cases hr : s.reader th' with
    | idle =>
      by_cases hth : th = th'
      · subst hth
        exact .inr (.inl ⟨q, rfl, hr, Function.update_self .., rfl⟩)
      · exact .inl ⟨Function.update_of_ne hth _ _, rfl⟩
    | _ => exact .inl ⟨rfl, rfl⟩
  | advance th' =>
    by_cases hth : th = th'
    · subst hth
      exact .inr (.inr ⟨rfl, Function.update_self .., Function.update_self ..⟩)
    · exact .inl ⟨Function.update_of_ne hth _ _, Function.update_of_ne hth _ _⟩

end System

variable (sched : ℕ → Event γ τ)

/-- The state before step `n` of a schedule. -/
def run : ℕ → System γ τ
  | 0 => System.new
  | n + 1 => (run n).step calls (sched n)

/-- The number of epoch increments before step `n`. -/
def increments : ℕ → ℕ
  | 0 => 0
  | n + 1 => increments n + (run calls sched n).increment (sched n)

/-- Call `c` takes its shard step at `s` and returns with its epoch step at `i`. -/
structure Called (c : γ) (s i : ℕ) : Prop where
  shard_event : sched s = .call c
  shard_pending : (run calls sched s).pending c = Phase.all
  epoch_event : sched i = .call c
  epoch_pending : (run calls sched i).pending c = [.epoch]

/-- A lookup `q` of thread `th` starts at `j` and returns `a` at `k`. -/
structure Looked (th : τ) (q : Query) (j k : ℕ) (a : Option Id) : Prop where
  invoke_event : sched j = .invoke th q
  invoke_idle : (run calls sched j).reader th = .idle
  busy : ∀ m, j < m → m ≤ k → (run calls sched m).reader th ≠ .idle
  return_event : sched k = .advance th
  returned : (((run calls sched k).reader th).step (run calls sched k).shared
    ((run calls sched k).caches th)).2.2 = some a
  lt : j < k

/-! ## The clock -/

theorem epoch_run (n : ℕ) :
    (run calls sched n).shared.epoch = UInt64.ofNat (1 + increments calls sched n) := by
  induction n with
  | zero => rfl
  | succ n ih =>
    rw [run, increments]
    rcases (run calls sched n).call_cases calls (sched n) with
      ⟨hshared, -, hinc⟩ | ⟨c, phase, rest, -, -, hshared, -, hinc⟩
    · rw [hshared, hinc, ih, Nat.add_zero]
    · rw [hshared, hinc]
      cases phase with
      | epoch =>
        rw [Shared.step, ih, if_pos rfl]
        exact (UInt64.ofNat_add _ 1).symm
      | _ => exact ih

theorem increments_mono : Monotone (increments calls sched) :=
  monotone_nat_of_le_succ fun _ => Nat.le_add_right _ _

/-- A call has ever fewer steps to take. -/
theorem length_pending_antitone (c : γ) :
    Antitone fun n => ((run calls sched n).pending c).length := by
  refine antitone_nat_of_succ_le fun n => ?_
  simp only [run]
  rcases (run calls sched n).call_cases calls (sched n) with
    ⟨-, hpending, -⟩ | ⟨c', phase, rest, -, hp, -, hpending, -⟩
  · rw [hpending]
  · rw [hpending]
    by_cases hc : c = c'
    · subst hc
      rw [Function.update_self, hp]
      exact Nat.le_succ _
    · rw [Function.update_of_ne hc]

variable {calls sched}

/-- The shard step of a call comes before its epoch step. -/
theorem Called.lt {c : γ} {s i : ℕ} (h : Called calls sched c s i) : s < i := by
  by_contra hsi
  have := length_pending_antitone calls sched c (Nat.le_of_not_lt hsi)
  simp [h.shard_pending, h.epoch_pending, Phase.all] at this

theorem Called.increments_succ {c : γ} {s i : ℕ} (h : Called calls sched c s i) :
    increments calls sched (i + 1) = increments calls sched i + 1 := by
  rw [increments, h.epoch_event, System.increment, h.epoch_pending]
  rfl

/-! ## Where the lines come from -/

/-- What the shards of a table answer for a cache key. -/
def Table.keyAnswer (t : Table) : CacheKey → Option Id :=
  Sum.elim (fun d => t.lookupNextHop d 0) (fun key => t.lookupSprayPrimary key.1 key.2)

theorem Table.keyAnswer_key (t : Table) (q : Query) : t.keyAnswer q.key = t.answer q := by
  cases q <;> rfl

variable (calls sched)

/-- The answers over time. -/
def answers (n : ℕ) : CacheKey → Option Id := (run calls sched n).shared.table.keyAnswer

/-- The epoch that a lookup holds is not ahead of the clock, nor of the shard state in which it
found its next hop. -/
def ReaderSourced (n : ℕ) : Reader → Prop
  | .idle => True
  | .invoked _ => True
  | .loaded _ epoch => epoch.toNat ≤ 1 + increments calls sched n
  | .missed _ epoch => epoch.toNat ≤ 1 + increments calls sched n
  | .found q epoch nh => ∃ m ≤ n, answers calls sched m q.key = some nh ∧
      epoch.toNat ≤ 1 + increments calls sched m

variable {calls sched}

theorem ReaderSourced.succ {n : ℕ} {r : Reader} (h : ReaderSourced calls sched n r) :
    ReaderSourced calls sched (n + 1) r := by
  have hmono : increments calls sched n ≤ increments calls sched (n + 1) :=
    increments_mono calls sched (Nat.le_succ n)
  cases r with
  | idle => exact h
  | invoked q => exact h
  | loaded q epoch => exact Nat.le_trans h (by omega)
  | missed q epoch => exact Nat.le_trans h (by omega)
  | found q epoch nh =>
    obtain ⟨m, hm, hrest⟩ := h
    exact ⟨m, Nat.le_succ_of_le hm, hrest⟩

/-- A step of a lookup keeps the lines and the lookup sourced. -/
theorem sourced_step {n : ℕ} {r : Reader} {c : Caches}
    (hlines : ∀ i, Sourced (answers calls sched) (increments calls sched) n (c.lines i))
    (hr : ReaderSourced calls sched n r) :
    (∀ i, Sourced (answers calls sched) (increments calls sched) (n + 1)
      ((r.step (run calls sched n).shared c).2.1.lines i)) ∧
      ReaderSourced calls sched (n + 1) (r.step (run calls sched n).shared c).1 := by
  have hkeep : ∀ i, Sourced (answers calls sched) (increments calls sched) (n + 1) (c.lines i) :=
    fun i => (hlines i).mono n.le_succ
  have hr' : ReaderSourced calls sched (n + 1) r := hr.succ
  cases r with
  | idle => exact ⟨hkeep, trivial⟩
  | invoked q =>
    refine ⟨hkeep, ?_⟩
    have hmono : increments calls sched n ≤ increments calls sched (n + 1) :=
      increments_mono calls sched n.le_succ
    have hle := Nat.mod_le (1 + increments calls sched n) (2 ^ 64)
    simp only [Reader.step, ReaderSourced, epoch_run, UInt64.toNat_ofNat']
    omega
  | loaded q epoch =>
    simp only [Reader.step]
    cases c.check epoch q with
    | some nh => exact ⟨hkeep, trivial⟩
    | none => exact ⟨hkeep, hr'⟩
  | missed q epoch =>
    simp only [Reader.step]
    cases ha : (run calls sched n).shared.table.answer q with
    | some nh =>
      refine ⟨hkeep, n, n.le_succ, ?_, hr⟩
      rw [answers, Table.keyAnswer_key, ha]
    | none => exact ⟨hkeep, trivial⟩
  | found q epoch nh =>
    refine ⟨fun i => ?_, trivial⟩
    simp only [Reader.step, Caches.lines_fill, DirectMapped.fill, Function.update_apply]
    split_ifs
    · exact .inr hr'
    · exact hkeep i

variable (calls sched)

/-- **Every line is sourced**, in the caches of every thread and at all times, and so is what the
lookups in progress hold. -/
theorem sourced_lines (n : ℕ) :
    (∀ th i, Sourced (answers calls sched) (increments calls sched) n
      (((run calls sched n).caches th).lines i)) ∧
      ∀ th, ReaderSourced calls sched n ((run calls sched n).reader th) := by
  induction n with
  | zero =>
    refine ⟨fun th i => .inl ?_, fun th => trivial⟩
    rcases i with i | i <;> rfl
  | succ n ih =>
    obtain ⟨hlines, hreader⟩ := ih
    have hthread : ∀ th, (∀ i, Sourced (answers calls sched) (increments calls sched) (n + 1)
          (((run calls sched (n + 1)).caches th).lines i)) ∧
        ReaderSourced calls sched (n + 1) ((run calls sched (n + 1)).reader th) := by
      intro th
      rw [run]
      rcases (run calls sched n).thread_cases calls (sched n) th with
        ⟨hr, hc⟩ | ⟨q, -, -, hr, hc⟩ | ⟨-, hr, hc⟩
      · rw [hr, hc]
        exact ⟨fun i => (hlines th i).mono n.le_succ, (hreader th).succ⟩
      · rw [hr, hc]
        exact ⟨fun i => (hlines th i).mono n.le_succ, trivial⟩
      · rw [hr, hc]
        exact sourced_step (hlines th) (hreader th)
    exact ⟨fun th => (hthread th).1, fun th => (hthread th).2⟩

/-! ## A lookup after an update -/

/-- What the lookup `q` started at `j` holds at `n`: an epoch loaded, or a next hop found, since
it started. -/
def ReaderSince (q : Query) (j n : ℕ) : Reader → Prop
  | .idle => False
  | .invoked q' => q' = q
  | .loaded q' epoch => q' = q ∧
      ∃ l, j < l ∧ l ≤ n ∧ epoch = UInt64.ofNat (1 + increments calls sched l)
  | .missed q' _ => q' = q
  | .found _ _ nh => ∃ m, j < m ∧ m ≤ n ∧ (run calls sched m).shared.table.answer q = some nh

variable {calls sched}

theorem ReaderSince.succ {q : Query} {j n : ℕ} {r : Reader}
    (h : ReaderSince calls sched q j n r) : ReaderSince calls sched q j (n + 1) r := by
  cases r with
  | idle => exact h
  | invoked q' => exact h
  | loaded q' epoch =>
    obtain ⟨hq, l, hjl, hl, hepoch⟩ := h
    exact ⟨hq, l, hjl, Nat.le_succ_of_le hl, hepoch⟩
  | missed q' epoch => exact h
  | found q' epoch nh =>
    obtain ⟨m, hjm, hm, hanswer⟩ := h
    exact ⟨m, hjm, Nat.le_succ_of_le hm, hanswer⟩

/-- A step of the lookup that does not return. -/
theorem ReaderSince.step {q : Query} {j n : ℕ} {r : Reader} (hj : j < n)
    (h : ReaderSince calls sched q j n r) (c : Caches)
    (hbusy : (r.step (run calls sched n).shared c).1 ≠ .idle) :
    ReaderSince calls sched q j (n + 1) (r.step (run calls sched n).shared c).1 := by
  cases r with
  | idle => exact h
  | invoked q' => exact ⟨h, n, hj, n.le_succ, epoch_run calls sched n⟩
  | loaded q' epoch =>
    simp only [Reader.step] at hbusy ⊢
    cases hc : c.check epoch q' with
    | some nh => simp [hc] at hbusy
    | none => exact h.1
  | missed q' epoch =>
    obtain rfl : q' = q := h
    simp only [Reader.step] at hbusy ⊢
    cases ha : (run calls sched n).shared.table.answer q' with
    | some nh => exact ⟨n, hj, n.le_succ, ha⟩
    | none => simp [ha] at hbusy
  | found q' epoch nh => simp [Reader.step] at hbusy

theorem Looked.readerSince {th : τ} {q : Query} {j k : ℕ} {a : Option Id}
    (h : Looked calls sched th q j k a) {n : ℕ} (hjn : j < n) (hnk : n ≤ k) :
    ReaderSince calls sched q j n ((run calls sched n).reader th) := by
  induction n, hjn using Nat.le_induction with
  | base =>
    simp only [Nat.succ_eq_add_one, run, h.invoke_event, System.step, h.invoke_idle,
      Function.update_self]
    rfl
  | succ n hjn ih =>
    have hn := ih (by omega)
    have hbusy := h.busy (n + 1) (by omega) hnk
    rw [run] at hbusy ⊢
    rcases (run calls sched n).thread_cases calls (sched n) th with
      ⟨hr, -⟩ | ⟨q', -, hidle, -⟩ | ⟨-, hr, -⟩
    · rw [hr]
      exact hn.succ
    · exact absurd hidle (h.busy n hjn (by omega))
    · rw [hr] at hbusy ⊢
      exact hn.step hjn _ hbusy

/-- **No stale route after an update**: a lookup that starts after a call has returned answers
what the shards held after the call's shard step, provided the epoch has been incremented fewer
than `2^64 - 1` times, so that it has not come back to zero. -/
theorem lookup_fresh {c : γ} {s i : ℕ} (hc : Called calls sched c s i) {th : τ} {q : Query}
    {j k : ℕ} {a : Option Id} (hl : Looked calls sched th q j k a) (hij : i < j)
    (hupdates : increments calls sched k < 2 ^ 64 - 1) :
    ∃ m, s < m ∧ m ≤ k ∧ a = (run calls sched m).shared.table.answer q := by
  have hsi := hc.lt
  have hsince := hl.readerSince hl.lt le_rfl
  have hret := hl.returned
  cases hr : (run calls sched k).reader th with
  | idle => exact absurd hr (hl.busy k hl.lt le_rfl)
  | invoked q' => simp [hr, Reader.step] at hret
  | loaded q' epoch =>
    rw [hr] at hsince hret
    obtain ⟨rfl, l, hjl, hlk, hepoch⟩ := hsince
    simp only [Reader.step] at hret
    cases hcheck : ((run calls sched k).caches th).check epoch q' with
    | none => simp [hcheck] at hret
    | some nh =>
      simp only [hcheck, Option.some.injEq] at hret
      rw [Caches.check_eq, DirectMapped.check_eq_some] at hcheck
      -- the line was filled in an epoch that began after the call returned
      have hclock : increments calls sched i < increments calls sched l := by
        have hmono := increments_mono calls sched (show i + 1 ≤ l by omega)
        rw [hc.increments_succ] at hmono
        omega
      have hbound := increments_mono calls sched hlk
      obtain ⟨m, him, hmk, hanswer⟩ := ((sourced_lines calls sched k).1 th _).of_epoch_eq
        (increments_mono calls sched) hclock (by omega) (by rw [hcheck, hepoch])
      refine ⟨m, by omega, hmk, ?_⟩
      rw [hcheck, answers, Table.keyAnswer_key] at hanswer
      rw [hanswer, hret]
  | missed q' epoch =>
    rw [hr] at hsince hret
    obtain rfl : q' = q := hsince
    have hjk := hl.lt
    refine ⟨k, by omega, le_rfl, ?_⟩
    simp only [Reader.step] at hret
    cases ha : (run calls sched k).shared.table.answer q' with
    | some nh => simp [ha] at hret
    | none => simpa [ha] using hret.symm
  | found q' epoch nh =>
    rw [hr] at hsince hret
    obtain ⟨m, hjm, hmk, hanswer⟩ := hsince
    simp only [Reader.step, Option.some.injEq] at hret
    exact ⟨m, by omega, hmk, by rw [hanswer, hret]⟩

end Schedules

/-- One update, then a lookup of its destination. -/
def updateThenLookup : ℕ → Event Unit Unit := fun n =>
  if n < 4 then .call () else if n = 4 then .invoke () (.nextHop zeroId 0) else .advance ()

theorem lookup_fresh_updateThenLookup : ∃ m, 0 < m ∧ m ≤ 8 ∧
    some (Vector.replicate 32 1) = (run (fun _ => .update (zeroDestRoute 1)) updateThenLookup
      m).shared.table.answer (.nextHop zeroId 0) := by
  refine lookup_fresh (c := ()) (i := 3) (j := 4) ⟨rfl, rfl, rfl, rfl⟩
    ⟨rfl, rfl, fun m hjm hm => ?_, rfl, by decide +kernel, by decide⟩ (by decide) (by decide)
  obtain rfl | rfl | rfl | rfl : m = 5 ∨ m = 6 ∨ m = 7 ∨ m = 8 := by omega
  all_goals decide +kernel

section Schedules

variable {γ τ : Type*} [DecidableEq γ] [DecidableEq τ] {calls : γ → Table.Write}
  {sched : ℕ → Event γ τ}

/-! ## A call alone -/

/-- A step of a call leaves the lookups alone. -/
theorem run_call {n : ℕ} {c : γ} {phase : Phase} {rest : List Phase} (hev : sched n = .call c)
    (hp : (run calls sched n).pending c = phase :: rest) :
    (run calls sched (n + 1)).pending = Function.update (run calls sched n).pending c rest ∧
      (run calls sched (n + 1)).caches = (run calls sched n).caches ∧
      (run calls sched (n + 1)).reader = (run calls sched n).reader ∧
      increments calls sched (n + 1) =
        increments calls sched n + if phase = .epoch then 1 else 0 := by
  simp only [run, increments, hev, System.step, System.increment, hp, List.head?_cons,
    Option.some.injEq, and_self]

/-- The four steps of a call that nobody interrupts. -/
theorem run_alone {n : ℕ} {c : γ} (hev : ∀ t < 4, sched (n + t) = .call c)
    (hp : (run calls sched n).pending c = Phase.all) :
    Called calls sched c n (n + 3) ∧
      (run calls sched (n + 4)).pending = Function.update (run calls sched n).pending c [] ∧
      (run calls sched (n + 4)).caches = (run calls sched n).caches ∧
      (run calls sched (n + 4)).reader = (run calls sched n).reader ∧
      increments calls sched (n + 4) = increments calls sched n + 1 := by
  obtain ⟨hp₁, hc₁, hr₁, hi₁⟩ := run_call (n := n) (hev 0 (by omega)) hp
  have hp₁' : (run calls sched (n + 1)).pending c = [.main, .stats, .epoch] := by
    rw [hp₁, Function.update_self]
  obtain ⟨hp₂, hc₂, hr₂, hi₂⟩ := run_call (hev 1 (by omega)) hp₁'
  have hp₂' : (run calls sched (n + 2)).pending c = [.stats, .epoch] := by
    rw [hp₂, Function.update_self]
  obtain ⟨hp₃, hc₃, hr₃, hi₃⟩ := run_call (hev 2 (by omega)) hp₂'
  have hp₃' : (run calls sched (n + 3)).pending c = [.epoch] := by
    rw [hp₃, Function.update_self]
  obtain ⟨hp₄, hc₄, hr₄, hi₄⟩ := run_call (hev 3 (by omega)) hp₃'
  refine ⟨⟨hev 0 (by omega), hp, hev 3 (by omega), hp₃'⟩, ?_, ?_, ?_, ?_⟩
  · rw [hp₄, hp₃, hp₂, hp₁, Function.update_idem, Function.update_idem, Function.update_idem]
  · rw [hc₄, hc₃, hc₂, hc₁]
  · rw [hr₄, hr₃, hr₂, hr₁]
  · rw [hi₄, hi₃, hi₂, hi₁]
    rfl

end Schedules

/-! ## When the epoch comes back to zero -/

/-- Removals of the zero destination. -/
def removals : ℕ → Table.Write := fun _ => .remove zeroId

/-- `N` calls one after the other, then a lookup of the zero destination. -/
def callsThenLookup (N : ℕ) : ℕ → Event ℕ Unit := fun n =>
  if n < 4 * N then .call (n / 4)
  else if n = 4 * N then .invoke () (.nextHop zeroId 0)
  else .advance ()

theorem callsThenLookup_call {N m t : ℕ} (hm : m < N) (ht : t < 4) :
    callsThenLookup N (4 * m + t) = .call m := by
  rw [callsThenLookup, if_pos (by omega)]
  congr 1
  omega

/-- The state after `m` of the calls, and the last step of the next. -/
theorem run_callsThenLookup {N m : ℕ} (hm : m ≤ N) :
    (run removals (callsThenLookup N) (4 * m)).pending =
        (fun c => if c < m then [] else Phase.all) ∧
      (run removals (callsThenLookup N) (4 * m)).caches = (fun _ => Caches.new) ∧
      (run removals (callsThenLookup N) (4 * m)).reader = (fun _ => .idle) ∧
      increments removals (callsThenLookup N) (4 * m) = m := by
  induction m with
  | zero => exact ⟨rfl, rfl, rfl, rfl⟩
  | succ m ih =>
    obtain ⟨hpending, hcaches, hreader, hincrements⟩ := ih (by omega)
    obtain ⟨-, hpending', hcaches', hreader', hincrements'⟩ :=
      run_alone (n := 4 * m) (fun t ht => callsThenLookup_call hm ht)
        (by rw [hpending]; exact if_neg (lt_irrefl m))
    rw [Nat.mul_succ, hpending', hcaches', hreader', hincrements', hpending]
    refine ⟨funext fun c => ?_, hcaches, hreader, by rw [hincrements]⟩
    by_cases hc : c = m
    · subst hc; simp
    · rw [Function.update_of_ne hc]
      exact if_congr (by omega) rfl rfl

/-- The last of the calls. -/
theorem called_callsThenLookup (N : ℕ) :
    Called removals (callsThenLookup (N + 1)) N (4 * N) (4 * N + 3) := by
  obtain ⟨hpending, -⟩ := run_callsThenLookup N.le_succ
  exact (run_alone (fun t ht => callsThenLookup_call N.lt_succ_self ht)
    (by rw [hpending]; exact if_neg (lt_irrefl N))).1

/-- After `2^64 - 1` calls the lookup hits the zero line. -/
theorem looked_callsThenLookup {N : ℕ} (hN : N + 2 = 2 ^ 64) :
    Looked removals (callsThenLookup (N + 1)) () (.nextHop zeroId 0) (4 * (N + 1))
        (4 * (N + 1) + 2) (some zeroId) ∧
      increments removals (callsThenLookup (N + 1)) (4 * (N + 1) + 2) = N + 1 := by
  obtain ⟨-, hcaches, hreader, hincrements⟩ := run_callsThenLookup (le_refl (N + 1))
  generalize hn : 4 * (N + 1) = n at hcaches hreader hincrements ⊢
  have hev₀ : callsThenLookup (N + 1) n = .invoke () (.nextHop zeroId 0) := by
    rw [callsThenLookup, if_neg (by omega), if_pos hn.symm]
  have hev : ∀ t > 0, callsThenLookup (N + 1) (n + t) = .advance () := by
    intro t ht
    rw [callsThenLookup, if_neg (by omega), if_neg (by omega)]
  have hinc₁ : increments removals (callsThenLookup (N + 1)) (n + 1) = N + 1 := by
    rw [increments, hev₀, hincrements]
    rfl
  have hinc₂ : increments removals (callsThenLookup (N + 1)) (n + 2) = N + 1 := by
    rw [increments, hev 1 (by omega), hinc₁]
    rfl
  have hreader₁ : (run removals (callsThenLookup (N + 1)) (n + 1)).reader () =
      .invoked (.nextHop zeroId 0) := by
    simp only [run, hev₀, System.step, hreader, Function.update_self]
  have hreader₂ : (run removals (callsThenLookup (N + 1)) (n + 2)).reader () =
      .loaded (.nextHop zeroId 0) 0 := by
    have hepoch : (run removals (callsThenLookup (N + 1)) (n + 1)).shared.epoch = 0 := by
      rw [epoch_run, hinc₁, show 1 + (N + 1) = 2 ^ 64 by omega]
      rfl
    rw [run, hev 1 (by omega)]
    simp only [System.step, hreader₁, Reader.step, hepoch, Function.update_self]
  have hcaches₂ : (run removals (callsThenLookup (N + 1)) (n + 2)).caches () = Caches.new := by
    have hcaches₁ : (run removals (callsThenLookup (N + 1)) (n + 1)).caches () = Caches.new := by
      simp only [run, hev₀, System.step, hreader, hcaches]
    rw [run, hev 1 (by omega)]
    simp only [System.step, hreader₁, Reader.step, hcaches₁, Function.update_self]
  refine ⟨⟨hev₀, by rw [hreader], fun m hnm hm => ?_, hev 2 (by omega), ?_, by omega⟩, hinc₂⟩
  · obtain rfl | rfl : m = n + 1 ∨ m = n + 2 := by omega
    · rw [hreader₁]
      simp
    · rw [hreader₂]
      simp
  · rw [hreader₂, hcaches₂]
    rfl

/-- Removals of the zero destination leave it without a route. -/
theorem shardEntry_removals (sched : ℕ → Event ℕ Unit) (n : ℕ) :
    (run removals sched n).shared.table.shardEntry zeroId = none := by
  induction n with
  | zero => exact Std.TreeMap.getElem?_emptyc
  | succ n ih =>
    rw [run]
    rcases (run removals sched n).call_cases removals (sched n) with
      ⟨hshared, -⟩ | ⟨c, phase, rest, -, -, hshared, -⟩
    · rw [hshared, ih]
    · rw [hshared]
      cases phase with
      | shard => exact (Table.shardEntry_writeShard _ _ _).trans (if_pos rfl)
      | _ => exact ih

/-- With `2^64 - 1` updates before it, a lookup of the zero destination is answered from the zero
line, although the shards never held a route for it. -/
theorem lookup_not_fresh :
    ¬ ∀ (calls : ℕ → Table.Write) (sched : ℕ → Event ℕ Unit) (c s i : ℕ) (th : Unit) (q : Query)
      (j k : ℕ) (a : Option Id), Called calls sched c s i → Looked calls sched th q j k a →
      q.dstId = (calls c).dest → i < j → increments calls sched k < 2 ^ 64 →
      ∃ m, s < m ∧ m ≤ k ∧ a = (run calls sched m).shared.table.answer q := by
  intro h
  obtain ⟨hlooked, hincrements⟩ := looked_callsThenLookup (N := 2 ^ 64 - 2) rfl
  obtain ⟨m, -, -, ha⟩ := h _ _ _ _ _ _ _ _ _ _ (called_callsThenLookup _) hlooked rfl
    (by omega) (by rw [hincrements]; omega)
  rw [Table.answer_nextHop, Table.lookupNextHop, shardEntry_removals] at ha
  cases ha

end SmipMwp.Routing
