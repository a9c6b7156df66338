import SmipMwp.Crypto.HkdfCache

/-!
# The HKDF cache among threads

`prederive_session` and `HybridSession::new` look into the cache under its read lock, derive without
a lock, and insert under the write lock, so calls of several threads interleave: two may both miss,
and the one that inserts last overwrites the other. A call that comes alone does what the sequential
one does (`step_step`).

Races do no harm of their own. Every call works with material of its own secret and info, whatever
the interleaving, exactly if no two calls with one cache key derive different material
(`transparent_iff`); that is the condition for calls one after another as well.
-/

namespace SmipMwp.Crypto

/-- How far a call has come. `done` has its result, with the entry that `new` makes its session
of. -/
inductive CacheStage
  | start
  | derived (entry : CacheEntry)
  | done (result : Except SessionError (Option CacheEntry))

/-- The steps that a call has behind it, where one that is over has both. -/
def CacheStage.steps : CacheStage → ℕ
  | start => 0
  | derived _ => 1
  | done _ => 2

section

variable (hkdf : HkdfSha256) (deriveCacheKey : Bytes → Bytes → UInt64)

namespace CacheCall

def cacheKey : CacheCall → UInt64
  | prederive secret info => deriveCacheKey secret info
  | new secret info => deriveCacheKey secret info

/-- The call up to the insertion: a rejection, a hit, or a derivation. -/
def begin (cache : HkdfCache) : CacheCall → CacheStage
  | prederive secret info =>
    if secret.isEmpty || info.isEmpty then .done (.error .bufferTooSmall)
    else if cache.contains (deriveCacheKey secret info) then .done (.ok none)
    else
      match deriveSessionMaterial hkdf secret info with
      | .ok entry => .derived entry
      | .error e => .done (.error e)
  | new secret info =>
    match cache[deriveCacheKey secret info]? with
    | some entry => .done (.ok (some entry))
    | none =>
      match deriveSessionMaterial hkdf secret info with
      | .ok entry => .derived entry
      | .error e => .done (.error e)

/-- What the call returns once it has inserted its entry. -/
def inserted (entry : CacheEntry) : CacheCall → Option CacheEntry
  | prederive _ _ => none
  | new _ _ => some entry

end CacheCall

end

/-- The cache and the calls that are under way. -/
structure CacheRace (ι : Type*) where
  cache : HkdfCache := {}
  stage : ι → CacheStage := fun _ => .start

namespace CacheRace

variable {ι : Type*} [DecidableEq ι]

section

variable (hkdf : HkdfSha256) (deriveCacheKey : Bytes → Bytes → UInt64) (calls : ι → CacheCall)

/-- The next step of the call `i`. -/
def step (s : CacheRace ι) (i : ι) : CacheRace ι :=
  match s.stage i with
  | .start =>
    { s with stage := Function.update s.stage i ((calls i).begin hkdf deriveCacheKey s.cache) }
  | .derived entry =>
    { cache := s.cache.insert ((calls i).cacheKey deriveCacheKey) entry
      stage := Function.update s.stage i (.done (.ok ((calls i).inserted entry))) }
  | .done _ => s

/-- The steps of calls in the order of a schedule, from an empty cache. -/
def run (schedule : List ι) : CacheRace ι := schedule.foldl (step hkdf deriveCacheKey calls) {}

end

variable {hkdf : HkdfSha256} {deriveCacheKey : Bytes → Bytes → UInt64} {calls : ι → CacheCall}

/-- What a call writes, if it is not rejected, has the cache key of the call. -/
theorem write_eq_of_args {call : CacheCall} {secret info : Bytes} {m : CacheEntry}
    (hargs : call.args = some (secret, info))
    (hm : deriveSessionMaterial hkdf secret info = .ok m) :
    call.write hkdf deriveCacheKey = some (deriveCacheKey secret info, m) := by
  rw [CacheCall.write, hargs, Option.bind_some]
  simp only [hm]

/-- A call to `new` that begins takes the cached entry, or has derived what it is to write. -/
theorem begin_new (hkdf : HkdfSha256) (deriveCacheKey : Bytes → Bytes → UInt64) (cache : HkdfCache)
    (secret info : Bytes) :
    (∃ entry, (CacheCall.new secret info).begin hkdf deriveCacheKey cache =
        .done (.ok (some entry)) ∧ cache[deriveCacheKey secret info]? = some entry) ∨
    (∃ entry, (CacheCall.new secret info).begin hkdf deriveCacheKey cache = .derived entry ∧
      (CacheCall.new secret info).write hkdf deriveCacheKey =
        some (deriveCacheKey secret info, entry)) := by
  obtain ⟨m, hm, -⟩ := deriveSessionMaterial_eq_ok hkdf secret info
  simp only [CacheCall.begin, hm]
  cases cache[deriveCacheKey secret info]? with
  | some entry => exact .inl ⟨entry, rfl, rfl⟩
  | none => exact .inr ⟨m, rfl, write_eq_of_args rfl hm⟩

/-- What a call has derived when it begins is what it is to write. -/
theorem write_of_begin_eq_derived {cache : HkdfCache} {call : CacheCall} {entry : CacheEntry}
    (h : call.begin hkdf deriveCacheKey cache = .derived entry) :
    call.write hkdf deriveCacheKey = some (call.cacheKey deriveCacheKey, entry) := by
  cases call with
  | prederive secret info =>
    obtain ⟨m, hm, -⟩ := deriveSessionMaterial_eq_ok hkdf secret info
    simp only [CacheCall.begin, hm] at h
    split_ifs at h with hempty hhit
    obtain rfl := CacheStage.derived.inj h
    exact write_eq_of_args (if_neg hempty) hm
  | new secret info =>
    obtain ⟨m, hdone, -⟩ | ⟨m, hderived, hwrite⟩ := begin_new hkdf deriveCacheKey cache secret info
    · rw [hdone] at h
      cases h
    · rw [hderived] at h
      obtain rfl := CacheStage.derived.inj h
      exact hwrite

theorem begin_ne_start (hkdf : HkdfSha256) (deriveCacheKey : Bytes → Bytes → UInt64)
    (cache : HkdfCache) (call : CacheCall) : call.begin hkdf deriveCacheKey cache ≠ .start := by
  cases call with
  | prederive secret info =>
    obtain ⟨m, hm, -⟩ := deriveSessionMaterial_eq_ok hkdf secret info
    simp only [CacheCall.begin, hm]
    split_ifs <;> simp
  | new secret info =>
    obtain ⟨m, hbegin, -⟩ | ⟨m, hbegin, -⟩ := begin_new hkdf deriveCacheKey cache secret info
    · simp [hbegin]
    · simp [hbegin]

/-- Of a call that writes, the first step on an empty cache is the derivation. -/
theorem begin_empty {call : CacheCall} {k : UInt64} {entry : CacheEntry}
    (h : call.write hkdf deriveCacheKey = some (k, entry)) :
    call.cacheKey deriveCacheKey = k ∧ call.begin hkdf deriveCacheKey {} = .derived entry := by
  cases call with
  | prederive secret info =>
    obtain ⟨m, hm, -⟩ := deriveSessionMaterial_eq_ok hkdf secret info
    by_cases hempty : (secret.isEmpty || info.isEmpty) = true
    · rw [CacheCall.write, CacheCall.args, if_pos hempty] at h
      cases h
    · have hargs : (CacheCall.prederive secret info).args = some (secret, info) := if_neg hempty
      rw [write_eq_of_args hargs hm] at h
      obtain ⟨rfl, rfl⟩ := Prod.mk.inj (Option.some.inj h)
      refine ⟨rfl, ?_⟩
      simp only [CacheCall.begin, hm, if_neg hempty, Std.HashMap.contains_empty]
      rfl
  | new secret info =>
    obtain ⟨m, hm, -⟩ := deriveSessionMaterial_eq_ok hkdf secret info
    rw [write_eq_of_args rfl hm] at h
    obtain ⟨rfl, rfl⟩ := Prod.mk.inj (Option.some.inj h)
    refine ⟨rfl, ?_⟩
    simp only [CacheCall.begin, hm, Std.HashMap.getElem?_empty]

/-! ## One step -/

variable {s : CacheRace ι} {i j : ι}

@[simp] theorem stage_step_of_ne (hij : j ≠ i) :
    (step hkdf deriveCacheKey calls s i).stage j = s.stage j := by
  unfold step
  split
  · exact Function.update_of_ne hij ..
  · exact Function.update_of_ne hij ..
  · rfl

theorem stage_step_of_start (h : s.stage i = .start) :
    (step hkdf deriveCacheKey calls s i).stage i =
      (calls i).begin hkdf deriveCacheKey s.cache := by
  rw [step, h]
  exact Function.update_self ..

theorem cache_step_of_start (h : s.stage i = .start) :
    (step hkdf deriveCacheKey calls s i).cache = s.cache := by
  rw [step, h]

theorem stage_step_of_derived {entry : CacheEntry} (h : s.stage i = .derived entry) :
    (step hkdf deriveCacheKey calls s i).stage i =
      .done (.ok ((calls i).inserted entry)) := by
  rw [step, h]
  exact Function.update_self ..

theorem cache_step_of_derived {entry : CacheEntry} (h : s.stage i = .derived entry) :
    (step hkdf deriveCacheKey calls s i).cache =
      s.cache.insert ((calls i).cacheKey deriveCacheKey) entry := by
  rw [step, h]

theorem step_of_done {result : Except SessionError (Option CacheEntry)}
    (h : s.stage i = .done result) : step hkdf deriveCacheKey calls s i = s := by
  rw [step, h]

/-! ## A call that comes alone -/

/-- Two steps of a call without another in between leave the cache that the sequential call
leaves. -/
theorem step_step (hstart : s.stage i = .start) :
    (step hkdf deriveCacheKey calls (step hkdf deriveCacheKey calls s i) i).cache =
      (calls i).step hkdf deriveCacheKey s.cache := by
  have hstage : (step hkdf deriveCacheKey calls s i).stage i =
      (calls i).begin hkdf deriveCacheKey s.cache := stage_step_of_start hstart
  have hcache : (step hkdf deriveCacheKey calls s i).cache = s.cache := cache_step_of_start hstart
  cases hcall : calls i with
  | prederive secret info =>
    obtain ⟨m, hm, -⟩ := deriveSessionMaterial_eq_ok hkdf secret info
    simp only [hcall, CacheCall.begin, hm] at hstage
    simp only [CacheCall.step, prederiveSession, hm]
    split_ifs at hstage ⊢ with hempty hhit
    · rw [step_of_done hstage, hcache]
    · rw [step_of_done hstage, hcache]
    · rw [cache_step_of_derived hstage, hcache, hcall]
      rfl
  | new secret info =>
    obtain ⟨m, hm, -⟩ := deriveSessionMaterial_eq_ok hkdf secret info
    simp only [hcall, CacheCall.begin, hm] at hstage
    simp only [CacheCall.step, sessionMaterial, hm]
    cases hget : s.cache[deriveCacheKey secret info]? with
    | some entry =>
      rw [hget] at hstage
      rw [step_of_done hstage, hcache]
    | none =>
      rw [hget] at hstage
      rw [cache_step_of_derived hstage, hcache, hcall]
      rfl

/-! ## Any interleaving -/

/-- Every entry was derived by some call with its cache key, and a call to `new` that is over has
such an entry. -/
structure Inv (hkdf : HkdfSha256) (deriveCacheKey : Bytes → Bytes → UInt64) (calls : ι → CacheCall)
    (s : CacheRace ι) : Prop where
  cache : ∀ k entry, s.cache[k]? = some entry →
    ∃ j, (calls j).write hkdf deriveCacheKey = some (k, entry)
  derived : ∀ i entry, s.stage i = .derived entry →
    (calls i).write hkdf deriveCacheKey = some ((calls i).cacheKey deriveCacheKey, entry)
  done : ∀ i secret info result, calls i = .new secret info → s.stage i = .done result →
    ∃ entry, result = .ok (some entry) ∧
      ∃ j, (calls j).write hkdf deriveCacheKey = some (deriveCacheKey secret info, entry)

namespace Inv

theorem step (h : Inv hkdf deriveCacheKey calls s) (i : ι) :
    Inv hkdf deriveCacheKey calls (step hkdf deriveCacheKey calls s i) := by
  cases hstage : s.stage i with
  | done result => rwa [step_of_done hstage]
  | start =>
    have hnext : (CacheRace.step hkdf deriveCacheKey calls s i).stage i =
        (calls i).begin hkdf deriveCacheKey s.cache := stage_step_of_start hstage
    refine ⟨?_, fun j entry hj => ?_, fun j secret info result hcall hj => ?_⟩
    · rw [cache_step_of_start hstage]
      exact h.cache
    · by_cases hji : j = i
      · rw [hji, hnext] at hj
        exact hji ▸ write_of_begin_eq_derived hj
      · rw [stage_step_of_ne hji] at hj
        exact h.derived j entry hj
    · by_cases hji : j = i
      · subst hji
        rw [hnext, hcall] at hj
        obtain ⟨m, hdone, hhit⟩ | ⟨m, hderived, -⟩ :=
          begin_new hkdf deriveCacheKey s.cache secret info
        · rw [hdone] at hj
          exact ⟨m, (CacheStage.done.inj hj).symm, h.cache _ m hhit⟩
        · rw [hderived] at hj
          cases hj
      · rw [stage_step_of_ne hji] at hj
        exact h.done j secret info result hcall hj
  | derived m =>
    have hwrite := h.derived i m hstage
    have hnext : (CacheRace.step hkdf deriveCacheKey calls s i).stage i =
        .done (.ok ((calls i).inserted m)) := stage_step_of_derived hstage
    refine ⟨fun k entry hk => ?_, fun j entry hj => ?_, fun j secret info result hcall hj => ?_⟩
    · rw [cache_step_of_derived hstage, Std.HashMap.getElem?_insert] at hk
      split_ifs at hk with hkey
      · obtain rfl := Option.some.inj hk
        exact ⟨i, eq_of_beq hkey ▸ hwrite⟩
      · exact h.cache k entry hk
    · by_cases hji : j = i
      · rw [hji, hnext] at hj
        cases hj
      · rw [stage_step_of_ne hji] at hj
        exact h.derived j entry hj
    · by_cases hji : j = i
      · subst hji
        rw [hnext, hcall] at hj
        rw [hcall] at hwrite
        exact ⟨m, (CacheStage.done.inj hj).symm, j, hcall ▸ hwrite⟩
      · rw [stage_step_of_ne hji] at hj
        exact h.done j secret info result hcall hj

end Inv

theorem run_append_singleton (schedule : List ι) (i : ι) :
    run hkdf deriveCacheKey calls (schedule ++ [i]) =
      step hkdf deriveCacheKey calls (run hkdf deriveCacheKey calls schedule) i := by
  rw [run, List.foldl_append]
  rfl

theorem inv_run (schedule : List ι) :
    Inv hkdf deriveCacheKey calls (run hkdf deriveCacheKey calls schedule) := by
  have hempty : Inv hkdf deriveCacheKey calls ({} : CacheRace ι) :=
    { cache := fun k entry hk => by simp at hk
      derived := fun i entry hi => by cases hi
      done := fun i secret info result hcall hi => by cases hi }
  induction schedule using List.reverseRecOn with
  | nil => exact hempty
  | append_singleton schedule i ih =>
    rw [run_append_singleton]
    exact ih.step i

/-- Calls with one secret and info find their own material in the cache, or none, at any point of
any interleaving. -/
theorem fst_sessionMaterial_run (hkdf : HkdfSha256) (deriveCacheKey : Bytes → Bytes → UInt64)
    (secret info : Bytes) (schedule : List ι) :
    (sessionMaterial hkdf deriveCacheKey
        (run hkdf deriveCacheKey (fun _ => .new secret info) schedule).cache secret info).1 =
      deriveSessionMaterial hkdf secret info := by
  obtain ⟨m, hm, -⟩ := deriveSessionMaterial_eq_ok hkdf secret info
  unfold sessionMaterial
  cases hget : (run hkdf deriveCacheKey (fun _ => .new secret info)
      schedule).cache[deriveCacheKey secret info]? with
  | some entry =>
    obtain ⟨-, hwrite⟩ := (inv_run schedule).cache _ _ hget
    rw [write_eq_of_args rfl hm] at hwrite
    obtain ⟨-, rfl⟩ := Prod.mk.inj (Option.some.inj hwrite)
    simp only [hget, hm]
  | none => simp only [hget, hm]

/-! ## Every call ends -/

/-- A call that is not over comes a step further. -/
theorem min_steps_le (hkdf : HkdfSha256) (deriveCacheKey : Bytes → Bytes → UInt64)
    (calls : ι → CacheCall) (s : CacheRace ι) (i : ι) :
    min 2 ((s.stage i).steps + 1) ≤ ((step hkdf deriveCacheKey calls s i).stage i).steps := by
  cases hstage : s.stage i with
  | start =>
    rw [stage_step_of_start hstage]
    cases hbegin : (calls i).begin hkdf deriveCacheKey s.cache with
    | start => exact absurd hbegin (begin_ne_start _ _ _ _)
    | derived entry => simp [CacheStage.steps]
    | done result => simp [CacheStage.steps]
  | derived entry =>
    rw [stage_step_of_derived hstage]
    simp [CacheStage.steps]
  | done result =>
    rw [step_of_done hstage, hstage]
    exact min_le_left ..

/-- A call is over with its second step at the latest. -/
theorem min_count_le_steps (hkdf : HkdfSha256) (deriveCacheKey : Bytes → Bytes → UInt64)
    (calls : ι → CacheCall) (schedule : List ι) (i : ι) :
    min 2 (schedule.count i) ≤ ((run hkdf deriveCacheKey calls schedule).stage i).steps := by
  induction schedule using List.reverseRecOn with
  | nil => exact Nat.zero_le _
  | append_singleton schedule j ih =>
    rw [run_append_singleton, List.count_append]
    by_cases hij : i = j
    · subst hij
      have hstep :=
        min_steps_le hkdf deriveCacheKey calls (run hkdf deriveCacheKey calls schedule) i
      rw [List.count_singleton_self]
      omega
    · rw [stage_step_of_ne hij, List.count_singleton, if_neg (by simpa using Ne.symm hij)]
      exact ih

/-- **What calls work with, in any interleaving.** Every call to `new` that takes its steps makes
its session of the material of its own secret and info, in whatever order the steps of the calls
come, exactly if every call with its cache key derives the same. -/
theorem transparent_iff (hkdf : HkdfSha256) (deriveCacheKey : Bytes → Bytes → UInt64)
    (calls : ι → CacheCall) :
    (∀ schedule i secret info, calls i = .new secret info → 2 ≤ schedule.count i →
      (run hkdf deriveCacheKey calls schedule).stage i =
        .done ((deriveSessionMaterial hkdf secret info).map some)) ↔
      ∀ i j secret info entry, calls i = .new secret info →
        (calls j).write hkdf deriveCacheKey = some (deriveCacheKey secret info, entry) →
          deriveSessionMaterial hkdf secret info = .ok entry := by
  constructor
  · intro h i j secret info entry hcall hwrite
    by_cases hij : i = j
    · subst hij
      obtain ⟨m, hm, -⟩ := deriveSessionMaterial_eq_ok hkdf secret info
      rw [hcall, write_eq_of_args rfl hm] at hwrite
      obtain ⟨-, rfl⟩ := Prod.mk.inj (Option.some.inj hwrite)
      exact hm
    -- `j` alone fills the cache, and `i` then takes its entry
    obtain ⟨hkey, hbegin⟩ := begin_empty hwrite
    let s₁ := step hkdf deriveCacheKey calls {} j
    let s₂ := step hkdf deriveCacheKey calls s₁ j
    have hstage₁ : s₁.stage j = .derived entry := by rw [stage_step_of_start rfl, hbegin]
    have hcache₂ : s₂.cache[deriveCacheKey secret info]? = some entry := by
      rw [cache_step_of_derived hstage₁, hkey, Std.HashMap.getElem?_insert_self]
    have hstage₂ : s₂.stage i = .start := by
      rw [stage_step_of_ne hij, stage_step_of_ne hij]
    have hstage₃ : (run hkdf deriveCacheKey calls [j, j, i, i]).stage i =
        .done (.ok (some entry)) := by
      change (step hkdf deriveCacheKey calls (step hkdf deriveCacheKey calls s₂ i) i).stage i = _
      have hdone : (step hkdf deriveCacheKey calls s₂ i).stage i = .done (.ok (some entry)) := by
        rw [stage_step_of_start hstage₂, hcall, CacheCall.begin, hcache₂]
      rw [step_of_done hdone, hdone]
    obtain ⟨m, hm, -⟩ := deriveSessionMaterial_eq_ok hkdf secret info
    have hi := h [j, j, i, i] i secret info hcall (by simp [Ne.symm hij])
    rw [hstage₃, hm] at hi
    rw [hm, Option.some.inj (Except.ok.inj (CacheStage.done.inj hi))]
  · intro h schedule i secret info hcall hcount
    obtain ⟨result, hdone⟩ : ∃ result,
        (run hkdf deriveCacheKey calls schedule).stage i = .done result := by
      have hsteps := min_count_le_steps hkdf deriveCacheKey calls schedule i
      rw [min_eq_left hcount] at hsteps
      cases hstage : (run hkdf deriveCacheKey calls schedule).stage i with
      | start =>
        rw [hstage] at hsteps
        exact absurd hsteps (by decide)
      | derived entry =>
        rw [hstage] at hsteps
        exact absurd hsteps (by decide : ¬ 2 ≤ 1)
      | done result => exact ⟨result, rfl⟩
    obtain ⟨entry, rfl, j, hwrite⟩ := (inv_run schedule).done i secret info result hcall hdone
    rw [hdone, h i j secret info entry hcall hwrite]
    rfl

end CacheRace

end SmipMwp.Crypto
