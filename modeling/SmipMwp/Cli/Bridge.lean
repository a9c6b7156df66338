import SmipMwp.Crypto.CacheRaces
import SmipMwp.Datapath.Forwarder
import SmipMwp.Routing.Sequential

/-!
# Bridge requests

A control request names routes and a session secret, and `main` runs forwarders for it. A request
for more than one worker gets as many forwarders, each built from the request; any other request
gets the forwarder of the demo, which knows nothing of it. The built-in secret also takes the place
of a secret that does not decode. `runBridge_honours_iff` says which requests are honoured.

Base64, HKDF and the cipher come from crates and are parts of an `Environment`, with the
configuration that is read from environment variables. The workers run in any order, so the HKDF
cache that each of them finds is an argument; in a process it is what the other workers have put
there so far (`processCaches`).
-/

namespace SmipMwp.Cli

open Crypto Routing Datapath
open Wire (Id)

/-! ## Requests -/

/-- `RuntimeConfig`, the fields that are read. -/
structure RuntimeConfig where
  iface : String
  numFrames : UInt32
  frameSize : UInt32
  batchSize : UInt32
  batchSizeMin : Option UInt32 := none
  batchSizeMax : Option UInt32 := none
  numWorkers : UInt32

structure RouteUpdate where
  destId : Id
  nextHopId : Id
  metric : Option Int32 := none

structure SessionUpdate where
  action : String
  secret : Option String := none
  info : Option String := none

structure ControlRequest where
  runtimeConfig : RuntimeConfig
  routeUpdates : List RouteUpdate := []
  sessionUpdates : List SessionUpdate := []

namespace ControlRequest

def validate (request : ControlRequest) : Except String Unit :=
  if request.runtimeConfig.iface.isEmpty then .error "bridge: runtime_config.iface is required"
  else if request.runtimeConfig.numFrames = 0 then
    .error "bridge: runtime_config.num_frames must be positive"
  else if request.runtimeConfig.frameSize = 0 then
    .error "bridge: runtime_config.frame_size must be positive"
  else if request.runtimeConfig.batchSize = 0 then
    .error "bridge: runtime_config.batch_size must be positive"
  else
    match request.runtimeConfig.batchSizeMin, request.runtimeConfig.batchSizeMax with
    | some min, some max =>
      if min > max then
        .error "bridge: runtime_config.batch_size_min cannot exceed batch_size_max"
      else .ok ()
    | _, _ => .ok ()

/-- The session update that is used: the first with the action "add". -/
def firstAdd (request : ControlRequest) : Option SessionUpdate :=
  request.sessionUpdates.find? fun update => update.action == "add"

end ControlRequest

/-- The route that an update asks for. -/
def RouteUpdate.entry (update : RouteUpdate) : RouteEntry where
  destId := update.destId
  nextHopId := update.nextHopId
  metric := update.metric.getD 1
  channelCount := 1
  alternateChannels := []
  mcrEpoch := 1

/-! ## Forwarders -/

/-- The crates and the configuration that a forwarder is made with. -/
structure Environment where
  hkdf : HkdfSha256
  deriveCacheKey : Bytes → Bytes → UInt64
  newCipher : Vector UInt8 32 → Aes256Gcm
  /-- `general_purpose::STANDARD.decode`. -/
  decodeBase64 : String → Option Bytes
  mcrEnabled : Bool
  mcrSprayMode : String
  profileEnabled : Bool
  /-- `resolve_worker_cores()`. -/
  workerCores : List ℕ

/-- `vec![0x42; 32]`. -/
def defaultSecret : Bytes := List.replicate 32 0x42

/-- `b"cli-demo"`. -/
def defaultInfo : Bytes := [99, 108, 105, 45, 100, 101, 109, 111]

/-- The bytes provided, unless there are none. -/
def providedOr (default : Bytes) : Option Bytes → Bytes
  | some provided => if provided.isEmpty then default else provided
  | none => default

structure WorkerAssignment where
  workerIndex : ℕ
  coreId : ℕ

/-- `build_worker_plan`; the index of the core is below the length of the list. -/
def buildWorkerPlan (workerCount : ℕ) (coreIds : List ℕ) : List WorkerAssignment :=
  if workerCount = 0 then []
  else
    let fallbackCores := if coreIds.isEmpty then List.range workerCount else coreIds
    (List.range workerCount).map fun workerIndex =>
      ⟨workerIndex, fallbackCores.getD (workerIndex % fallbackCores.length) 0⟩

/-- The route of `run_demo`. -/
def demoRoute : RouteEntry where
  destId := Vector.replicate 32 2
  nextHopId := Vector.replicate 32 3
  metric := 1
  channelCount := 1
  alternateChannels := []
  mcrEpoch := 1

namespace Environment

variable (env : Environment)

def secretBytes (update : SessionUpdate) : Option Bytes := update.secret.bind env.decodeBase64

def infoBytes (update : SessionUpdate) : Option Bytes := update.info.bind env.decodeBase64

/-- The session of a secret and an info, with the cache it is looked up in. -/
def session (cache : HkdfCache) (sessionSecret sessionInfo : Bytes) : Option HybridSession :=
  (HybridSession.new env.hkdf env.deriveCacheKey env.newCipher cache sessionSecret
    sessionInfo).1.toOption

/-- `Forwarder::with_session`. -/
def withSession (cache : HkdfCache) (routes : Table) (sessionSecret sessionInfo : Bytes) :
    Forwarder :=
  .withSession routes (env.session cache sessionSecret sessionInfo) env.mcrEnabled
    env.mcrSprayMode env.profileEnabled

/-- The forwarder of `run_demo`. -/
def runDemo (cache : HkdfCache) : Forwarder :=
  env.withSession cache (Table.new.updateRoute demoRoute) defaultSecret defaultInfo

/-- The secret and info that a forwarder is built with. -/
def sessionArgs (request : ControlRequest) : Bytes × Bytes :=
  match request.firstAdd with
  | some sessionUpdate =>
    (providedOr defaultSecret (env.secretBytes sessionUpdate),
      providedOr defaultInfo (env.infoBytes sessionUpdate))
  | none => (defaultSecret, defaultInfo)

def buildForwarderFromRequest (cache : HkdfCache) (request : ControlRequest) : Forwarder :=
  let routes := request.routeUpdates.foldl (fun routes update => routes.updateRoute update.entry)
    Table.new
  let (secret, info) := env.sessionArgs request
  env.withSession cache routes secret info

/-- The forwarders of `run_pinned_workers`. -/
def runPinnedWorkers (caches : ℕ → HkdfCache) (request : ControlRequest) : List Forwarder :=
  let workerCount := (max request.runtimeConfig.numWorkers 1).toNat
  (buildWorkerPlan workerCount env.workerCores).map fun assignment =>
    env.buildForwarderFromRequest (caches assignment.workerIndex) request

/-- The forwarders that `main` runs for a request, or the error it exits with. -/
def runBridge (caches : ℕ → HkdfCache) (request : ControlRequest) :
    Except String (List Forwarder) :=
  match request.validate with
  | .error err => .error err
  | .ok _ =>
    if request.runtimeConfig.numWorkers > 1 then .ok (env.runPinnedWorkers caches request)
    else .ok [env.runDemo (caches 0)]

/-- The caches that the workers of a process find. It starts with an empty cache, and its workers
all make their sessions with the secret and info of the request: worker `i` comes after those steps
of the others that `schedules i` lists. The demo runs alone. -/
def processCaches (request : ControlRequest) (schedules : ℕ → List ℕ) (i : ℕ) : HkdfCache :=
  if request.runtimeConfig.numWorkers > 1 then
    let (secret, info) := env.sessionArgs request
    (CacheRace.run env.hkdf env.deriveCacheKey (fun _ => .new secret info) (schedules i)).cache
  else {}

end Environment

/-! ## What a request asks for -/

namespace ControlRequest

/-- The route that the last update for a destination asks for. -/
def lastUpdate (request : ControlRequest) (d : Id) : Option RouteEntry :=
  (request.routeUpdates.reverse.find? fun update => update.destId == d).map RouteUpdate.entry

end ControlRequest

section Routes

variable (updates : List RouteUpdate)

/-- The updates of a request are calls of `update_route`, one after another. -/
theorem foldl_updateRoute :
    updates.foldl (fun routes update => routes.updateRoute update.entry) Table.new =
      .ofWrites (updates.map fun update => .update update.entry) := by
  rw [Table.ofWrites, List.foldl_map]
  rfl

theorem liveRoute_updates (d : Id) :
    Table.liveRoute (updates.map fun update => .update update.entry) d =
      (updates.reverse.find? fun update => update.destId == d).map RouteUpdate.entry := by
  induction updates using List.reverseRecOn with
  | nil => rfl
  | append_singleton updates update ih =>
    rw [List.map_append, List.map_singleton, Table.liveRoute_concat, ih, List.reverse_append,
      List.reverse_singleton, List.singleton_append, List.find?_cons]
    by_cases hd : update.destId = d
    · rw [beq_iff_eq.mpr hd]
      exact if_pos hd.symm
    · rw [beq_false_of_ne hd]
      exact if_neg (Ne.symm hd)

end Routes

namespace Environment

variable (env : Environment)

/-- Every secret and info makes a session. -/
theorem exists_session (cache : HkdfCache) (sessionSecret sessionInfo : Bytes) :
    ∃ S, env.session cache sessionSecret sessionInfo = some S := by
  unfold session HybridSession.new sessionMaterial
  cases hcached : cache[env.deriveCacheKey sessionSecret sessionInfo]? with
  | some entry =>
    simp only [hcached]
    exact ⟨_, rfl⟩
  | none =>
    obtain ⟨entry, hentry, -⟩ := deriveSessionMaterial_eq_ok env.hkdf sessionSecret sessionInfo
    simp only [hcached, hentry]
    exact ⟨_, rfl⟩

/-- The session that HKDF makes of a secret and an info. -/
def derivedSession (args : Bytes × Bytes) : Option HybridSession :=
  (deriveSessionMaterial env.hkdf args.1 args.2).toOption.map fun entry =>
    ⟨env.newCipher entry.key, entry.noncePrefix, entry.nonceXor⟩

/-- What a field of a session update gives. The example request of the bridge contract leaves out
the secret and the info by giving them as empty strings, base64 of no bytes. -/
def given (field : Option String) : Option String :=
  field.filter fun value => env.decodeBase64 value != some []

/-- The secret and info that a session update with the secret `s` asks for, unless one of them does
not decode. -/
def asked (update : SessionUpdate) (s : String) : Option (Bytes × Bytes) :=
  match env.given update.info with
  | some i => do some (← env.decodeBase64 s, ← env.decodeBase64 i)
  | none => do some (← env.decodeBase64 s, defaultInfo)

/-- **The request is honoured by a forwarder**: it has exactly the routes of the last updates, on
both indices, and if the first `add` gives a secret, the session derived from it and from the info
given with it. -/
structure Honours (request : ControlRequest) (r : Forwarder) : Prop where
  shards : ∀ d, r.routes.shardEntry d = request.lastUpdate d
  entries : ∀ d, r.routes.inner.entries[d]? = request.lastUpdate d
  session : ∀ update, request.firstAdd = some update → ∀ s, env.given update.secret = some s →
    ∃ args, env.asked update s = some args ∧ r.session = env.derivedSession args

/-- The secret that the first `add` gives decodes, and so does an info given with it. -/
def Decodes (request : ControlRequest) : Prop :=
  ∀ update, request.firstAdd = some update → ∀ s, env.given update.secret = some s →
    (env.decodeBase64 s).isSome ∧
      ∀ i, env.given update.info = some i → (env.decodeBase64 i).isSome

/-- The request asks for what the demo runs: its one route, and the built-in secret and info or
others that derive the same session. -/
def AsksForDemo (request : ControlRequest) : Prop :=
  (∀ d, request.lastUpdate d = if d = demoRoute.destId then some demoRoute else none) ∧
  ∀ update, request.firstAdd = some update → ∀ s, env.given update.secret = some s →
    ∃ args, env.asked update s = some args ∧
      env.derivedSession (defaultSecret, defaultInfo) = env.derivedSession args

/-- A forwarder with these routes, which found a cache that does not deceive it, honours a request
that asks for them and for a secret and info that derive its session. -/
theorem honours_withSession_iff {cache : HkdfCache} {args : Bytes × Bytes}
    (hcache : env.session cache args.1 args.2 = env.derivedSession args) (ws : List Table.Write)
    (request : ControlRequest) :
    env.Honours request (env.withSession cache (.ofWrites ws) args.1 args.2) ↔
      (∀ d, Table.liveRoute ws d = request.lastUpdate d) ∧
      ∀ update, request.firstAdd = some update → ∀ s, env.given update.secret = some s →
        ∃ args', env.asked update s = some args' ∧
          env.derivedSession args = env.derivedSession args' := by
  have hsession : (env.withSession cache (.ofWrites ws) args.1 args.2).session =
      env.derivedSession args := hcache
  constructor
  · intro h
    exact ⟨fun d => (Table.shardEntry_ofWrites_eq_liveRoute ws d).symm.trans (h.shards d),
      hsession ▸ h.session⟩
  · rintro ⟨hroutes, hargs⟩
    have hshards : ∀ d, (Table.ofWrites ws).shardEntry d = request.lastUpdate d := fun d =>
      (Table.shardEntry_ofWrites_eq_liveRoute ws d).trans (hroutes d)
    exact ⟨hshards, fun d => (Table.shardEntry_ofWrites ws d).symm.trans (hshards d),
      hsession.symm ▸ hargs⟩

/-- On a cache without the key a session is derived. -/
theorem session_empty (args : Bytes × Bytes) :
    env.session {} args.1 args.2 = env.derivedSession args := by
  unfold session HybridSession.new sessionMaterial derivedSession
  obtain ⟨m, hm, -⟩ := deriveSessionMaterial_eq_ok env.hkdf args.1 args.2
  simp only [Std.HashMap.getElem?_empty, hm]
  rfl

/-- The demo honours the requests that ask for it. -/
theorem honours_runDemo_iff (request : ControlRequest) :
    env.Honours request (env.runDemo {}) ↔ env.AsksForDemo request := by
  have hlive : ∀ d, Table.liveRoute [.update demoRoute] d =
      if d = demoRoute.destId then some demoRoute else none := fun d =>
    Table.liveRoute_concat [] (.update demoRoute) d
  have h := env.honours_withSession_iff (env.session_empty (defaultSecret, defaultInfo))
    [.update demoRoute] request
  simp only [hlive, eq_comm (a := ite _ _ _)] at h
  exact h

/-- What is provided is what is given, if it decodes. -/
theorem providedOr_eq (default : Bytes) (field : Option String) :
    providedOr default (field.bind env.decodeBase64) =
      ((env.given field).bind env.decodeBase64).getD default := by
  cases field with
  | none => rfl
  | some value =>
    rw [given, Option.filter_some, Option.bind_some]
    cases hdecode : env.decodeBase64 value with
    | none => simp [hdecode, providedOr]
    | some bytes =>
      cases bytes with
      | nil => simp [providedOr]
      | cons b bytes => simp [hdecode, providedOr]

/-- The forwarders are built with what is asked, if it decodes. -/
theorem exists_asked_iff {request : ControlRequest} {update : SessionUpdate} {s : String}
    (hadd : request.firstAdd = some update) (hs : env.given update.secret = some s) :
    (∃ args, env.asked update s = some args ∧
        env.derivedSession (env.sessionArgs request) = env.derivedSession args) ↔
      (env.decodeBase64 s).isSome ∧
        ∀ i, env.given update.info = some i → (env.decodeBase64 i).isSome := by
  have hargs : env.sessionArgs request = ((env.decodeBase64 s).getD defaultSecret,
      ((env.given update.info).bind env.decodeBase64).getD defaultInfo) := by
    simp only [sessionArgs, hadd, secretBytes, infoBytes, providedOr_eq, hs, Option.bind_some]
  rw [hargs, asked]
  cases hsecret : env.decodeBase64 s with
  | none => cases env.given update.info <;> simp
  | some secret =>
    cases env.given update.info with
    | none => simp
    | some i => cases hinfo : env.decodeBase64 i <;> simp [hinfo]

variable {env} in
/-- The workers' cache does not deceive them. -/
theorem session_processCaches {request : ControlRequest}
    (hworkers : request.runtimeConfig.numWorkers > 1) (schedules : ℕ → List ℕ) (i : ℕ) :
    env.session (env.processCaches request schedules i) (env.sessionArgs request).1
      (env.sessionArgs request).2 = env.derivedSession (env.sessionArgs request) := by
  have hmaterial := CacheRace.fst_sessionMaterial_run env.hkdf env.deriveCacheKey
    (env.sessionArgs request).1 (env.sessionArgs request).2 (schedules i)
  rw [processCaches, if_pos hworkers, session, HybridSession.new, derivedSession, ← hmaterial]
  dsimp only
  cases (sessionMaterial env.hkdf env.deriveCacheKey _ (env.sessionArgs request).1
    (env.sessionArgs request).2).1 <;> rfl

/-- A forwarder built from a request honours it if its secret and info decode. -/
theorem honours_buildForwarderFromRequest_iff {request : ControlRequest} {cache : HkdfCache}
    (hcache : env.session cache (env.sessionArgs request).1 (env.sessionArgs request).2 =
      env.derivedSession (env.sessionArgs request)) :
    env.Honours request (env.buildForwarderFromRequest cache request) ↔ env.Decodes request := by
  rw [buildForwarderFromRequest, foldl_updateRoute]
  dsimp only
  rw [env.honours_withSession_iff hcache]
  have hroutes : ∀ d, Table.liveRoute (request.routeUpdates.map fun update =>
      .update update.entry) d = request.lastUpdate d := liveRoute_updates request.routeUpdates
  rw [and_iff_right hroutes]
  exact forall_congr' fun update => forall_congr' fun hadd => forall_congr' fun s =>
    forall_congr' fun hs => env.exists_asked_iff hadd hs

end Environment

theorem length_buildWorkerPlan (workerCount : ℕ) (coreIds : List ℕ) :
    (buildWorkerPlan workerCount coreIds).length = workerCount := by
  unfold buildWorkerPlan
  by_cases h : workerCount = 0
  · rw [if_pos h, h, List.length_nil]
  · rw [if_neg h, List.length_map, List.length_range]

/-- **A bridge request is honoured exactly if** it asks for more than one worker, and a secret and
info that it gives decode, or for what the demo runs. For each worker of a request that is accepted
there is a forwarder. -/
theorem Environment.runBridge_honours_iff (env : Environment) (schedules : ℕ → List ℕ)
    {request : ControlRequest} (hvalid : request.validate = .ok ()) :
    ∃ rs, env.runBridge (env.processCaches request schedules) request = .ok rs ∧
      rs.length = (max request.runtimeConfig.numWorkers 1).toNat ∧
      ((∀ r ∈ rs, env.Honours request r) ↔
        if request.runtimeConfig.numWorkers > 1 then env.Decodes request
        else env.AsksForDemo request) := by
  unfold runBridge
  simp only [hvalid]
  split_ifs with hworkers
  · refine ⟨_, rfl, ?_, ?_⟩
    · rw [runPinnedWorkers, List.length_map, length_buildWorkerPlan]
    have hbuilt := fun i => env.honours_buildForwarderFromRequest_iff
      (session_processCaches hworkers schedules i)
    have hplan : buildWorkerPlan (max request.runtimeConfig.numWorkers 1).toNat
        env.workerCores ≠ [] := by
      have hmax : max request.runtimeConfig.numWorkers 1 = request.runtimeConfig.numWorkers :=
        if_neg (UInt32.not_le.mpr hworkers)
      have hlt : 1 < request.runtimeConfig.numWorkers.toNat := hworkers
      rw [← List.length_pos_iff, length_buildWorkerPlan, hmax]
      omega
    rw [runPinnedWorkers, List.forall_mem_map]
    simp only [hbuilt]
    constructor
    · intro hall
      obtain ⟨assignment, hmem⟩ := List.exists_mem_of_ne_nil _ hplan
      exact hall assignment hmem
    · exact fun hdec _ _ => hdec
  · have hmax : max request.runtimeConfig.numWorkers 1 = 1 := if_pos (UInt32.not_lt.mp hworkers)
    refine ⟨_, rfl, by rw [hmax]; rfl, ?_⟩
    rw [List.forall_mem_singleton, processCaches, if_neg hworkers]
    exact env.honours_runDemo_iff request

/-! ## A sample request -/

/-- 64 bytes 0x42 in base64. -/
def sampleSecret : String :=
  "QkJCQkJCQkJCQkJCQkJCQkJCQkJCQkJCQkJCQkJCQkJCQkJCQkJCQkJCQkJCQkJCQkJCQkJCQkJCQkJCQkJCQg=="

/-- A secret of 64 bytes 0x42 and the info "a", in base64, for so many workers. -/
def sampleRequest (numWorkers : UInt32) : ControlRequest where
  runtimeConfig :=
    { iface := "eth0", numFrames := 1024, frameSize := 2048, batchSize := 64, numWorkers }
  sessionUpdates := [{ action := "add", secret := some sampleSecret, info := some "YQ==" }]

/-- The crates on the secret and info of the sample request. -/
def sampleEnvironment : Environment where
  hkdf := replay42
  deriveCacheKey _ _ := 0
  newCipher _ := .zeroKey
  decodeBase64 s :=
    if s = sampleSecret then some (List.replicate 64 0x42)
    else if s = "YQ==" then some [97] else none
  mcrEnabled := false
  mcrSprayMode := "primary"
  profileEnabled := false
  workerCores := [0, 1]

theorem given_sampleSecret :
    sampleEnvironment.given (some sampleSecret) = some sampleSecret := by decide

/-- Two workers are both given the secret, the second after the first has cached its session. -/
theorem runBridge_honours_two :
    (sampleRequest 2).validate = .ok () ∧
    ∃ rs, sampleEnvironment.runBridge (sampleEnvironment.processCaches (sampleRequest 2)
        fun i => List.replicate (2 * i) 0) (sampleRequest 2) = .ok rs ∧ rs.length = 2 ∧
      ∀ r ∈ rs, sampleEnvironment.Honours (sampleRequest 2) r := by
  have hvalid : (sampleRequest 2).validate = .ok () := rfl
  refine ⟨hvalid, ?_⟩
  obtain ⟨rs, hrs, hlen, hiff⟩ := sampleEnvironment.runBridge_honours_iff
    (fun i => List.replicate (2 * i) 0) hvalid
  refine ⟨rs, hrs, hlen, hiff.mpr ?_⟩
  rw [if_pos (by decide)]
  intro update hadd s hs
  obtain rfl := Option.some.inj hadd
  obtain rfl := Option.some.inj (given_sampleSecret.symm.trans hs)
  refine ⟨rfl, fun i hi => ?_⟩
  obtain rfl := Option.some.inj (Option.filter_eq_some_iff.mp hi).1
  rfl

/-- One worker runs the demo, under the built-in secret. -/
theorem runBridge_not_honours :
    ∃ rs, sampleEnvironment.runBridge
        (sampleEnvironment.processCaches (sampleRequest 1) fun _ => []) (sampleRequest 1) = .ok rs ∧
      ¬ ∀ r ∈ rs, sampleEnvironment.Honours (sampleRequest 1) r := by
  refine ⟨_, rfl, fun h => ?_⟩
  have hdemo := (sampleEnvironment.honours_runDemo_iff _).mp (h _ (List.mem_singleton_self _))
  obtain ⟨args, hasked, hsame⟩ := hdemo.2 _ rfl sampleSecret given_sampleSecret
  have hargs : sampleEnvironment.asked
      { action := "add", secret := some sampleSecret, info := some "YQ==" } sampleSecret =
        some (List.replicate 64 0x42, [97]) := by decide
  obtain rfl := Option.some.inj (hargs.symm.trans hasked)
  have hprefix := congrArg (Option.map HybridSession.noncePrefix) hsame
  revert hprefix
  rw [Environment.derivedSession, Environment.derivedSession, Option.map_map, Option.map_map]
  decide +kernel

end SmipMwp.Cli
