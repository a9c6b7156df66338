import SmipMwp.Cli.Bridge
import SmipMwp.Datapath.Transmission
import SmipMwp.Wire.Codec

/-!
# What a bridge request is answered

`main` sends one demo packet through each of the forwarders that it makes for a request, adds up
their statistics, and prints them with a health state. The packet is well-formed and every forwarder
has a session, so only the routes decide: a packet that is forwarded is encrypted, and one that
misses makes the report `degraded`.

Which routes it takes depends on the path. The primary mode of the channel spray looks the
destination up; all other paths fall back on prediction, for which any route will do
(`Environment.reaches`). `bridge_report` is the whole report, for every request and environment.

The sockets are the mock ones.
-/

namespace SmipMwp.Cli

open Crypto Routing Datapath Wire

/-! ## The demo packet -/

/-- `Header::new_header_buffer`. -/
def newHeaderBuffer (payloadLen : ℕ) : Bytes := List.replicate (headerSize + payloadLen) 0

def demoHeader : Header where
  srcId := Vector.replicate 32 1
  dstId := Vector.replicate 32 2
  flowLabel := 7
  seqNum := 1
  sessionId := Vector.replicate 16 0
  flags := 0
  length := 4

def demoPacket : Bytes :=
  overwrite (demoHeader.marshalInto (newHeaderBuffer 4)).2 headerSize [1, 2, 3, 4]

/-! ## The report -/

/-- A request with the one field of its runtime configuration that only the report reads. -/
structure BridgeRequest extends ControlRequest where
  fillThreshold : Option UInt32 := none

structure QueueStats where
  queueDepth : Option ℕ := none
  fillTarget : Option ℕ := none
  fillActual : Option ℕ := none
  workerCount : Option ℕ := none
  deriving DecidableEq

structure TelemetryResponse where
  healthState : String
  forwarderStats : ForwarderStats
  queueStats : Option QueueStats := none
  lastError : Option String := none
  timestamp : String
  deriving DecidableEq

/-- The timestamp of every report. -/
def reportTimestamp : String := "2026-05-24T00:00:00Z"

def renderTelemetry (stats : ForwarderStats) (request : Option BridgeRequest) :
    TelemetryResponse :=
  let workerCount := (request.map fun r => r.runtimeConfig.numWorkers.toNat).getD 0
  let queueTarget := (request.bind fun r => r.fillThreshold).map UInt32.toNat
  { healthState := if stats.routeMisses > 0 then "degraded" else "ok"
    forwarderStats := stats
    queueStats := some
      { queueDepth := queueTarget
        fillTarget := queueTarget
        fillActual := queueTarget.map fun target => target - 16
        workerCount := some workerCount }
    lastError := none
    timestamp := reportTimestamp }

/-- The statistics of two workers together. -/
def addStats (acc stats : ForwarderStats) : ForwarderStats where
  received := acc.received + stats.received
  forwarded := acc.forwarded + stats.forwarded
  encrypted := acc.encrypted + stats.encrypted
  routeMisses := acc.routeMisses + stats.routeMisses

/-- `process_batch` on a new mock socket that holds the demo packet. -/
def demoStats (threads : ℕ) (forwarder : Forwarder) : ForwarderStats :=
  (forwarder.processBatch {} threads [demoPacket]).stats

namespace Environment

variable (env : Environment)

/-- The report that `main` prints for a request, or the error it exits with. -/
def report (threads : ℕ) (caches : ℕ → HkdfCache) (request : BridgeRequest) :
    Except String TelemetryResponse :=
  match request.validate with
  | .error err => .error err
  | .ok _ =>
    let stats :=
      if request.runtimeConfig.numWorkers > 1 then
        ((env.runPinnedWorkers caches request.toControlRequest).map
          (demoStats threads)).foldl addStats {}
      else demoStats threads (env.runDemo (caches 0))
    .ok (renderTelemetry stats (some request))

/-- The demo packet has a route among those of the request: the primary mode needs one to its
destination, and any is good enough for the other paths. -/
def reaches (request : ControlRequest) : Bool :=
  if env.mcrEnabled && env.mcrSprayMode != "full" then
    (request.lastUpdate demoHeader.dstId).isSome
  else !request.routeUpdates.isEmpty

end Environment

/-! ## One packet through a forwarder -/

theorem demoPacket_eq : demoPacket = demoHeader.fields.flatten ++ [1, 2, 3, 4] := by
  have hbuf : headerSize ≤ (newHeaderBuffer 4).length := by
    rw [newHeaderBuffer, List.length_replicate]
    decide
  have hlen := demoHeader.length_flatten_fields
  rw [demoPacket, demoHeader.marshalInto_of_le hbuf, ← hlen,
    show demoHeader.fields.flatten.length = demoHeader.fields.flatten.length + 0 from rfl,
    overwrite_append_right]
  rfl

theorem length_demoPacket : demoPacket.length = headerSize + 4 := by
  rw [demoPacket_eq, List.length_append, demoHeader.length_flatten_fields]
  rfl

theorem header_demoPacket : Packet.header demoPacket = demoHeader := by
  have hle : headerSize ≤ demoPacket.length := by
    rw [length_demoPacket]
    exact Nat.le_add_right _ _
  have hparse := Packet.parse_eq hle
  rw [demoPacket_eq, Header.parse_flatten_fields, ← demoPacket_eq] at hparse
  exact (Except.ok.inj hparse).symm

theorem dstId_demoPacket : Packet.dstId demoPacket = demoHeader.dstId :=
  congrArg Header.dstId header_demoPacket

theorem payloadLen_demoPacket : Packet.payloadLen demoPacket = 4 :=
  congrArg (fun h : Header => h.length.toNat) header_demoPacket

/-- The session encrypts the demo packet. -/
theorem isSealed_attempt_demoPacket {S : HybridSession} (h : S.aead.Succeeds) :
    (attempt (some S) demoPacket).isSealed = true := by
  have hpos : ¬ Packet.payloadLen demoPacket = 0 := by
    rw [payloadLen_demoPacket]
    decide
  have hfit : ¬ demoPacket.length < headerSize + Packet.payloadLen demoPacket := by
    rw [payloadLen_demoPacket, length_demoPacket]
    exact lt_irrefl _
  have hlen : (Packet.payload demoPacket).length = 4 := by
    rw [Packet.length_payload (Nat.not_lt.mp hfit), payloadLen_demoPacket]
  obtain ⟨ct, tag, hok⟩ := S.encryptIntoSlice_isOk h (Packet.seqNum demoPacket)
    (by rw [hlen]; decide : (Packet.payload demoPacket).length ≤ 2 ^ 16)
  simp only [attempt, hpos, hfit, if_false, hok]
  rfl

/-- The statistics of one packet that was encrypted, or missed. -/
def oneStats (encrypted : Bool) : ForwarderStats :=
  if encrypted then { received := 1, encrypted := 1 }
  else { received := 1, forwarded := 1, routeMisses := 1 }

section Emissions

variable {routes : Table} {session : Option HybridSession} {frame p : Bytes}

theorem exists_sealed (h : (attempt session p).isSealed = true) :
    ∃ call ct tag, attempt session p = .sealed call ct tag := by
  cases ha : attempt session p with
  | sealed call ct tag => exact ⟨call, ct, tag, rfl⟩
  | _ =>
    rw [ha] at h
    cases h

theorem tally_emission (l : Layout) (hp : headerSize ≤ p.length)
    (hsealed : (attempt session p).isSealed = true) :
    ForwarderStats.tally { received := 1 } [emission l routes session frame p] =
      oneStats (isRouted routes p) := by
  obtain ⟨call, ct, tag, ha⟩ := exists_sealed hsealed
  rw [emission, if_neg (not_lt.mpr hp), ha]
  cases isRouted routes p <;> rfl

theorem tally_primaryEmission (hp : headerSize ≤ p.length)
    (hsealed : (attempt session p).isSealed = true) :
    ForwarderStats.tally { received := 1 } (primaryEmissions routes session p) =
      oneStats (routes.shardEntry (Packet.dstId p)).isSome := by
  obtain ⟨call, ct, tag, ha⟩ := exists_sealed hsealed
  rw [primaryEmissions, primaryEmission, if_neg (not_lt.mpr hp), Table.lookupSprayPrimary]
  cases routes.shardEntry (Packet.dstId p) with
  | none => rfl
  | some e =>
    simp only [Option.map_some, attempt_redirected hp, ha]
    rfl

/-- A frame of a route with a single channel has one copy, which is routed as the frame is. -/
theorem tally_sprayEmissions (hp : headerSize ≤ p.length)
    (hsealed : (attempt session p).isSealed = true)
    (hsingle : ∀ e, routes.shardEntry (Packet.dstId p) = some e → e.alternateChannels = [])
    (hrouted : ∀ q, isRouted routes q = isRouted routes p) :
    ForwarderStats.tally { received := 1 } (sprayEmissions routes session p) =
      oneStats (isRouted routes p) := by
  have hone : (duplicate routes p).length = 1 := by
    cases he : routes.shardEntry (Packet.dstId p) with
    | some e => rw [length_duplicate_of_shardEntry hp he, hsingle e he]; rfl
    | none =>
      obtain ⟨v, hv, -, hdst, -⟩ := HeaderViewRef.new_of_le hp
      have hchannels := length_sprayChannels routes v.dstId v.flowLabel
      rw [hdst, he] at hchannels
      simp only [duplicate, hv, hdst]
      rw [if_pos (List.isEmpty_iff_length_eq_zero.mpr hchannels)]
      rfl
  obtain ⟨q, hq⟩ := List.length_eq_one_iff.mp hone
  have hmem : q ∈ duplicate routes p := hq ▸ List.mem_singleton_self q
  have hattempt : attempt session q = attempt session p := by
    rcases eq_or_redirected_of_mem_duplicate hmem with rfl | ⟨-, nh, rfl⟩
    · rfl
    · exact attempt_redirected hp nh session
  rw [sprayEmissions, hq, List.map_singleton, tally_emission .spray
    (hp.trans_eq (length_of_mem_duplicate hmem).symm) (hattempt ▸ hsealed), hrouted q]

end Emissions

/-- The statistics of the demo packet, on whichever path the forwarder takes. -/
theorem stats_demoPacket (f : Forwarder) (g : Telemetry) (threads : ℕ) {S : HybridSession}
    (hS : f.session = some S) (hsucceeds : S.aead.Succeeds)
    (hsingle : ∀ e, f.routes.shardEntry demoHeader.dstId = some e → e.alternateChannels = [])
    (hrouted : ∀ q, isRouted f.routes q = isRouted f.routes demoPacket) :
    (f.processBatch g threads [demoPacket]).stats =
      oneStats (if f.mcrEnabled && f.mcrSprayMode != "full" then
        (f.routes.shardEntry demoHeader.dstId).isSome else isRouted f.routes demoPacket) := by
  have hp : headerSize ≤ demoPacket.length := by
    rw [length_demoPacket]
    exact Nat.le_add_right _ _
  have hsealed : (attempt f.session demoPacket).isSealed = true := by
    rw [hS]
    exact isSealed_attempt_demoPacket hsucceeds
  obtain ⟨cap, hsends⟩ := f.sends_processBatch g threads (List.cons_ne_nil demoPacket [])
  have hserial : [demoPacket].length < parallelBatchThreshold ∨ threads ≤ 1 := .inl (by decide)
  rw [← dstId_demoPacket] at hsingle ⊢
  rw [hsends.stats, Forwarder.batchEmissions]
  simp only [hserial, if_true, List.flatMap_singleton]
  cases f.mcrEnabled with
  | false => exact tally_emission .serial hp hsealed
  | true =>
    by_cases hmode : f.mcrSprayMode = "full"
    · simp only [hmode, bne_self_eq_false, Bool.and_false, if_true, ne_eq, not_true_eq_false,
        if_false]
      exact tally_sprayEmissions hp hsealed hsingle hrouted
    · simp only [bne_iff_ne.mpr hmode, Bool.and_true, if_true, ne_eq, hmode, not_false_eq_true]
      exact tally_primaryEmission hp hsealed

/-! ## The forwarders of a request -/

/-- A table of updates has a hop for every packet, unless there are none. -/
theorem isRouted_updates (updates : List RouteUpdate) (p : Bytes) :
    isRouted (.ofWrites (updates.map fun update => .update update.entry)) p =
      !updates.isEmpty := by
  cases updates using List.reverseRecOn with
  | nil =>
    have hnone : Table.new.lookupNextHop (Packet.dstId p) (Packet.flowLabel p) = none := by
      have hshard : Table.new.shardEntry (Packet.dstId p) = none := Std.TreeMap.getElem?_emptyc
      rw [Table.lookupNextHop, hshard, Option.map_none]
    have hmiss : Table.new.lookupOrPredict (Packet.srcId p) (Packet.dstId p)
        (Packet.flowLabel p) = none := by
      rw [Table.lookupOrPredict, hnone]
      rfl
    exact congrArg Option.isSome hmiss
  | append_singleton updates update =>
    have hlive : (Table.ofWrites ((updates ++ [update]).map fun update =>
        .update update.entry)).shardEntry update.destId = some update.entry := by
      rw [Table.shardEntry_ofWrites_eq_liveRoute, List.map_append, List.map_singleton,
        Table.liveRoute_concat]
      exact if_pos rfl
    have hrouted := Table.lookupOrPredict_isSome (Table.predictiveNextHops_ofWrites_ne_nil hlive)
      (Packet.srcId p) (Packet.dstId p) (Packet.flowLabel p)
    have hne : (updates ++ [update]).isEmpty = false := by simp
    rw [hne]
    exact hrouted

namespace Environment

variable (env : Environment)

variable {env} in
/-- The cipher of a session is one of the crate's, under some key. -/
theorem exists_key_of_session {cache : HkdfCache} {sessionSecret sessionInfo : Bytes}
    {S : HybridSession} (h : env.session cache sessionSecret sessionInfo = some S) :
    ∃ key, S.aead = env.newCipher key := by
  unfold session HybridSession.new at h
  cases hmaterial : (sessionMaterial env.hkdf env.deriveCacheKey cache sessionSecret
      sessionInfo).1 with
  | error err =>
    simp only [hmaterial] at h
    cases h
  | ok entry =>
    simp only [hmaterial] at h
    obtain rfl := Option.some.inj h
    exact ⟨entry.key, rfl⟩

/-- The demo packet through a forwarder with the routes of updates. -/
theorem demoStats_withSession (hcipher : ∀ key, (env.newCipher key).Succeeds) (threads : ℕ)
    (cache : HkdfCache) (updates : List RouteUpdate) (sessionSecret sessionInfo : Bytes) :
    demoStats threads
        (env.withSession cache (.ofWrites (updates.map fun update => .update update.entry))
          sessionSecret sessionInfo) =
      oneStats (if env.mcrEnabled && env.mcrSprayMode != "full" then
        (updates.reverse.find? fun update => update.destId == demoHeader.dstId).isSome
        else !updates.isEmpty) := by
  obtain ⟨S, hS⟩ := env.exists_session cache sessionSecret sessionInfo
  obtain ⟨key, hkey⟩ := exists_key_of_session hS
  have hshard : ∀ d, (Table.ofWrites (updates.map fun update =>
      .update update.entry)).shardEntry d =
        (updates.reverse.find? fun update => update.destId == d).map RouteUpdate.entry := fun d =>
    (Table.shardEntry_ofWrites_eq_liveRoute _ d).trans (liveRoute_updates updates d)
  have hsingle : ∀ e, (Table.ofWrites (updates.map fun update =>
      .update update.entry)).shardEntry demoHeader.dstId = some e → e.alternateChannels = [] := by
    intro e he
    rw [hshard] at he
    obtain ⟨update, -, rfl⟩ := Option.map_eq_some_iff.mp he
    rfl
  have hrouted := isRouted_updates updates
  have hstats := stats_demoPacket
    (env.withSession cache (.ofWrites (updates.map fun update => .update update.entry))
      sessionSecret sessionInfo) {} threads hS (hkey ▸ hcipher key) hsingle
    fun q => (hrouted q).trans (hrouted demoPacket).symm
  refine hstats.trans (congrArg oneStats ?_)
  simp only [withSession, Forwarder.withSession, hshard, hrouted, Option.isSome_map]

/-- The demo has the route of the packet. -/
theorem demoStats_runDemo (hcipher : ∀ key, (env.newCipher key).Succeeds) (threads : ℕ)
    (cache : HkdfCache) : demoStats threads (env.runDemo cache) = oneStats true := by
  let update : RouteUpdate := ⟨demoRoute.destId, demoRoute.nextHopId, none⟩
  refine (env.demoStats_withSession hcipher threads cache [update] defaultSecret
    defaultInfo).trans (congrArg oneStats ?_)
  have hfound : ([update].reverse.find? fun update => update.destId == demoHeader.dstId).isSome =
      true := by decide
  rw [hfound]
  exact ite_self true

theorem demoStats_buildForwarderFromRequest (hcipher : ∀ key, (env.newCipher key).Succeeds)
    (threads : ℕ) (cache : HkdfCache) (request : ControlRequest) :
    demoStats threads (env.buildForwarderFromRequest cache request) =
      oneStats (env.reaches request) := by
  have hstats := env.demoStats_withSession hcipher threads cache request.routeUpdates
  rw [reaches, ControlRequest.lastUpdate, Option.isSome_map, buildForwarderFromRequest,
    foldl_updateRoute]
  exact hstats _ _

end Environment

/-- The sum of `n` equal statistics. -/
theorem foldl_addStats_replicate (n : ℕ) (acc stats : ForwarderStats) :
    (List.replicate n stats).foldl addStats acc =
      ⟨acc.received + n * stats.received, acc.forwarded + n * stats.forwarded,
        acc.encrypted + n * stats.encrypted, acc.routeMisses + n * stats.routeMisses⟩ := by
  induction n generalizing acc with
  | zero => simp
  | succ n ih =>
    rw [List.replicate_succ, List.foldl_cons, ih]
    simp only [addStats, Nat.succ_mul, Nat.add_assoc, Nat.add_comm (n * _)]

namespace Environment

variable (env : Environment)

/-- The statistics of `workers` packets, which all miss or are all encrypted. -/
def workerStats (workers : ℕ) (missed : Bool) : ForwarderStats :=
  if missed then { received := workers, forwarded := workers, routeMisses := workers }
  else { received := workers, encrypted := workers }

theorem foldl_demoStats (hcipher : ∀ key, (env.newCipher key).Succeeds) (threads : ℕ)
    (caches : ℕ → HkdfCache) (request : ControlRequest) :
    ((env.runPinnedWorkers caches request).map (demoStats threads)).foldl
        addStats {} =
      workerStats (max request.runtimeConfig.numWorkers 1).toNat (!env.reaches request) := by
  have hall : (env.runPinnedWorkers caches request).map (demoStats threads) =
      List.replicate (max request.runtimeConfig.numWorkers 1).toNat
        (oneStats (env.reaches request)) := by
    rw [List.eq_replicate_iff]
    constructor
    · rw [List.length_map, runPinnedWorkers, List.length_map, length_buildWorkerPlan]
    · rw [List.forall_mem_map, runPinnedWorkers, List.forall_mem_map]
      exact fun assignment _ => env.demoStats_buildForwarderFromRequest hcipher threads
        (caches assignment.workerIndex) request
  rw [hall, foldl_addStats_replicate]
  cases env.reaches request with
  | true => simp [oneStats, workerStats]
  | false => simp [oneStats, workerStats]

/-- The request asks for several workers, and they have no route for the demo packet. -/
def misses (request : ControlRequest) : Bool :=
  decide (request.runtimeConfig.numWorkers > 1) && !env.reaches request

/-- **The report of a bridge request.** The request is rejected as `validate` rejects it; else each
worker's packet is received, and encrypted, unless the workers miss: then all are forwarded as they
are, and the health is `degraded`. The demo, which runs for a single worker, never misses. -/
theorem bridge_report (hcipher : ∀ key, (env.newCipher key).Succeeds) (threads : ℕ)
    (caches : ℕ → HkdfCache) (request : BridgeRequest) :
    env.report threads caches request = request.validate.map fun _ =>
      { healthState := if env.misses request.toControlRequest then "degraded" else "ok"
        forwarderStats := workerStats (max request.runtimeConfig.numWorkers 1).toNat
          (env.misses request.toControlRequest)
        queueStats := some
          { queueDepth := request.fillThreshold.map UInt32.toNat
            fillTarget := request.fillThreshold.map UInt32.toNat
            fillActual := request.fillThreshold.map fun target => target.toNat - 16
            workerCount := some request.runtimeConfig.numWorkers.toNat }
        timestamp := reportTimestamp } := by
  unfold report
  cases request.validate with
  | error err => rfl
  | ok _ =>
    refine congrArg Except.ok ?_
    unfold misses
    by_cases hworkers : request.runtimeConfig.numWorkers > 1
    · rw [if_pos hworkers, env.foldl_demoStats hcipher, decide_eq_true hworkers, Bool.true_and]
      have hmax : max request.runtimeConfig.numWorkers 1 = request.runtimeConfig.numWorkers :=
        if_neg (UInt32.not_le.mpr hworkers)
      have hpos : 0 < request.runtimeConfig.numWorkers.toNat := by
        have hlt : 1 < request.runtimeConfig.numWorkers.toNat := hworkers
        omega
      rw [hmax]
      cases env.reaches request.toControlRequest with
      | true => simp [renderTelemetry, workerStats, Function.comp_def]
      | false => simp [renderTelemetry, workerStats, hpos, Function.comp_def]
    · have hmax : max request.runtimeConfig.numWorkers 1 = 1 :=
        if_pos (UInt32.not_lt.mp hworkers)
      rw [if_neg hworkers, env.demoStats_runDemo hcipher, decide_eq_false hworkers, hmax]
      simp [renderTelemetry, workerStats, oneStats, Function.comp_def]

/-- Two workers without a route are `degraded`. -/
theorem bridge_report_two :
    sampleEnvironment.report 8 (fun _ => {}) { sampleRequest 2 with fillThreshold := some 8 } =
      .ok
        { healthState := "degraded"
          forwarderStats := { received := 2, forwarded := 2, routeMisses := 2 }
          queueStats := some
            { queueDepth := some 8, fillTarget := some 8, fillActual := some 0,
              workerCount := some 2 }
          timestamp := "2026-05-24T00:00:00Z" } :=
  sampleEnvironment.bridge_report (fun _ _ _ _ => rfl) 8 _ _

end Environment

end SmipMwp.Cli
