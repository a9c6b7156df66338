import SmipMwp.Datapath.Integrity
import SmipMwp.Datapath.Telemetry

/-!
# The counters of a process

The forwarders of a process share its counters, and each has two of its own. What a call adds to
them is a function of the configuration, the routes and the frames (`Forwarder.account`): the
frames, the packets that it hands to the socket, and the lookups that it makes for each frame. Two
kinds of paths are out of step with the others: the rayon paths make their lookups in the workers,
which count none, and in full mode the frames count as handled twice or not at all.

So after any run, in any order of calls to any of the forwarders, the counters are the sums over
what has been handed over, and the packets handed over are those of the accounts (`accounts_run`).
-/

namespace SmipMwp.Datapath

open Crypto Routing Wire

/-! ## Lookups -/

/-- The lookup counters of `Profiler`. -/
inductive Lookup
  | nextHopCalls
  | nextHopHits
  | predictCalls
  | predictHits
  deriving DecidableEq

def LocalMetrics.lookups (m : LocalMetrics) : Lookup → ℕ
  | .nextHopCalls => m.lookupCalls
  | .nextHopHits => m.lookupHits
  | .predictCalls => m.predictCalls
  | .predictHits => m.predictHits

def Telemetry.lookups (g : Telemetry) : Lookup → UInt64
  | .nextHopCalls => g.lookupNextHopCalls
  | .nextHopHits => g.lookupNextHopHits
  | .predictCalls => g.lookupPredictCalls
  | .predictHits => g.lookupPredictHits

namespace Telemetry

variable (g : Telemetry) (n : ℕ) (k : Lookup)

@[simp] theorem lookups_apply (m : LocalMetrics) :
    (g.apply m).lookups k = g.lookups k + UInt64.ofNat (m.lookups k) := by
  cases k <;> rfl

@[simp] theorem lookups_addHandled : (g.addHandled n).lookups k = g.lookups k := by
  cases k <;> rfl

@[simp] theorem lookups_addEncrypted : (g.addEncrypted n).lookups k = g.lookups k := by
  cases k <;> rfl

@[simp] theorem lookups_addAppend (profileEnabled : Bool) :
    (g.addAppend profileEnabled).lookups k = g.lookups k := by
  cases profileEnabled <;> cases k <;> rfl

@[simp] theorem lookups_addProcessed : (g.addProcessed n).lookups k = g.lookups k := by
  cases k <;> rfl

end Telemetry

/-- A lookup of a route that a path makes once. -/
def lookupsOnce (hit : Bool) : List Lookup :=
  if hit then [.nextHopCalls, .nextHopHits] else [.nextHopCalls]

/-- The lookups of `handle_packet`: the second is made where the first fails. -/
def lookupsTwice (routes : Table) (srcId dstId : Id) (flowLabel : UInt32) : List Lookup :=
  if (routes.lookupNextHop dstId flowLabel).isSome then [.nextHopCalls, .nextHopHits]
  else if (routes.lookupPredictiveFallback srcId dstId flowLabel).isSome then
    [.nextHopCalls, .predictCalls, .predictHits]
  else [.nextHopCalls, .predictCalls]

def serialLookups (routes : Table) (p : Bytes) : List Lookup :=
  if p.length < headerSize then []
  else lookupsTwice routes (Packet.srcId p) (Packet.dstId p) (Packet.flowLabel p)

def primaryLookups (routes : Table) (p : Bytes) : List Lookup :=
  if p.length < headerSize then [] else lookupsOnce (selectedHop routes p).isSome

/-- A frame without channels is looked up again, and the hit counted then. -/
def sprayLookups (routes : Table) (p : Bytes) : List Lookup :=
  if p.length < headerSize then []
  else
    lookupsOnce
      (!(sprayChannels routes (Packet.dstId p) (Packet.flowLabel p)).isEmpty || isRouted routes p)

/-- From `s` to `t` the lookups `es` have been counted. -/
def Looks (s t : Batch) (es : List Lookup) : Prop :=
  ∀ k, t.metrics.lookups k = s.metrics.lookups k + es.count k

namespace Looks

variable {s t u : Batch} {es fs : List Lookup}

theorem refl (s : Batch) : Looks s s [] := fun _ => rfl

theorem append (h : Looks s t es) (h' : Looks t u fs) : Looks s u (es ++ fs) := by
  intro k
  rw [h' k, h k, List.count_append, Nat.add_assoc]

/-- What leaves the lookup counters alone. -/
theorem of_eq (h : Looks s t es) (heq : u.metrics.lookups = t.metrics.lookups) : Looks s u es :=
  fun k => (congrFun heq k).trans (h k)

theorem miss (s : Batch) :
    Looks s (s.meter fun m => { m with lookupCalls := m.lookupCalls + 1 }) (lookupsOnce false) :=
  fun k => by cases k <;> rfl

theorem hit (s : Batch) :
    Looks s ((s.meter fun m => { m with lookupCalls := m.lookupCalls + 1 }).meter
      fun m => { m with lookupHits := m.lookupHits + 1 }) (lookupsOnce true) :=
  fun k => by cases k <;> rfl

/-- Encryption makes no lookups. -/
theorem sealAt (h : Looks s t es) {t' : Batch} {S : HybridSession} {start len : ℕ}
    {seqNum : UInt64} {r : Except SessionError Tag} (hseal : t'.sealAt S start len seqNum = (u, r))
    (ht : t'.metrics.lookups = t.metrics.lookups) : Looks s u es := by
  refine h.of_eq (Eq.trans ?_ ht)
  unfold Batch.sealAt at hseal
  rcases hr : sealRecorded S (t'.arena.load start len) seqNum with ⟨_ | ⟨ct, tag⟩, seals⟩ <;>
    simp only [hr, Prod.mk.injEq] at hseal <;> rw [← hseal.1]

end Looks

section Steps

variable (routes : Table) (session : Option HybridSession)

theorem looks_lookupRoute (s : Batch) (v : HeaderViewRef) :
    Looks s (lookupRoute routes s v).1 (lookupsTwice routes v.srcId v.dstId v.flowLabel) := by
  intro k
  unfold lookupRoute lookupsTwice
  split_ifs <;> cases k <;> rfl

/-- Past its lookups `handle_packet` makes none. -/
theorem looks_handlePacket (s : Batch) {v : HeaderViewRef} {p : Bytes}
    (hv : HeaderViewRef.new p = .ok v) :
    Looks s (handlePacket routes session s p).1
      (lookupsTwice routes v.srcId v.dstId v.flowLabel) := by
  have hroute := looks_lookupRoute routes s v
  unfold handlePacket
  simp only [hv]
  rcases hlookup : lookupRoute routes s v with ⟨t, _ | _⟩
  · rw [hlookup] at hroute
    exact hroute
  · rw [hlookup] at hroute
    rcases session with _ | S
    · exact hroute
    simp only
    split_ifs
    · rcases hseal : (t.append (p.take (headerSize + v.length.toNat))).sealAt S
        (t.arena.len + headerSize) v.length.toNat v.seqNum with ⟨u, _ | tag⟩
      · have hu := hroute.sealAt hseal rfl
        exact hu
      · have hu := hroute.sealAt hseal rfl
        exact hu
    · exact hroute
    · exact hroute

theorem looks_serialStep (s : Batch) (p : Bytes) :
    Looks s (serialStep routes session s p) (serialLookups routes p) := by
  unfold serialStep serialLookups
  split_ifs with hp
  · simp only [handlePacket, HeaderViewRef.new_of_lt hp]
    exact Looks.refl s
  · obtain ⟨v, hv, hsrc, hdst, hfl, -⟩ := HeaderViewRef.new_of_le (not_lt.mp hp)
    have h := looks_handlePacket routes session s hv
    rw [hsrc, hdst, hfl] at h
    generalize handlePacket routes session s p = r at h ⊢
    obtain ⟨t, _ | _⟩ := r
    · exact h
    · exact h

theorem looks_primaryStep (s : Batch) (p : Bytes) :
    Looks s (primaryStep routes session s p) (primaryLookups routes p) := by
  unfold primaryStep primaryLookups selectedHop
  split_ifs with hp
  · rw [HeaderViewRef.new_of_lt hp]
    exact Looks.refl s
  obtain ⟨v, hv, -, hdst, hfl, -⟩ := HeaderViewRef.new_of_le (not_lt.mp hp)
  simp only [hv, hdst, hfl]
  cases routes.lookupSprayPrimary (Packet.dstId p) (Packet.flowLabel p) with
  | none => exact Looks.miss s
  | some nextHop =>
    have h := Looks.hit s
    simp only
    by_cases hlen : headerSize + v.length.toNat ≤ p.length ∧ 0 < v.length.toNat
    · simp only [if_pos hlen]
      cases session with
      | none => exact h
      | some S =>
        simp only
        generalize hseal : Batch.sealAt _ S _ _ _ = r
        obtain ⟨u, _ | tag⟩ := r
        · have hu := h.sealAt hseal rfl
          exact hu
        · have hu := h.sealAt hseal rfl
          simp only [Bool.false_eq_true, if_false, if_true]
          split_ifs
          · exact hu
          · exact hu
    · simp only [if_neg hlen, Bool.false_eq_true, if_false]
      split_ifs
      · exact h
      · exact h

/-- A copy counts a hit only for a frame without channels. -/
theorem looks_sprayCopy (v : HeaderViewRef) (p : Bytes) (s : Batch) (nh : Option Id) :
    Looks s (sprayCopy routes session v p s nh)
      (if nh.isNone ∧ (routes.lookupOrPredict v.srcId v.dstId v.flowLabel).isSome then
        [.nextHopHits] else []) := by
  have hhit : Looks s (countHit nh s) (if nh.isNone then [.nextHopHits] else []) := by
    intro k
    cases nh with
    | none => cases k <;> rfl
    | some nh => rfl
  have hredirect (start : ℕ) (t : Batch) :
      (redirect nh start t).metrics.lookups = t.metrics.lookups := by
    cases nh <;> rfl
  unfold sprayCopy
  cases hroute : (routes.lookupOrPredict v.srcId (nh.getD v.dstId) v.flowLabel).isSome with
  | false =>
    have hnone : ¬ (nh.isNone ∧
        (routes.lookupOrPredict v.srcId v.dstId v.flowLabel).isSome) := by
      rintro ⟨hnh, hsome⟩
      rw [Option.isNone_iff_eq_none.mp hnh, Option.getD_none, hsome] at hroute
      cases hroute
    rw [if_neg hnone]
    exact (Looks.refl s).of_eq (hredirect s.arena.len (s.append p))
  | true =>
    have hcopy : Looks s (countHit nh s) (if nh.isNone ∧
        (routes.lookupOrPredict v.srcId v.dstId v.flowLabel).isSome then [.nextHopHits]
          else []) := by
      intro k
      cases nh with
      | none =>
        rw [Option.getD_none] at hroute
        simp only [hroute]
        exact hhit k
      | some nh => exact hhit k
    generalize (if nh.isNone ∧ (routes.lookupOrPredict v.srcId v.dstId v.flowLabel).isSome then
      [Lookup.nextHopHits] else []) = es at hcopy ⊢
    have hwhole := hcopy.of_eq (hredirect s.arena.len ((countHit nh s).append p))
    simp only [if_true]
    cases session with
    | none => exact hwhole
    | some S =>
      simp only
      by_cases hlen : headerSize + v.length.toNat ≤ p.length ∧ 0 < v.length.toNat
      · simp only [if_pos hlen]
        generalize hseal : Batch.sealAt _ S _ _ _ = r
        obtain ⟨u, _ | tag⟩ := r
        · have hu := hcopy.sealAt hseal (hredirect ..)
          exact hu.of_eq (hredirect s.arena.len ((u.truncate s.arena.len).append p))
        · have hu := hcopy.sealAt hseal (hredirect ..)
          simp only [Bool.false_eq_true, if_false, if_true]
          split_ifs
          · exact hu
          · exact hu
      · simp only [if_neg hlen, Bool.false_eq_true, if_false]
        split_ifs
        · exact hwhole
        · exact hwhole

theorem looks_sprayStep (s : Batch) (p : Bytes) :
    Looks s (sprayStep routes session s p) (sprayLookups routes p) := by
  unfold sprayStep sprayLookups
  split_ifs with hp
  · rw [HeaderViewRef.new_of_lt hp]
    exact Looks.refl s
  obtain ⟨v, hv, hsrc, hdst, hfl, -⟩ := HeaderViewRef.new_of_le (not_lt.mp hp)
  have hcopy := looks_sprayCopy routes session v p
  simp only [hv, hdst, hfl]
  by_cases hchannels : (sprayChannels routes (Packet.dstId p) (Packet.flowLabel p)).isEmpty = true
  · rw [if_pos hchannels, hchannels, Bool.not_true, Bool.false_or, isRouted, ← hsrc, ← hdst, ← hfl]
    have h := (Looks.miss s).append (hcopy _ none)
    cases hroute : (routes.lookupOrPredict v.srcId v.dstId v.flowLabel).isSome with
    | false =>
      simp only [hroute, Bool.false_eq_true, and_false, if_false, List.append_nil] at h
      exact h
    | true =>
      simp only [hroute, Option.isNone_none, and_self, if_true] at h
      exact h
  · -- the copies for channels count nothing more
    have hcopies (t : Batch) (channels : List Id) :
        Looks t ((channels.map some).foldl (sprayCopy routes session v p) t) [] := by
      have h := foldl_runs Looks.refl Looks.append hcopy (channels.map some) t
      rwa [List.flatMap_map, List.flatMap_eq_nil_iff.mpr fun nh _ => if_neg fun h => by cases h.1]
        at h
    have h := (Looks.hit s).append (hcopies _ (sprayChannels routes (Packet.dstId p)
      (Packet.flowLabel p)))
    rw [if_neg hchannels, Bool.eq_false_iff.mpr hchannels, Bool.not_false, Bool.true_or]
    rwa [List.append_nil] at h

theorem looks_appendStep (s : Batch) (out : Bytes × PacketOutput × List SealCall) :
    Looks s (appendStep s out) [] := by
  obtain ⟨frame, output, seals⟩ := out
  unfold appendStep
  simp only
  split_ifs <;> exact Looks.refl s

end Steps

/-! ## What a call adds -/

/-- What a call hands over, and what it adds to the counters. -/
structure Account where
  frames : ℕ := 0
  /-- The frames that it counts as handled. -/
  handled : ℕ := 0
  emissions : List Emission := []
  lookups : List Lookup := []
  /-- Its packets are counted in `mcr_forwarded`, and its misses in `mcr_dropped`. -/
  mcr : Bool := false

namespace Account

section Paths

variable (routes : Table) (session : Option HybridSession) (frames : List Bytes)

def serial : Account where
  frames := frames.length
  handled := frames.length
  emissions := frames.flatMap (serialEmissions routes session)
  lookups := frames.flatMap (serialLookups routes)

def parallel : Account where
  frames := frames.length
  handled := 2 * frames.length
  emissions := frames.flatMap (ownedEmissions routes session)

def primary : Account where
  frames := frames.length
  handled := frames.length
  emissions := frames.flatMap (primaryEmissions routes session)
  lookups := frames.flatMap (primaryLookups routes)
  mcr := true

def spraySerial : Account where
  frames := frames.length
  handled := 2 * frames.length
  emissions := frames.flatMap (sprayEmissions routes session)
  lookups := frames.flatMap (sprayLookups routes)
  mcr := true

def sprayParallel : Account where
  frames := frames.length
  emissions := frames.flatMap (sprayOwnedEmissions routes session)
  mcr := true

end Paths

/-- The packets counted in `mcr_forwarded`. -/
def mcrForwarded (a : Account) : ℕ :=
  if a.mcr then a.emissions.countP fun e => !e.encrypted else 0

/-- The misses counted in `mcr_dropped`. -/
def mcrDropped (a : Account) : ℕ := if a.mcr then a.emissions.countP (·.miss) else 0

end Account

/-- The counters of the process. -/
inductive ProcessCounter
  | packetsProcessed
  | handleCount
  | encryptCount
  | lookup (k : Lookup)

def Telemetry.read (g : Telemetry) : ProcessCounter → UInt64
  | .packetsProcessed => g.packetsProcessed
  | .handleCount => g.handleCount
  | .encryptCount => g.encryptCount
  | .lookup k => g.lookups k

def Account.amount (a : Account) : ProcessCounter → ℕ
  | .packetsProcessed => a.frames
  | .handleCount => a.handled
  | .encryptCount => a.emissions.countP (·.encrypted)
  | .lookup k => a.lookups.count k

namespace Forwarder

variable (f : Forwarder)

def mcrAccount (routes : Table) (threads : ℕ) (frames : List Bytes) : Account :=
  if f.mcrSprayMode ≠ "full" then .primary routes f.session frames
  else if frames.length < parallelBatchThreshold ∨ threads ≤ 1 then
    .spraySerial routes f.session frames
  else .sprayParallel routes f.session frames

/-- The account of a call; one that panics has none. -/
def account (c : RunStep) : Account :=
  match c.call with
  | .processBatch threads frames =>
    if f.mcrEnabled then f.mcrAccount c.routes threads frames
    else if frames.length < parallelBatchThreshold ∨ threads ≤ 1 then
      .serial c.routes f.session frames
    else .parallel c.routes f.session frames
  | .processBatchMcr threads frames => f.mcrAccount c.routes threads frames
  | .processBatchSprayFull threads frames => f.mcrAccount c.routes threads frames
  | .processBatchSlices ring frames =>
    if frames.length ≤ ring.capacity then
      .serial c.routes f.session (frames.map (List.take ring.slotSize))
    else {}

end Forwarder

/-- The call has done what its account says. -/
structure BatchRun.Accounts (r : BatchRun) (f : Forwarder) (g : Telemetry) (a : Account) :
    Prop where
  deliveries : r.deliveries = a.emissions.map Emission.delivery
  counters : ∀ k, r.telemetry.read k = g.read k + UInt64.ofNat (a.amount k)
  mcrForwarded : r.forwarder.mcrForwarded = f.mcrForwarded + UInt64.ofNat a.mcrForwarded
  mcrDropped : r.forwarder.mcrDropped = f.mcrDropped + UInt64.ofNat a.mcrDropped

section Calls

variable {f : Forwarder} {g : Telemetry} {r : BatchRun} {a : Account}

/-- What a call sends and commits is in its account. -/
theorem BatchRun.Sends.accounts {cap times : ℕ} (h : r.Sends a.frames cap a.emissions)
    (hcommits : r.Commits g a.frames times) (hhandled : a.handled = times * a.frames)
    (hlookups : ∀ k, r.telemetry.lookups k = g.lookups k + UInt64.ofNat (a.lookups.count k))
    (hforwarded : r.forwarder.mcrForwarded =
      f.mcrForwarded + if a.mcr then UInt64.ofNat r.stats.forwarded else 0)
    (hdropped : r.forwarder.mcrDropped =
      f.mcrDropped + if a.mcr then UInt64.ofNat r.stats.routeMisses else 0) :
    r.Accounts f g a := by
  have hencrypted : r.stats.encrypted = a.emissions.countP (·.encrypted) := by
    rw [h.stats]
    exact Nat.zero_add _
  have hplain : r.stats.forwarded = a.emissions.countP fun e => !e.encrypted := by
    rw [h.stats]
    exact Nat.zero_add _
  have hmisses : r.stats.routeMisses = a.emissions.countP (·.miss) := by
    rw [h.stats]
    exact Nat.zero_add _
  refine ⟨h.deliveries_eq, fun k => ?_, ?_, ?_⟩
  · cases k with
    | packetsProcessed => exact hcommits.processed
    | handleCount => exact hcommits.handled.trans (by rw [Account.amount, hhandled]; rfl)
    | encryptCount => exact hcommits.encrypted.trans (by rw [hencrypted]; rfl)
    | lookup k => exact hlookups k
  · rw [hforwarded, hplain, Account.mcrForwarded]
    split_ifs <;> rfl
  · rw [hdropped, hmisses, Account.mcrDropped]
    split_ifs <;> rfl

/-- A call without frames does nothing. -/
theorem Forwarder.accounts_idle (hframes : a.frames = 0) (hhandled : a.handled = 0)
    (hemissions : a.emissions = []) (hlookups : a.lookups = []) :
    (f.idle g).Accounts f g a := by
  refine ⟨by rw [hemissions]; rfl, fun k => ?_, ?_, ?_⟩
  · have hzero : a.amount k = 0 := by
      cases k with
      | packetsProcessed => exact hframes
      | handleCount => exact hhandled
      | encryptCount => rw [Account.amount, hemissions]; rfl
      | lookup k => rw [Account.amount, hlookups]; rfl
    rw [hzero]
    exact (UInt64.add_zero _).symm
  · rw [Account.mcrForwarded, hemissions, List.countP_nil, ite_self]
    exact (UInt64.add_zero _).symm
  · rw [Account.mcrDropped, hemissions, List.countP_nil, ite_self]
    exact (UInt64.add_zero _).symm

end Calls

namespace Forwarder

variable (f : Forwarder) (g : Telemetry)

/-- What a loop of the metered paths has counted when `apply` commits it. -/
theorem lookups_foldl {α : Type*} {step : Batch → α → Batch} {em : α → List Lookup}
    (hstep : ∀ s a, Looks s (step s a) (em a)) (l : List α) {s : Batch} (hs : s.metrics = {})
    (k : Lookup) : (l.foldl step s).metrics.lookups k = (l.flatMap em).count k := by
  have h := foldl_runs Looks.refl Looks.append hstep l s k
  have hzero : s.metrics.lookups k = 0 := by
    rw [hs]
    cases k <;> rfl
  rwa [hzero, Nat.zero_add] at h

theorem accounts_processSerial (frames : List Bytes) :
    (f.processSerial g frames).Accounts f g (.serial f.routes f.session frames) := by
  refine (f.sends_processSerial g frames).accounts (f.commits_processSerial g frames)
    (Nat.one_mul _).symm (fun k => ?_) (UInt64.add_zero _).symm (UInt64.add_zero _).symm
  have h := lookups_foldl (looks_serialStep f.routes f.session) frames
    (s := f.startBatch frames.length (batchBytes frames)) rfl k
  simp only [processSerial, finish, Telemetry.lookups_addProcessed, Telemetry.lookups_apply]
  exact congrArg (fun n => g.lookups k + UInt64.ofNat n) h

theorem accounts_processParallel (frames : List Bytes) :
    (f.processParallel g frames).Accounts f g (.parallel f.routes f.session frames) := by
  refine (f.sends_processParallel g frames).accounts (f.commits_processParallel g frames)
    rfl (fun k => ?_) (UInt64.add_zero _).symm (UInt64.add_zero _).symm
  simp only [processParallel, appendOutputs]
  generalize frames.map (fun p => (p, processPacketOwned p f.routes f.session)) = outputs
  have h := lookups_foldl looks_appendStep outputs
    (s := f.startBatch frames.length (outputs.map fun o => o.2.1.bytes.length).sum) rfl k
  rw [List.flatMap_eq_nil_iff.mpr fun _ _ => rfl] at h
  simp only [finish, Telemetry.lookups_addProcessed, Telemetry.lookups_addHandled,
    Telemetry.lookups_addAppend, Telemetry.lookups_addEncrypted, Telemetry.lookups_apply, h]
  rfl

theorem accounts_processPrimary (frames : List Bytes) :
    (f.processPrimary g (f.startMcr frames) frames).Accounts f g
      (.primary f.routes f.session frames) := by
  refine (f.sends_processPrimary g (f.fresh_startMcr frames) frames).accounts
    (f.commits_processPrimary g frames) (Nat.one_mul _).symm (fun k => ?_) rfl rfl
  have h := lookups_foldl (looks_primaryStep f.routes f.session) frames
    (s := f.startMcr frames) rfl k
  simp only [processPrimary, finish, Telemetry.lookups_addProcessed, Telemetry.lookups_apply]
  exact congrArg (fun n => g.lookups k + UInt64.ofNat n) h

theorem accounts_processSpraySerial (frames : List Bytes) :
    (f.processSpraySerial g (f.startMcr frames) frames).Accounts f g
      (.spraySerial f.routes f.session frames) := by
  refine (f.sends_processSpraySerial g (f.fresh_startMcr frames) frames).accounts
    (f.commits_processSpraySerial g frames) rfl (fun k => ?_) rfl rfl
  have h := lookups_foldl (looks_sprayStep f.routes f.session) frames
    (s := f.startMcr frames) rfl k
  simp only [processSpraySerial, finish, Telemetry.lookups_addProcessed,
    Telemetry.lookups_addHandled, Telemetry.lookups_addEncrypted, Telemetry.lookups_apply]
  exact congrArg (fun n => g.lookups k + UInt64.ofNat n) h

theorem accounts_processSprayParallel (frames : List Bytes) :
    (f.processSprayParallel g (f.startMcr frames) frames).Accounts f g
      (.sprayParallel f.routes f.session frames) := by
  refine (f.sends_processSprayParallel g (f.fresh_startMcr frames) frames).accounts
    (f.commits_processSprayParallel g frames) (Nat.zero_mul _).symm (fun k => ?_) rfl rfl
  simp only [processSprayParallel, finish, Telemetry.lookups_addProcessed,
    Telemetry.lookups_addEncrypted]
  exact (UInt64.add_zero _).symm

theorem accounts_processBatchMcr (threads : ℕ) (frames : List Bytes) :
    (f.processBatchMcr g threads frames).Accounts f g (f.mcrAccount f.routes threads frames) := by
  unfold processBatchMcr mcrAccount
  by_cases hempty : frames.isEmpty
  · rw [if_pos hempty, List.isEmpty_iff.mp hempty]
    split_ifs
    · exact accounts_idle rfl rfl rfl rfl
    · exact accounts_idle rfl rfl rfl rfl
    · exact accounts_idle rfl rfl rfl rfl
  · rw [if_neg hempty]
    split_ifs
    · exact f.accounts_processPrimary g frames
    · exact f.accounts_processSpraySerial g frames
    · exact f.accounts_processSprayParallel g frames

theorem accounts_processBatch (threads : ℕ) (frames : List Bytes) :
    (f.processBatch g threads frames).Accounts f g
      (f.account ⟨f.routes, .processBatch threads frames⟩) := by
  unfold processBatch account
  by_cases hmcr : f.mcrEnabled
  · simp only [if_pos hmcr]
    exact f.accounts_processBatchMcr g threads frames
  simp only [if_neg hmcr]
  by_cases hempty : frames.isEmpty
  · rw [if_pos hempty, List.isEmpty_iff.mp hempty]
    split_ifs
    · exact accounts_idle rfl rfl rfl rfl
    · exact accounts_idle rfl rfl rfl rfl
  · rw [if_neg hempty]
    split_ifs
    · exact f.accounts_processSerial g frames
    · exact f.accounts_processParallel g frames

/-- **What a call does is in its account.** -/
theorem accounts_exec (c : RunStep) : (f.exec g c).Accounts f g (f.account c) := by
  -- the routes are those of the step
  have hroutes {r : BatchRun} {a : Account} {routes : Table}
      (h : r.Accounts { f with routes := routes } g a) : r.Accounts f g a :=
    ⟨h.deliveries, h.counters, h.mcrForwarded, h.mcrDropped⟩
  obtain ⟨routes, c⟩ := c
  cases c with
  | processBatch threads frames =>
    exact hroutes (accounts_processBatch { f with routes := routes } g threads frames)
  | processBatchMcr threads frames =>
    exact hroutes (accounts_processBatchMcr { f with routes := routes } g threads frames)
  | processBatchSprayFull threads frames =>
    exact hroutes (accounts_processBatchMcr { f with routes := routes } g threads frames)
  | processBatchSlices ring frames =>
    simp only [exec, account]
    rcases le_or_gt frames.length ring.capacity with hle | hgt
    · rw [if_pos hle]
      rcases eq_or_ne frames [] with rfl | hne
      · rw [processBatchSlices_nil]
        have h : BatchRun.Accounts _ _ g (.serial routes f.session []) :=
          accounts_idle (f := { f with routes := routes, arena := f.arena.clear, offsets := [] })
            rfl rfl rfl rfl
        exact ⟨h.deliveries, h.counters, h.mcrForwarded, h.mcrDropped⟩
      · obtain ⟨ring', -, -, hr⟩ :=
          processBatchSlices_eq_some { f with routes := routes } g hle hne
        simp only [hr]
        exact hroutes (accounts_processSerial { f with routes := routes } g _)
    · rw [if_neg (not_le.mpr hgt), processBatchSlices_eq_none _ g hgt]
      exact hroutes (accounts_idle rfl rfl rfl rfl)

variable {f}

theorem SameConfig.refl (f : Forwarder) : SameConfig f f := ⟨rfl, rfl, rfl⟩

theorem SameConfig.trans {f' f'' : Forwarder} (h : SameConfig f f') (h' : SameConfig f' f'') :
    SameConfig f f'' :=
  ⟨h'.session.trans h.session, h'.mcrEnabled.trans h.mcrEnabled,
    h'.mcrSprayMode.trans h.mcrSprayMode⟩

/-- The account of a call is that of the configuration. -/
theorem SameConfig.account_eq {f' : Forwarder} (h : SameConfig f f') (c : RunStep) :
    f'.account c = f.account c := by
  obtain ⟨h₁, h₂, h₃⟩ := h
  simp only [account, mcrAccount, h₁, h₂, h₃]

end Forwarder

/-! ## Runs -/

/-- The forwarders of a process, and its counters. -/
structure Process (κ : Type*) where
  forwarders : κ → Forwarder
  telemetry : Telemetry

namespace Process

variable {κ : Type*} [DecidableEq κ]

/-- A call to one of the forwarders. -/
def step (w : Process κ) (c : κ × RunStep) : Process κ :=
  let r := (w.forwarders c.1).exec w.telemetry c.2
  { forwarders := Function.update w.forwarders c.1 r.forwarder, telemetry := r.telemetry }

theorem forwarders_step_self (w : Process κ) (c : κ × RunStep) :
    (w.step c).forwarders c.1 = ((w.forwarders c.1).exec w.telemetry c.2).forwarder :=
  Function.update_self ..

theorem forwarders_step_of_ne (w : Process κ) (c : κ × RunStep) {i : κ} (hi : i ≠ c.1) :
    (w.step c).forwarders i = w.forwarders i :=
  Function.update_of_ne hi ..

omit [DecidableEq κ] in
/-- What the call hands to its socket. -/
def handed (w : Process κ) (c : κ × RunStep) : List Delivery :=
  ((w.forwarders c.1).exec w.telemetry c.2).deliveries

omit [DecidableEq κ] in
/-- The account of a call, with its forwarder. -/
def accountOf (w : Process κ) (c : κ × RunStep) : κ × Account :=
  (c.1, (w.forwarders c.1).account c.2)

/-- From `w` to `w'` the counters have grown by the amounts of the accounts `as`. -/
structure Grows (w w' : Process κ) (as : List (κ × Account)) : Prop where
  counters : ∀ k, w'.telemetry.read k =
    w.telemetry.read k + UInt64.ofNat (as.map fun a => a.2.amount k).sum
  mcrForwarded : ∀ i, (w'.forwarders i).mcrForwarded = (w.forwarders i).mcrForwarded +
    UInt64.ofNat ((as.filter fun a => a.1 = i).map fun a => a.2.mcrForwarded).sum
  mcrDropped : ∀ i, (w'.forwarders i).mcrDropped = (w.forwarders i).mcrDropped +
    UInt64.ofNat ((as.filter fun a => a.1 = i).map fun a => a.2.mcrDropped).sum

namespace Grows

variable {w w' w'' : Process κ} {as bs : List (κ × Account)}

theorem refl (w : Process κ) : Grows w w [] :=
  ⟨fun _ => (UInt64.add_zero _).symm, fun _ => (UInt64.add_zero _).symm,
    fun _ => (UInt64.add_zero _).symm⟩

theorem append (h : Grows w w' as) (h' : Grows w' w'' bs) : Grows w w'' (as ++ bs) := by
  refine ⟨fun k => ?_, fun i => ?_, fun i => ?_⟩
  · rw [h'.counters, h.counters, List.map_append, List.sum_append, UInt64.ofNat_add,
      UInt64.add_assoc]
  · rw [h'.mcrForwarded, h.mcrForwarded, List.filter_append, List.map_append, List.sum_append,
      UInt64.ofNat_add, UInt64.add_assoc]
  · rw [h'.mcrDropped, h.mcrDropped, List.filter_append, List.map_append, List.sum_append,
      UInt64.ofNat_add, UInt64.add_assoc]

/-- A counter of the forwarders grows in the one that is called. -/
theorem counter_step (w : Process κ) (c : κ × RunStep) {counter : Forwarder → UInt64}
    {amount : Account → ℕ}
    (h : counter ((w.step c).forwarders c.1) =
      counter (w.forwarders c.1) + UInt64.ofNat (amount (w.accountOf c).2)) (i : κ) :
    counter ((w.step c).forwarders i) = counter (w.forwarders i) +
      UInt64.ofNat (([w.accountOf c].filter fun a => a.1 = i).map fun a => amount a.2).sum := by
  by_cases hi : i = c.1
  · subst hi
    have hown : [w.accountOf c].filter (fun a => a.1 = c.1) = [w.accountOf c] :=
      List.filter_eq_self.mpr fun a ha => by rw [List.mem_singleton.mp ha]; exact decide_eq_true rfl
    rw [hown, List.map_singleton, List.sum_singleton]
    exact h
  · have hother : [w.accountOf c].filter (fun a => a.1 = i) = [] :=
      List.filter_eq_nil_iff.mpr fun a ha h => by
        rw [List.mem_singleton.mp ha] at h
        exact hi (of_decide_eq_true h).symm
    rw [hother, w.forwarders_step_of_ne c hi]
    exact (UInt64.add_zero _).symm

/-- One call. -/
theorem step (w : Process κ) (c : κ × RunStep) : Grows w (w.step c) [w.accountOf c] := by
  have h := (w.forwarders c.1).accounts_exec w.telemetry c.2
  refine ⟨fun k => ?_, counter_step w c ?_, counter_step w c ?_⟩
  · rw [List.map_singleton, List.sum_singleton]
    exact h.counters k
  · rw [forwarders_step_self]
    exact h.mcrForwarded
  · rw [forwarders_step_self]
    exact h.mcrDropped

end Grows

/-- No call changes a configuration. -/
theorem sameConfig_step {w₀ w : Process κ}
    (h : ∀ i, Forwarder.SameConfig (w₀.forwarders i) (w.forwarders i)) (c : κ × RunStep) (i : κ) :
    Forwarder.SameConfig (w₀.forwarders i) ((w.step c).forwarders i) := by
  by_cases hi : i = c.1
  · subst hi
    rw [forwarders_step_self]
    exact (h c.1).trans ((w.forwarders c.1).sameConfig_exec w.telemetry c.2)
  · rw [forwarders_step_of_ne w c hi]
    exact h i

/-- What the calls of a run hand over. -/
theorem runLog_handed (w : Process κ) (cs : List (κ × RunStep)) :
    runLog step handed w cs =
      (cs.map w.accountOf).flatMap fun a => a.2.emissions.map Emission.delivery := by
  rw [List.flatMap_map]
  refine runLog_eq_flatMap
    (fun w' => ∀ i, Forwarder.SameConfig (w.forwarders i) (w'.forwarders i))
    (fun w' c h => ⟨sameConfig_step h c, ?_⟩) cs fun i => .refl _
  rw [accountOf, ← (h c.1).account_eq]
  exact ((w'.forwarders c.1).accounts_exec w'.telemetry c.2).deliveries

/-- What a run adds to the counters. -/
theorem grows_run (w : Process κ) (cs : List (κ × RunStep)) :
    w.Grows (cs.foldl step w) (cs.map w.accountOf) := by
  rw [List.map_eq_flatMap]
  refine foldl_runs_of_inv
    (fun w' => ∀ i, Forwarder.SameConfig (w.forwarders i) (w'.forwarders i))
    Grows.refl Grows.append (fun w' c h => ⟨sameConfig_step h c, ?_⟩) cs fun i => .refl _
  rw [accountOf, ← (h c.1).account_eq]
  exact Grows.step w' c

/-- **The counters account for the packets.** In every run of calls to the forwarders of a process,
the packets handed to the sockets are those of the accounts, in order, and the counters have grown
by their amounts. -/
theorem accounts_run (w : Process κ) (cs : List (κ × RunStep)) :
    runLog step handed w cs =
        (cs.map w.accountOf).flatMap (fun a => a.2.emissions.map Emission.delivery) ∧
      w.Grows (cs.foldl step w) (cs.map w.accountOf) :=
  ⟨w.runLog_handed cs, w.grows_run cs⟩

end Process

/-! ## The rates of the profile -/

/-- The lookups of `n` frames: at most one for each, a prediction only after a miss, and no more
hits than tries. -/
structure Consistent (n : ℕ) (es : List Lookup) : Prop where
  calls_le : es.count .nextHopCalls ≤ n
  hits_add_le : es.count .nextHopHits + es.count .predictCalls ≤ es.count .nextHopCalls
  predictHits_le : es.count .predictHits ≤ es.count .predictCalls

namespace Consistent

theorem nil : Consistent 0 [] := ⟨le_rfl, le_rfl, le_rfl⟩

theorem append {n m : ℕ} {es fs : List Lookup} (h : Consistent n es) (h' : Consistent m fs) :
    Consistent (n + m) (es ++ fs) := by
  obtain ⟨h₁, h₂, h₃⟩ := h
  obtain ⟨h₁', h₂', h₃'⟩ := h'
  constructor <;> simp only [List.count_append] <;> omega

theorem flatMap {α : Type*} {n : α → ℕ} {em : α → List Lookup} (h : ∀ a, Consistent (n a) (em a))
    (l : List α) : Consistent (l.map n).sum (l.flatMap em) := by
  induction l with
  | nil => exact nil
  | cons a l ih =>
    rw [List.map_cons, List.sum_cons, List.flatMap_cons]
    exact (h a).append ih

theorem frames {em : Bytes → List Lookup} (h : ∀ p, Consistent 1 (em p)) (frames : List Bytes) :
    Consistent frames.length (frames.flatMap em) := by
  have hsum := flatMap h frames
  rwa [List.map_const', List.sum_replicate_nat, Nat.mul_one] at hsum

theorem mono {n m : ℕ} {es : List Lookup} (h : Consistent n es) (hle : n ≤ m) : Consistent m es :=
  { h with calls_le := h.calls_le.trans hle }

theorem once (hit : Bool) : Consistent 1 (lookupsOnce hit) := by
  cases hit <;> exact ⟨by decide, by decide, by decide⟩

theorem twice (routes : Table) (srcId dstId : Id) (flowLabel : UInt32) :
    Consistent 1 (lookupsTwice routes srcId dstId flowLabel) := by
  unfold lookupsTwice
  split_ifs <;> exact ⟨by decide, by decide, by decide⟩

theorem serial (routes : Table) (p : Bytes) : Consistent 1 (serialLookups routes p) := by
  unfold serialLookups
  split_ifs
  · exact nil.mono (Nat.zero_le 1)
  · exact twice ..

theorem primary (routes : Table) (p : Bytes) : Consistent 1 (primaryLookups routes p) := by
  unfold primaryLookups
  split_ifs
  · exact nil.mono (Nat.zero_le 1)
  · exact once _

theorem spray (routes : Table) (p : Bytes) : Consistent 1 (sprayLookups routes p) := by
  unfold sprayLookups
  split_ifs
  · exact nil.mono (Nat.zero_le 1)
  · exact once _

end Consistent

theorem Forwarder.consistent_mcrAccount (f : Forwarder) (routes : Table) (threads : ℕ)
    (frames : List Bytes) : Consistent (f.mcrAccount routes threads frames).frames
      (f.mcrAccount routes threads frames).lookups := by
  unfold mcrAccount
  split_ifs
  · exact .frames (.primary routes) frames
  · exact .frames (.spray routes) frames
  · exact Consistent.nil.mono (Nat.zero_le _)

/-- On every path. -/
theorem Forwarder.consistent_account (f : Forwarder) (c : RunStep) :
    Consistent (f.account c).frames (f.account c).lookups := by
  obtain ⟨routes, c⟩ := c
  cases c with
  | processBatch threads frames =>
    unfold account
    simp only
    split_ifs
    · exact f.consistent_mcrAccount routes threads frames
    · exact .frames (.serial routes) frames
    · exact Consistent.nil.mono (Nat.zero_le _)
  | processBatchMcr threads frames => exact f.consistent_mcrAccount routes threads frames
  | processBatchSprayFull threads frames => exact f.consistent_mcrAccount routes threads frames
  | processBatchSlices ring frames =>
    unfold account
    simp only
    split_ifs
    · exact .frames (.serial routes) _
    · exact Consistent.nil.mono (Nat.zero_le _)

namespace Process

variable {κ : Type*} [DecidableEq κ]

/-- **No rate of the profile is above one.** From counters at zero, in every run of less than 2^64
frames: no more lookups than packets processed, the hits and the predictions together no more than
the lookups, and no more predicted hits than predictions. -/
theorem rates_le_one (w : Process κ) (hw : w.telemetry = {}) (cs : List (κ × RunStep))
    (hlt : (cs.map fun c => (w.accountOf c).2.frames).sum < 2 ^ 64) :
    let g := (cs.foldl step w).telemetry
    g.lookupNextHopCalls ≤ g.packetsProcessed ∧
      g.lookupNextHopHits.toNat + g.lookupPredictCalls.toNat ≤ g.lookupNextHopCalls.toNat ∧
      g.lookupPredictHits ≤ g.lookupPredictCalls := by
  intro g
  have hone (c : κ × RunStep) :
      Consistent (w.accountOf c).2.frames (w.accountOf c).2.lookups :=
    (w.forwarders c.1).consistent_account c.2
  have hlookups := Consistent.flatMap hone cs
  -- no counter wraps
  have hread (k : ProcessCounter)
      (hle : (cs.map fun c => (w.accountOf c).2.amount k).sum ≤
        (cs.map fun c => (w.accountOf c).2.frames).sum) :
      (g.read k).toNat = (cs.map fun c => (w.accountOf c).2.amount k).sum := by
    have hzero : w.telemetry.read k = 0 := by
      rw [hw]
      rcases k with _ | _ | _ | k
      · rfl
      · rfl
      · rfl
      · cases k <;> rfl
    have h := (w.grows_run cs).counters k
    rw [hzero, UInt64.zero_add, List.map_map] at h
    rw [h, UInt64.toNat_ofNat']
    exact Nat.mod_eq_of_lt (hle.trans_lt hlt)
  have hcount (k : Lookup) : (cs.map fun c => (w.accountOf c).2.amount (.lookup k)).sum =
      (cs.flatMap fun c => (w.accountOf c).2.lookups).count k := by
    rw [List.count_flatMap]
    rfl
  obtain ⟨hcalls, hhits, hpredict⟩ := hlookups
  have hframes := hread .packetsProcessed le_rfl
  have hnext := hread (.lookup .nextHopCalls) ((hcount _).trans_le hcalls)
  have hfound := hread (.lookup .nextHopHits) ((hcount _).trans_le (by omega))
  have hpredicted := hread (.lookup .predictCalls) ((hcount _).trans_le (by omega))
  have hpredictHits := hread (.lookup .predictHits) ((hcount _).trans_le (by omega))
  rw [hcount] at hnext hfound hpredicted hpredictHits
  refine ⟨?_, ?_, ?_⟩
  · exact UInt64.le_iff_toNat_le.mpr (hnext.trans_le (hcalls.trans hframes.ge))
  · exact (congrArg₂ (· + ·) hfound hpredicted).trans_le (hhits.trans hnext.ge)
  · exact UInt64.le_iff_toNat_le.mpr (hpredictHits.trans_le (hpredict.trans hpredicted.ge))

/-- Two forwarders, one of them in full mode, with a packet each. -/
def zeroProcess : Process Bool := ⟨fun full => zeroForwarder [] full "full", {}⟩

def zeroCalls : List (Bool × RunStep) :=
  [(false, ⟨(zeroForwarder [] false "full").routes, .processBatch 1 [zeroPacket []]⟩),
    (true, ⟨(zeroForwarder [] true "full").routes, .processBatch 1 [zeroPacket []]⟩)]

theorem rates_le_one_zeroPacket :
    let g := (zeroCalls.foldl step zeroProcess).telemetry
    g.lookupNextHopCalls ≤ g.packetsProcessed ∧
      g.lookupNextHopHits.toNat + g.lookupPredictCalls.toNat ≤ g.lookupNextHopCalls.toNat ∧
      g.lookupPredictHits ≤ g.lookupPredictCalls :=
  rates_le_one zeroProcess rfl zeroCalls (by decide)

end Process

end SmipMwp.Datapath
