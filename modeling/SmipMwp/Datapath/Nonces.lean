import SmipMwp.Datapath.Paths

/-!
# Nonces over a run

A run of a forwarder is a list of calls of its processing entry points, on any frames and with any
routes at each call. The session calls made are, up to order and repetition, one for each frame that
the run encrypts (`mem_runSeals`), under a nonce that its sequence number determines. One session
serves all flows, while sequence numbers are per flow: so a nonce is used for two payloads exactly
when two encrypted frames of the run share a sequence number and not the payload
(`nonces_unique_iff`).
-/

namespace SmipMwp.Datapath

open Crypto Routing Wire

/-! ## Which frames are encrypted -/

section Frames

variable (routes : Table) (session : Option HybridSession) (p : Bytes)

/-- The full spray encrypts a copy of the frame. -/
def encryptsSpray : Bool := (duplicate routes p).any (encrypts routes session)

/-- The session call that encrypts the payload of a frame. -/
def sealOf : Option SealCall :=
  session.map fun S => ⟨S.buildNonce (Packet.seqNum p), Packet.payload p⟩

theorem sealOf_redirected {p : Bytes} (hp : headerSize ≤ p.length) (nh : Id) :
    sealOf session (redirected p nh) = sealOf session p := by
  rw [sealOf, sealOf, seqNum_redirected hp, payload_redirected hp]

theorem sealOf_of_mem_duplicate {p q : Bytes} (hq : q ∈ duplicate routes p) :
    sealOf session q = sealOf session p := by
  rcases eq_or_redirected_of_mem_duplicate hq with rfl | ⟨hp, nh, rfl⟩
  · rfl
  · exact sealOf_redirected session hp nh

theorem emission_sealed (l : Layout) (frame : Bytes) :
    (emission l routes session frame p).sealed =
      if encrypts routes session p then sealOf session p else none := by
  rcases emission_cases l routes session frame p with ⟨henc, miss, he⟩ | ⟨henc, -, he⟩ |
    ⟨henc, S, ct, tag, rfl, -, -, -, he⟩ <;> rw [he, henc] <;> rfl

theorem primaryEmission_sealed :
    (primaryEmission routes session p).sealed =
      if encryptsPrimary routes session p then sealOf session p else none := by
  rcases primaryEmission_cases routes session p with ⟨henc, bytes, miss, -, he⟩ |
    ⟨henc, nh, S, ct, tag, rfl, -, -, -, he⟩ <;> rw [he, henc] <;> rfl

theorem isSealed_attempt_none : (attempt none p).isSealed = false := rfl

/-- Without a session nothing is encrypted. -/
theorem encrypts_none : encrypts routes none p = false := by
  rw [encrypts, isSealed_attempt_none, Bool.and_false]

theorem encryptsPrimary_none : encryptsPrimary routes none p = false := by
  rw [encryptsPrimary, isSealed_attempt_none, Bool.and_false]

theorem encryptsSpray_none : encryptsSpray routes none p = false := by
  simp [encryptsSpray, encrypts_none]

end Frames

/-! ## The session calls of one path -/

section Seals

variable {routes : Table} {session : Option HybridSession} {frames : List Bytes} {call : SealCall}

theorem mem_filterMap_sealed {em : Bytes → List Emission} :
    call ∈ (frames.flatMap em).filterMap Emission.sealed ↔
      ∃ p ∈ frames, ∃ e ∈ em p, e.sealed = some call := by
  simp only [List.mem_filterMap, List.mem_flatMap]
  constructor
  · rintro ⟨e, ⟨p, hp, he⟩, hcall⟩
    exact ⟨p, hp, e, he, hcall⟩
  · rintro ⟨p, hp, e, he, hcall⟩
    exact ⟨e, ⟨p, hp, he⟩, hcall⟩

/-- The calls of a path that makes, for a frame it encrypts, the call of the frame. -/
theorem mem_seals_iff {em : Bytes → List Emission} {enc : Bytes → Bool}
    (hem : ∀ p ∈ frames, (∃ e ∈ em p, e.sealed = some call) ↔
      enc p = true ∧ sealOf session p = some call) :
    call ∈ (frames.flatMap em).filterMap Emission.sealed ↔
      ∃ p ∈ frames.filter enc, sealOf session p = some call := by
  rw [mem_filterMap_sealed]
  constructor
  · rintro ⟨p, hp, he⟩
    obtain ⟨henc, hcall⟩ := (hem p hp).mp he
    exact ⟨p, List.mem_filter.mpr ⟨hp, henc⟩, hcall⟩
  · rintro ⟨p, hp, hcall⟩
    obtain ⟨hp, henc⟩ := List.mem_filter.mp hp
    exact ⟨p, hp, (hem p hp).mpr ⟨henc, hcall⟩⟩

theorem sealed_emission_iff {l : Layout} {p q : Bytes} :
    (emission l routes session p q).sealed = some call ↔
      encrypts routes session q = true ∧ sealOf session q = some call := by
  rw [emission_sealed]
  split_ifs with h <;> simp [h]

theorem mem_serial_seals :
    call ∈ (frames.flatMap (serialEmissions routes session)).filterMap Emission.sealed ↔
      ∃ p ∈ frames.filter (encrypts routes session), sealOf session p = some call :=
  mem_seals_iff fun p _ => by simp only [serialEmissions, List.mem_singleton, exists_eq_left,
    sealed_emission_iff]

theorem mem_owned_seals :
    call ∈ (frames.flatMap (ownedEmissions routes session)).filterMap Emission.sealed ↔
      ∃ p ∈ frames.filter (encrypts routes session), sealOf session p = some call :=
  mem_seals_iff fun p _ => by simp only [ownedEmissions, List.mem_singleton, exists_eq_left,
    sealed_emission_iff]

theorem mem_primary_seals :
    call ∈ (frames.flatMap (primaryEmissions routes session)).filterMap Emission.sealed ↔
      ∃ p ∈ frames.filter (encryptsPrimary routes session), sealOf session p = some call :=
  mem_seals_iff fun p _ => by
    simp only [primaryEmissions, List.mem_singleton, exists_eq_left, primaryEmission_sealed]
    split_ifs with h <;> simp [h]

/-- The copies of a frame all make the call of the frame. -/
theorem mem_spray_seals (l : Layout) :
    call ∈ (frames.flatMap fun p =>
        (duplicate routes p).map (emission l routes session p)).filterMap Emission.sealed ↔
      ∃ p ∈ frames.filter (encryptsSpray routes session), sealOf session p = some call :=
  mem_seals_iff fun p _ => by
    simp only [List.mem_map, exists_exists_and_eq_and, sealed_emission_iff, encryptsSpray,
      List.any_eq_true]
    constructor
    · rintro ⟨q, hq, henc, hcall⟩
      exact ⟨⟨q, hq, henc⟩, by rwa [sealOf_of_mem_duplicate routes session hq] at hcall⟩
    · rintro ⟨⟨q, hq, henc⟩, hcall⟩
      exact ⟨q, hq, henc, by rwa [sealOf_of_mem_duplicate routes session hq]⟩

end Seals

/-! ## Runs -/

/-- A call of a processing entry point, on the frames that the socket's poll returned. -/
inductive BatchCall
  | processBatch (threads : ℕ) (frames : List Bytes)
  | processBatchMcr (threads : ℕ) (frames : List Bytes)
  | processBatchSprayFull (threads : ℕ) (frames : List Bytes)
  | processBatchSlices (ring : SliceRing) (frames : List Bytes)

/-- A step of a run: the routes at the time, and the call. -/
structure RunStep where
  routes : Table
  call : BatchCall

/-- The call made; one that panics has sealed nothing. -/
def Forwarder.exec (f : Forwarder) (g : Telemetry) (c : RunStep) : BatchRun :=
  let f := { f with routes := c.routes }
  match c.call with
  | .processBatch threads frames => f.processBatch g threads frames
  | .processBatchMcr threads frames => f.processBatchMcr g threads frames
  | .processBatchSprayFull threads frames => f.processBatchSprayFull g threads frames
  | .processBatchSlices ring frames =>
    match f.processBatchSlices g ring frames with
    | some (r, _) => r
    | none => f.idle g

/-- The session calls of a run. -/
def runSeals (f : Forwarder) (g : Telemetry) : List RunStep → List SealCall
  | [] => []
  | c :: cs => (f.exec g c).trace.seals ++ runSeals (f.exec g c).forwarder (f.exec g c).telemetry cs

/-- The frames of a batch that `process_batch_mcr` encrypts. -/
def Forwarder.mcrFrames (f : Forwarder) (routes : Table) (frames : List Bytes) : List Bytes :=
  if f.mcrSprayMode ≠ "full" then frames.filter (encryptsPrimary routes f.session)
  else frames.filter (encryptsSpray routes f.session)

/-- The frames that a step encrypts. -/
def Forwarder.encryptedFrames (f : Forwarder) (c : RunStep) : List Bytes :=
  match c.call with
  | .processBatch _ frames =>
    if f.mcrEnabled then f.mcrFrames c.routes frames
    else frames.filter (encrypts c.routes f.session)
  | .processBatchMcr _ frames => f.mcrFrames c.routes frames
  | .processBatchSprayFull _ frames => f.mcrFrames c.routes frames
  | .processBatchSlices ring frames =>
    if frames.length ≤ ring.capacity then
      (frames.map (List.take ring.slotSize)).filter (encrypts c.routes f.session)
    else []

namespace Forwarder

variable (f : Forwarder) (g : Telemetry)

theorem mcrFrames_of_session_eq_none (hf : f.session = none) (routes : Table)
    (frames : List Bytes) : f.mcrFrames routes frames = [] := by
  rw [mcrFrames, hf]
  split_ifs <;> refine List.filter_eq_nil_iff.mpr fun p _ => ?_
  · rw [encryptsPrimary_none]
    decide
  · rw [encryptsSpray_none]
    decide

theorem encryptedFrames_of_session_eq_none (hf : f.session = none) (c : RunStep) :
    f.encryptedFrames c = [] := by
  have hfilter : ∀ (routes : Table) (frames : List Bytes),
      frames.filter (encrypts routes f.session) = [] := fun routes frames =>
    List.filter_eq_nil_iff.mpr fun p _ => by rw [hf, encrypts_none]; decide
  obtain ⟨routes, c⟩ := c
  cases c <;>
    simp only [encryptedFrames, hfilter, f.mcrFrames_of_session_eq_none hf, ite_self]

/-! ## One step -/

theorem mem_seals_processBatchMcr {threads : ℕ} {frames : List Bytes} {call : SealCall} :
    call ∈ (f.processBatchMcr g threads frames).trace.seals ↔
      ∃ p ∈ f.mcrFrames f.routes frames, sealOf f.session p = some call := by
  rcases eq_or_ne frames [] with rfl | hne
  · simp [processBatchMcr, mcrFrames, idle]
  have hempty : ¬ frames.isEmpty = true := by simpa using hne
  rw [processBatchMcr, if_neg hempty, mcrFrames]
  split_ifs
  · rw [(f.sends_processPrimary g (f.fresh_startMcr frames) frames).seals, mem_primary_seals]
  · rw [(f.sends_processSpraySerial g (f.fresh_startMcr frames) frames).seals]
    exact mem_spray_seals .spray
  · rw [(f.sends_processSprayParallel g (f.fresh_startMcr frames) frames).seals]
    exact mem_spray_seals .owned

theorem mem_seals_processBatch {threads : ℕ} {frames : List Bytes} {call : SealCall} :
    call ∈ (f.processBatch g threads frames).trace.seals ↔
      ∃ p ∈ f.encryptedFrames ⟨f.routes, .processBatch threads frames⟩,
        sealOf f.session p = some call := by
  rw [processBatch, encryptedFrames]
  split_ifs with hmcr hempty
  · exact f.mem_seals_processBatchMcr g
  · obtain rfl : frames = [] := List.isEmpty_iff.mp hempty
    simp [idle]
  · rw [(f.sends_processSerial g frames).seals, mem_serial_seals]
  · rw [(f.sends_processParallel g frames).seals, mem_owned_seals]

/-- The session calls of a step are those of the frames it encrypts. -/
theorem mem_seals_exec {c : RunStep} {call : SealCall} :
    call ∈ (f.exec g c).trace.seals ↔
      ∃ p ∈ f.encryptedFrames c, sealOf f.session p = some call := by
  obtain ⟨routes, c⟩ := c
  cases c with
  | processBatch threads frames =>
    exact mem_seals_processBatch { f with routes := routes } g
  | processBatchMcr threads frames =>
    exact mem_seals_processBatchMcr { f with routes := routes } g
  | processBatchSprayFull threads frames =>
    exact mem_seals_processBatchMcr { f with routes := routes } g
  | processBatchSlices ring frames =>
    simp only [exec, encryptedFrames]
    rcases le_or_gt frames.length ring.capacity with hle | hgt
    · rw [if_pos hle]
      rcases eq_or_ne frames [] with rfl | hne
      · rw [processBatchSlices_nil]
        simp [idle]
      · obtain ⟨r, hr, h⟩ :=
          sends_processBatchSlices { f with routes := routes } g hle hne
        simp only [hr]
        rw [h.seals, mem_serial_seals]
    · rw [if_neg (not_le.mpr hgt), processBatchSlices_eq_none _ g hgt]
      simp [idle]

/-- What a call never changes: the session and the configuration. -/
structure SameConfig (f f' : Forwarder) : Prop where
  session : f'.session = f.session
  mcrEnabled : f'.mcrEnabled = f.mcrEnabled
  mcrSprayMode : f'.mcrSprayMode = f.mcrSprayMode

theorem sameConfig_processBatchMcr (threads : ℕ) (frames : List Bytes) :
    SameConfig f (f.processBatchMcr g threads frames).forwarder := by
  unfold processBatchMcr
  split_ifs <;> exact ⟨rfl, rfl, rfl⟩

theorem sameConfig_processBatch (threads : ℕ) (frames : List Bytes) :
    SameConfig f (f.processBatch g threads frames).forwarder := by
  unfold processBatch
  split_ifs
  · exact f.sameConfig_processBatchMcr g threads frames
  all_goals exact ⟨rfl, rfl, rfl⟩

theorem sameConfig_processBatchSlices {ring : SliceRing} {frames : List Bytes}
    {r : BatchRun × SliceRing} (h : f.processBatchSlices g ring frames = some r) :
    SameConfig f r.1.forwarder := by
  unfold processBatchSlices at h
  cases hpoll : ring.pollSlices frames with
  | none => simp [hpoll] at h
  | some polled =>
    simp only [hpoll, Option.bind_eq_bind, Option.bind_some] at h
    split_ifs at h <;> obtain rfl := Option.some.inj h <;> exact ⟨rfl, rfl, rfl⟩

theorem sameConfig_exec (c : RunStep) : SameConfig f (f.exec g c).forwarder := by
  obtain ⟨routes, c⟩ := c
  cases c with
  | processBatch threads frames =>
    obtain ⟨h₁, h₂, h₃⟩ := sameConfig_processBatch { f with routes := routes } g threads frames
    exact ⟨h₁, h₂, h₃⟩
  | processBatchMcr threads frames =>
    obtain ⟨h₁, h₂, h₃⟩ := sameConfig_processBatchMcr { f with routes := routes } g threads frames
    exact ⟨h₁, h₂, h₃⟩
  | processBatchSprayFull threads frames =>
    obtain ⟨h₁, h₂, h₃⟩ := sameConfig_processBatchMcr { f with routes := routes } g threads frames
    exact ⟨h₁, h₂, h₃⟩
  | processBatchSlices ring frames =>
    simp only [exec]
    split
    · rename_i r _ h
      obtain ⟨h₁, h₂, h₃⟩ := sameConfig_processBatchSlices { f with routes := routes } g h
      exact ⟨h₁, h₂, h₃⟩
    · exact ⟨rfl, rfl, rfl⟩

variable {f} in
theorem SameConfig.encryptedFrames_eq {f' : Forwarder} (h : SameConfig f f') (c : RunStep) :
    f'.encryptedFrames c = f.encryptedFrames c := by
  obtain ⟨h₁, h₂, h₃⟩ := h
  simp only [encryptedFrames, mcrFrames, h₁, h₂, h₃]

end Forwarder

/-! ## The whole run -/

/-- **The session calls of a run** are those of the frames it encrypts. -/
theorem mem_runSeals (f : Forwarder) (g : Telemetry) (cs : List RunStep) (call : SealCall) :
    call ∈ runSeals f g cs ↔
      ∃ p ∈ cs.flatMap f.encryptedFrames, sealOf f.session p = some call := by
  induction cs generalizing f g with
  | nil => simp [runSeals]
  | cons c cs ih =>
    have hconf := f.sameConfig_exec g c
    have hframes : cs.flatMap (f.exec g c).forwarder.encryptedFrames =
        cs.flatMap f.encryptedFrames :=
      List.flatMap_congr fun c' _ => hconf.encryptedFrames_eq c'
    rw [runSeals, List.mem_append, f.mem_seals_exec, ih, hframes, hconf.session]
    simp only [List.flatMap_cons, List.mem_append, or_and_right, exists_or]

/-- Two frames of one session make calls with the same nonce exactly if they have the same sequence
number. -/
theorem sealOf_nonce_eq_iff {session : Option HybridSession} {p q : Bytes} {a b : SealCall}
    (ha : sealOf session p = some a) (hb : sealOf session q = some b) :
    a.nonce = b.nonce ↔ Packet.seqNum p = Packet.seqNum q := by
  rcases session with _ | S
  · cases ha
  · cases ha
    cases hb
    exact S.buildNonce_injective.eq_iff

theorem sealOf_payload {session : Option HybridSession} {p : Bytes} {a : SealCall}
    (ha : sealOf session p = some a) : a.payload = Packet.payload p := by
  rcases session with _ | S <;> cases ha
  rfl

/-- A frame that the run encrypts makes a call. -/
theorem exists_sealOf {f : Forwarder} {cs : List RunStep} {p : Bytes}
    (hp : p ∈ cs.flatMap f.encryptedFrames) : ∃ a, sealOf f.session p = some a := by
  obtain ⟨c, -, hp⟩ := List.mem_flatMap.mp hp
  cases hf : f.session with
  | none =>
    rw [f.encryptedFrames_of_session_eq_none hf] at hp
    cases hp
  | some S => exact ⟨_, rfl⟩

/-- **No nonce of a run is used for two payloads exactly when** any two frames that the run
encrypts, whatever their source, destination and flow, have the same payload if they have the same
sequence number. -/
theorem nonces_unique_iff (f : Forwarder) (g : Telemetry) (cs : List RunStep) :
    (∀ a ∈ runSeals f g cs, ∀ b ∈ runSeals f g cs, a.nonce = b.nonce → a.payload = b.payload) ↔
      ∀ p ∈ cs.flatMap f.encryptedFrames, ∀ q ∈ cs.flatMap f.encryptedFrames,
        Packet.seqNum p = Packet.seqNum q → Packet.payload p = Packet.payload q := by
  constructor
  · intro h p hp q hq hseq
    obtain ⟨a, ha⟩ := exists_sealOf hp
    obtain ⟨b, hb⟩ := exists_sealOf hq
    rw [← sealOf_payload ha, ← sealOf_payload hb]
    exact h a ((mem_runSeals f g cs a).mpr ⟨p, hp, ha⟩) b ((mem_runSeals f g cs b).mpr ⟨q, hq, hb⟩)
      ((sealOf_nonce_eq_iff ha hb).mpr hseq)
  · intro h a ha b hb hnonce
    obtain ⟨p, hp, ha⟩ := (mem_runSeals f g cs a).mp ha
    obtain ⟨q, hq, hb⟩ := (mem_runSeals f g cs b).mp hb
    rw [sealOf_payload ha, sealOf_payload hb]
    exact h p hp q hq ((sealOf_nonce_eq_iff ha hb).mp hnonce)

/-- A packet to the same destination with a payload of one byte. -/
def onePacket : Bytes := List.replicate 95 0 ++ [1] ++ [7]

theorem encrypts_onePacket :
    encrypts (zeroForwarder [] false "primary").routes (some .zero) onePacket = true := by
  rw [encrypts, isRouted_of_singleton rfl]
  decide

/-- Two packets of sequence number zero, as two flows may send them, are encrypted under one
nonce. -/
theorem runSeals_nonce_reused :
    ∃ a ∈ runSeals (zeroForwarder [] false "primary") {}
        [⟨(zeroForwarder [] false "primary").routes, .processBatch 1 [zeroPacket [], onePacket]⟩],
      ∃ b ∈ runSeals (zeroForwarder [] false "primary") {}
        [⟨(zeroForwarder [] false "primary").routes, .processBatch 1 [zeroPacket [], onePacket]⟩],
        a.nonce = b.nonce ∧ a.payload ≠ b.payload := by
  have hframes : ∀ p ∈ [zeroPacket [], onePacket],
      p ∈ [RunStep.mk (zeroForwarder [] false "primary").routes
        (.processBatch 1 [zeroPacket [], onePacket])].flatMap
          (zeroForwarder [] false "primary").encryptedFrames := by
    intro p hp
    rw [List.flatMap_singleton]
    refine List.mem_filter.mpr ⟨hp, ?_⟩
    rcases List.mem_cons.mp hp with rfl | hp
    · exact encrypts_zeroForwarder [] false "primary" []
    · rw [List.mem_singleton.mp hp]
      exact encrypts_onePacket
  refine ⟨_, (mem_runSeals _ _ _ _).mpr ⟨zeroPacket [], hframes _ (by simp), rfl⟩,
    _, (mem_runSeals _ _ _ _).mpr ⟨onePacket, hframes _ (by simp), rfl⟩, ?_, ?_⟩
  · have hseq : Packet.seqNum (zeroPacket []) = Packet.seqNum onePacket := by
      rw [seqNum_zeroPacket]
      decide
    exact congrArg HybridSession.zero.buildNonce hseq
  · rw [payload_zeroPacket]
    decide

end SmipMwp.Datapath
