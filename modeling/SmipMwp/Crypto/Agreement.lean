import Mathlib.Data.Fintype.Card
import SmipMwp.Crypto.SingleUse

/-!
# Handshakes over an open network

Any number of handshakes are under way, and `respond` and `finish` are called on them in any order,
with anything for input: a message may arrive changed, late, twice, or at a handshake that it was
not meant for. A session secret is then shared by the two ends of one undisturbed handshake and by
no one else (`handshakes_agree`).

The hash and HKDF must not collide on what goes into the secrets of the run, and the ephemeral keys
must differ. A handshake that is used from both sides completes once, by `keys_single_use`.
-/

namespace SmipMwp.Crypto

variable {P : KexPrimitives} {ι : Type*}

namespace KexCall

/-- The session secret that the call returns. -/
def secret (kex : HybridKEX P) : KexCall P → Except KexError (Vector UInt8 sessionSecretLen)
  | respond rng initiatorPub => (kex.respond rng initiatorPub).1.map Prod.snd
  | finish responderMsg => (kex.finish responderMsg).1

/-- What the call puts into the secret. -/
def inputs (kex : HybridKEX P) : KexCall P → Option HandshakeInputs
  | respond rng initiatorPub => kex.respondInputs rng initiatorPub
  | finish responderMsg => kex.finishInputs responderMsg

/-- The side that the call is made by. -/
def isRespond : KexCall P → Bool
  | respond _ _ => true
  | finish _ => false

end KexCall

/-- A call that returned a secret, on the handshake `party` when this was `kex`. -/
structure Completion (P : KexPrimitives) (ι : Type*) where
  party : ι
  kex : HybridKEX P
  call : KexCall P
  secret : Vector UInt8 sessionSecretLen

namespace Completion

/-- What went into the secret. -/
def inputs (c : Completion P ι) : Option HandshakeInputs := c.call.inputs c.kex

/-- `f` finished the handshake that `r` answered: the public key of `f` reached `r`, and the answer
reached `f`, as they were sent. -/
def Answers (r f : Completion P ι) : Prop :=
  ∃ rng initiatorPub responderMsg msg,
    r.call = .respond rng initiatorPub ∧ f.call = .finish responderMsg ∧
    (r.kex.respond rng initiatorPub).1 = .ok (msg, r.secret) ∧
    initiatorPub.take initiatorPubLen = f.kex.publicKey.toList ∧
    responderMsg.take responderMsgLen = msg.toList

/-- The two ends of one handshake. -/
def Partners (c d : Completion P ι) : Prop := c.Answers d ∨ d.Answers c

/-- The call was made and returned the secret. -/
def Genuine (c : Completion P ι) : Prop := c.call.secret c.kex = .ok c.secret

theorem Answers.isRespond {r f : Completion P ι} (h : r.Answers f) :
    r.call.isRespond = true ∧ f.call.isRespond = false := by
  obtain ⟨_, _, _, _, hr, hf, -⟩ := h
  rw [hr, hf]
  exact ⟨rfl, rfl⟩

theorem Partners.isRespond_ne {c d : Completion P ι} (h : c.Partners d) :
    c.call.isRespond ≠ d.call.isRespond := by
  rcases h with h | h
  · rw [h.isRespond.1, h.isRespond.2]
    exact Bool.false_ne_true.symm
  · rw [h.isRespond.1, h.isRespond.2]
    exact Bool.false_ne_true

end Completion

/-! ## One call -/

namespace KexCall

variable {kex : HybridKEX P} {call : KexCall P} {ss : Vector UInt8 sessionSecretLen}

/-- A response that returns a secret sends a message. -/
theorem exists_message {rng : P.Randomness} {initiatorPub : Bytes}
    (h : (respond rng initiatorPub).secret kex = .ok ss) :
    ∃ msg, (kex.respond rng initiatorPub).1 = .ok (msg, ss) := by
  simp only [secret] at h
  cases hrespond : (kex.respond rng initiatorPub).1 with
  | error e =>
    rw [hrespond] at h
    cases h
  | ok p =>
    rw [hrespond] at h
    obtain rfl := Except.ok.inj h
    exact ⟨p.1, rfl⟩

/-- A secret comes of an input of full length and of what goes into it. -/
theorem of_secret_eq_ok (h : call.secret kex = .ok ss) :
    call.LongEnough ∧ ∃ a ∈ call.inputs kex, a.sessionSecret P = .ok ss := by
  cases call with
  | respond rng initiatorPub =>
    obtain ⟨msg, hrespond⟩ := exists_message h
    obtain ⟨hlong, a, ha, hss, -⟩ := HybridKEX.respond_eq_ok_iff.mp hrespond
    exact ⟨hlong, a, ha, hss⟩
  | finish responderMsg => exact HybridKEX.finish_eq_ok_iff.mp h

/-- What goes in holds the caller's own public key, on its own side. -/
theorem x25519Pub_of_inputs {a : HandshakeInputs} (h : call.inputs kex = some a) :
    (if call.isRespond then a.x25519RespPub else a.x25519InitPub) = kex.x25519Pub := by
  cases call with
  | respond rng initiatorPub => exact (HybridKEX.respondInputs_eq_some h).1.2.1
  | finish responderMsg => exact (HybridKEX.finishInputs_eq_some h).1.1

/-- Without the X25519 secret there is no session secret. -/
theorem secret_ne_ok_of_spent (hspent : kex.x25519Priv = none) : call.secret kex ≠ .ok ss := by
  intro h
  obtain ⟨-, a, ha, -⟩ := of_secret_eq_ok h
  cases call with
  | respond rng initiatorPub => simp [inputs, HybridKEX.respondInputs, hspent] at ha
  | finish responderMsg => simp [inputs, HybridKEX.finishInputs, hspent] at ha

/-- No call changes the public key. -/
theorem x25519Pub_step : (call.step kex).x25519Pub = kex.x25519Pub := by
  cases call with
  | respond rng initiatorPub =>
    simp only [step, HybridKEX.respond]
    repeat' split
    all_goals rfl
  | finish responderMsg =>
    simp only [step, HybridKEX.finish]
    repeat' split
    all_goals rfl

/-- A spent handshake stays spent. -/
theorem x25519Priv_step_of_spent (hspent : kex.x25519Priv = none) :
    (call.step kex).x25519Priv = none := by
  by_cases hlong : call.LongEnough
  · exact x25519Priv_step kex hlong
  · rw [(step_of_short kex hlong).2, hspent]

end KexCall

/-! ## Two completions -/

namespace Completion

variable {c d : Completion P ι}

/-- Calls on the same side that return one secret were made with one public key. -/
theorem x25519Pub_eq_of_secret_eq (hsep : ∀ a ∈ c.inputs, ∀ b ∈ d.inputs, P.Separates a b)
    (hc : c.Genuine) (hd : d.Genuine) (hside : c.call.isRespond = d.call.isRespond)
    (hsecret : c.secret = d.secret) : c.kex.x25519Pub = d.kex.x25519Pub := by
  obtain ⟨-, a, ha, hssa⟩ := KexCall.of_secret_eq_ok hc
  obtain ⟨-, b, hb, hssb⟩ := KexCall.of_secret_eq_ok hd
  rw [← hsecret] at hssb
  obtain ⟨hinit, hresp, -⟩ :=
    HandshakeInputs.sameTranscript_of_secret_eq (hsep a ha b hb) hssa hssb
  rw [← KexCall.x25519Pub_of_inputs ha, ← KexCall.x25519Pub_of_inputs hb, hside, hinit, hresp]

/-- An answer and the call that finished: the secrets agree if they belong together. -/
theorem secret_eq_iff_answers (hcomm : P.Commutes) (hdecaps : P.Decapsulates)
    (hsep : ∀ a ∈ c.inputs, ∀ b ∈ d.inputs, P.Separates a b) (hc : c.Genuine) (hd : d.Genuine)
    (hrespond : c.call.isRespond = true) (hfinish : d.call.isRespond = false) :
    c.secret = d.secret ↔ c.Answers d := by
  obtain ⟨party, kex, call, ss⟩ := c
  obtain ⟨party', kex', call', ss'⟩ := d
  cases call with
  | finish responderMsg => cases hrespond
  | respond rng initiatorPub =>
    cases call' with
    | respond rng' initiatorPub' => cases hfinish
    | finish responderMsg =>
      obtain ⟨msg, hok⟩ := KexCall.exists_message hc
      have hiff := HybridKEX.handshake_secret_eq_iff hcomm hdecaps hsep hok hd
      rw [eq_comm, hiff]
      constructor
      · rintro ⟨hpub, hmsg⟩
        exact ⟨rng, initiatorPub, responderMsg, msg, rfl, rfl, hok, hpub, hmsg⟩
      · rintro ⟨_, _, _, msg', hcall, hcall', hok', hpub, hmsg⟩
        cases hcall
        cases hcall'
        have hsent : msg = msg' := congrArg Prod.fst (Except.ok.inj (hok.symm.trans hok'))
        exact ⟨hpub, hsent ▸ hmsg⟩

theorem genuine_respond {party : ι} {kex : HybridKEX P} {rng : P.Randomness} {initiatorPub : Bytes}
    {msg : Vector UInt8 responderMsgLen} {ss : Vector UInt8 sessionSecretLen}
    (h : (kex.respond rng initiatorPub).1 = .ok (msg, ss)) :
    Genuine ⟨party, kex, .respond rng initiatorPub, ss⟩ := by
  simp only [Genuine, KexCall.secret, h]
  rfl

theorem genuine_finish {party : ι} {kex : HybridKEX P} {responderMsg : Bytes}
    {ss : Vector UInt8 sessionSecretLen} (h : (kex.finish responderMsg).1 = .ok ss) :
    Genuine ⟨party, kex, .finish responderMsg, ss⟩ := h

/-- Two sides have one secret if they are the ends of one handshake. -/
theorem secret_eq_iff_partners (hcomm : P.Commutes) (hdecaps : P.Decapsulates)
    (hsep : ∀ a ∈ c.inputs, ∀ b ∈ d.inputs, P.Separates a b)
    (hsep' : ∀ a ∈ d.inputs, ∀ b ∈ c.inputs, P.Separates a b) (hc : c.Genuine) (hd : d.Genuine)
    (hside : c.call.isRespond ≠ d.call.isRespond) : c.secret = d.secret ↔ c.Partners d := by
  cases hrespond : c.call.isRespond with
  | true =>
    have hfinish : d.call.isRespond = false := eq_false_of_ne_true (hrespond ▸ hside.symm)
    rw [secret_eq_iff_answers hcomm hdecaps hsep hc hd hrespond hfinish]
    refine (or_iff_left fun h => ?_).symm
    exact absurd (h.isRespond.1.symm.trans hfinish) Bool.false_ne_true.symm
  | false =>
    have hrespond' : d.call.isRespond = true := eq_true_of_ne_false (hrespond ▸ hside.symm)
    rw [eq_comm, secret_eq_iff_answers hcomm hdecaps hsep' hd hc hrespond' hrespond]
    refine (or_iff_right fun h => ?_).symm
    exact absurd (h.isRespond.1.symm.trans hrespond) Bool.false_ne_true.symm

end Completion

/-! ## The network -/

section Network

variable [DecidableEq ι]

/-- The handshakes after a call on one of them. -/
def networkStep (net : ι → HybridKEX P) (e : ι × KexCall P) : ι → HybridKEX P :=
  Function.update net e.1 (e.2.step (net e.1))

/-- The call as a completion, if it returns a secret. -/
def completions (net : ι → HybridKEX P) (e : ι × KexCall P) : List (Completion P ι) :=
  match e.2.secret (net e.1) with
  | .ok ss => [⟨e.1, net e.1, e.2, ss⟩]
  | .error _ => []

/-- What the calls of a run complete, in order. -/
def completed (net : ι → HybridKEX P) (events : List (ι × KexCall P)) : List (Completion P ι) :=
  runLog networkStep completions net events

omit [DecidableEq ι] in
theorem eq_of_mem_completions {net : ι → HybridKEX P} {e : ι × KexCall P} {c : Completion P ι}
    (h : c ∈ completions net e) :
    c.party = e.1 ∧ c.kex = net e.1 ∧ c.call = e.2 ∧ c.Genuine := by
  unfold completions at h
  cases hss : e.2.secret (net e.1) with
  | ok ss =>
    rw [hss] at h
    obtain rfl := List.mem_singleton.mp h
    exact ⟨rfl, rfl, rfl, hss⟩
  | error err =>
    rw [hss] at h
    cases h

omit [DecidableEq ι] in
theorem longEnough_of_mem_completions {net : ι → HybridKEX P} {e : ι × KexCall P}
    {c : Completion P ι} (h : c ∈ completions net e) : e.2.LongEnough := by
  unfold completions at h
  cases hss : e.2.secret (net e.1) with
  | ok ss => exact (KexCall.of_secret_eq_ok hss).1
  | error err =>
    rw [hss] at h
    cases h

/-- Each completion is a call that returned its secret, on a handshake with the public key that its
party had from the start. -/
theorem genuine_of_mem_completed (net : ι → HybridKEX P) (events : List (ι × KexCall P)) :
    ∀ c ∈ completed net events, c.Genuine ∧ c.kex.x25519Pub = (net c.party).x25519Pub := by
  refine (forall_mem_runLog (fun net' : ι → HybridKEX P =>
    ∀ i, (net' i).x25519Pub = (net i).x25519Pub) (fun net' e hinv => ⟨fun i => ?_, ?_⟩)
    (fun _ => rfl) events).2
  · unfold networkStep
    by_cases hi : i = e.1
    · rw [hi, Function.update_self, KexCall.x25519Pub_step, hinv]
    · rw [Function.update_of_ne hi, hinv]
  · intro c hc
    obtain ⟨hparty, hkex, -, hgenuine⟩ := eq_of_mem_completions hc
    exact ⟨hgenuine, by rw [hkex, hparty, hinv]⟩

/-- A spent handshake completes no more. -/
theorem party_ne_of_spent {net : ι → HybridKEX P} {i : ι} (hspent : (net i).x25519Priv = none)
    (events : List (ι × KexCall P)) : ∀ c ∈ completed net events, i ≠ c.party := by
  refine (forall_mem_runLog (fun net' : ι → HybridKEX P => (net' i).x25519Priv = none)
    (fun net' e hinv => ⟨?_, ?_⟩) hspent events).2
  · unfold networkStep
    by_cases hi : i = e.1
    · subst hi
      rw [Function.update_self]
      exact KexCall.x25519Priv_step_of_spent hinv
    · rw [Function.update_of_ne hi, hinv]
  · rintro c hc rfl
    obtain ⟨hparty, hkex, -, hgenuine⟩ := eq_of_mem_completions hc
    exact KexCall.secret_ne_ok_of_spent (by rw [hkex, ← hparty, hinv]) hgenuine

/-- Each party completes at most once. -/
theorem pairwise_party_completed (net : ι → HybridKEX P) (events : List (ι × KexCall P)) :
    (completed net events).Pairwise fun c d => c.party ≠ d.party := by
  induction events generalizing net with
  | nil => exact List.Pairwise.nil
  | cons e events ih =>
    refine List.pairwise_append.mpr ⟨?_, ih _, fun c hc d hd => ?_⟩
    · unfold completions
      cases e.2.secret (net e.1) with
      | error err => exact List.Pairwise.nil
      | ok ss => exact List.pairwise_singleton _ _
    · obtain ⟨hparty, -⟩ := eq_of_mem_completions hc
      refine hparty ▸ party_ne_of_spent ?_ events d hd
      rw [networkStep, Function.update_self]
      exact KexCall.x25519Priv_step _ (longEnough_of_mem_completions hc)

/-! ## Agreement -/

/-- The hash and HKDF do not collide on what goes into the secrets of the completions. -/
def SeparatesAll (P : KexPrimitives) (cs : List (Completion P ι)) : Prop :=
  ∀ c ∈ cs, ∀ d ∈ cs, ∀ a ∈ c.inputs, ∀ b ∈ d.inputs, P.Separates a b

variable {net : ι → HybridKEX P} {events : List (ι × KexCall P)}

/-- Two completions with one secret are the ends of one handshake. -/
theorem pairwise_secret_eq_iff (hcomm : P.Commutes) (hdecaps : P.Decapsulates)
    (hfresh : Function.Injective fun i => (net i).x25519Pub)
    (hsep : SeparatesAll P (completed net events)) :
    (completed net events).Pairwise fun c d => c.secret = d.secret ↔ c.Partners d := by
  refine (pairwise_party_completed net events).imp_of_mem fun {c d} hc hd hparty => ?_
  obtain ⟨hgc, hpubc⟩ := genuine_of_mem_completed net events c hc
  obtain ⟨hgd, hpubd⟩ := genuine_of_mem_completed net events d hd
  by_cases hside : c.call.isRespond = d.call.isRespond
  · refine iff_of_false (fun hsecret => hparty (hfresh ?_)) fun hpartners =>
      hpartners.isRespond_ne hside
    have hpub := Completion.x25519Pub_eq_of_secret_eq (hsep c hc d hd) hgc hgd hside hsecret
    exact hpubc.symm.trans (hpub.trans hpubd)
  · exact Completion.secret_eq_iff_partners hcomm hdecaps (hsep c hc d hd) (hsep d hd c hc) hgc hgd
      hside

omit [DecidableEq ι] in
/-- Ends of handshakes in pairs are two at most. -/
theorem length_le_two_of_partners {cs : List (Completion P ι)}
    (h : cs.Pairwise Completion.Partners) : cs.length ≤ 2 := by
  have hnodup : (cs.map fun c => c.call.isRespond).Nodup :=
    List.pairwise_map.mpr (h.imp Completion.Partners.isRespond_ne)
  calc cs.length = (cs.map fun c => c.call.isRespond).length := (List.length_map _).symm
    _ ≤ Fintype.card Bool := hnodup.length_le_card
    _ = 2 := Fintype.card_bool

/-- **A session secret belongs to one handshake**: in every run, each party gets one secret at most,
two have the same one exactly if one answered the other and both messages arrived as they were
sent, and no secret is had by three. -/
theorem handshakes_agree (hcomm : P.Commutes) (hdecaps : P.Decapsulates)
    (net : ι → HybridKEX P) (hfresh : Function.Injective fun i => (net i).x25519Pub)
    (events : List (ι × KexCall P)) (hsep : SeparatesAll P (completed net events)) :
    (completed net events).Pairwise (fun c d =>
      c.party ≠ d.party ∧ (c.secret = d.secret ↔ c.Partners d)) ∧
    ∀ ss, (completed net events).countP (fun c => c.secret == ss) ≤ 2 := by
  have hpairs := pairwise_secret_eq_iff hcomm hdecaps hfresh hsep
  refine ⟨(pairwise_party_completed net events).and hpairs, fun ss => ?_⟩
  rw [List.countP_eq_length_filter]
  refine length_le_two_of_partners ((hpairs.filter _).imp_of_mem fun {c d} hc hd hiff => ?_)
  have hcss := beq_iff_eq.mp (List.mem_filter.mp hc).2
  have hdss := beq_iff_eq.mp (List.mem_filter.mp hd).2
  exact hiff.mp (hcss.trans hdss.symm)

end Network

/-! ## The recorded handshake -/

section Recorded

open HybridKEX (recorded recordedCt recordedInputs recordedSecret)

/-- The two sides of the recorded handshake. -/
def recordedNet (responds : Bool) : HybridKEX recorded := .new responds ()

def recordedCall : Bool → KexCall recorded
  | true => .respond () (recordedNet false).publicKey.toList
  | false => .finish (recorded.publicKey true ++ recordedCt).toList

/-- The responder answers the initiator, which finishes. -/
def recordedEvents : List (Bool × KexCall recorded) :=
  [(true, recordedCall true), (false, recordedCall false)]

def recordedCompletion (responds : Bool) : Completion recorded Bool :=
  ⟨responds, recordedNet responds, recordedCall responds, recordedSecret⟩

theorem respondInputs_recorded : (recordedNet true).respondInputs ()
    (recordedNet false).publicKey.toList = some recordedInputs :=
  HybridKEX.respondInputs_publicKey rfl rfl

theorem finishInputs_recorded : (recordedNet false).finishInputs
    (recorded.publicKey true ++ recordedCt).toList = some recordedInputs :=
  HybridKEX.finishInputs_append rfl rfl

theorem inputs_recordedCompletion (responds : Bool) :
    (recordedCompletion responds).inputs = some recordedInputs := by
  cases responds with
  | true => exact respondInputs_recorded
  | false => exact finishInputs_recorded

theorem sessionSecret_recordedInputs :
    recordedInputs.sessionSecret recorded = .ok recordedSecret := by
  decide +kernel

theorem respond_recordedNet : ((recordedNet true).respond ()
    (recordedNet false).publicKey.toList).1 =
      .ok (recorded.publicKey true ++ recordedCt, recordedSecret) :=
  HybridKEX.respond_eq_ok_iff.mpr ⟨(Vector.length_toList).ge, recordedInputs,
    respondInputs_recorded, sessionSecret_recordedInputs, rfl⟩

theorem finish_recordedNet : ((recordedNet false).finish
    (recorded.publicKey true ++ recordedCt).toList).1 = .ok recordedSecret :=
  HybridKEX.finish_eq_ok_iff.mpr ⟨(Vector.length_toList).ge, recordedInputs,
    finishInputs_recorded, sessionSecret_recordedInputs⟩

theorem genuine_recordedCompletion (responds : Bool) : (recordedCompletion responds).Genuine := by
  cases responds with
  | true => exact Completion.genuine_respond respond_recordedNet
  | false => exact Completion.genuine_finish finish_recordedNet

theorem completed_recorded : completed recordedNet recordedEvents =
    [recordedCompletion true, recordedCompletion false] := by
  have hcompletions : ∀ (net : Bool → HybridKEX recorded) (responds : Bool),
      net responds = recordedNet responds →
        completions net (responds, recordedCall responds) = [recordedCompletion responds] := by
    intro net responds hnet
    have hsecret : (recordedCall responds).secret (net responds) = .ok recordedSecret :=
      hnet ▸ genuine_recordedCompletion responds
    rw [completions, hsecret, hnet]
    rfl
  have hnext : networkStep recordedNet (true, recordedCall true) false = recordedNet false :=
    Function.update_of_ne Bool.false_ne_true _ _
  rw [completed, recordedEvents, runLog, runLog, runLog_nil, hcompletions _ true rfl,
    hcompletions _ false hnext]
  rfl

theorem take_toList {n : ℕ} (v : Vector UInt8 n) : v.toList.take n = v.toList :=
  List.take_of_length_le (Vector.length_toList).le

/-- The two ends of the recorded handshake. -/
theorem partners_recorded : (recordedCompletion true).Partners (recordedCompletion false) :=
  .inl ⟨(), (recordedNet false).publicKey.toList, (recorded.publicKey true ++ recordedCt).toList,
    recorded.publicKey true ++ recordedCt, rfl, rfl, respond_recordedNet,
    take_toList (recordedNet false).publicKey, take_toList (recorded.publicKey true ++ recordedCt)⟩

theorem commutes_recorded : recorded.Commutes := fun _ _ => rfl

theorem decapsulates_recorded : recorded.Decapsulates := by
  intro dk rng ct ss h
  exact congrArg some (congrArg Prod.snd (Option.some.inj h))

theorem fresh_recordedNet : Function.Injective fun i => (recordedNet i).x25519Pub := by
  have hne : recorded.publicKey false ≠ recorded.publicKey true := by decide
  exact Bool.injective_iff.mpr hne

theorem separatesAll_recorded : SeparatesAll recorded (completed recordedNet recordedEvents) := by
  rw [completed_recorded]
  have hinputs : ∀ c ∈ [recordedCompletion true, recordedCompletion false],
      c.inputs = some recordedInputs := by
    rw [List.forall_mem_cons, List.forall_mem_singleton]
    exact ⟨inputs_recordedCompletion true, inputs_recordedCompletion false⟩
  intro c hc d hd a ha b hb
  rw [hinputs c hc] at ha
  rw [hinputs d hd] at hb
  cases ha
  cases hb
  exact ⟨fun _ => rfl, fun _ => rfl, fun _ => rfl⟩

theorem handshakes_agree_recorded :
    (completed recordedNet recordedEvents).Pairwise (fun c d =>
      c.party ≠ d.party ∧ (c.secret = d.secret ↔ c.Partners d)) ∧
    ∀ ss, (completed recordedNet recordedEvents).countP (fun c => c.secret == ss) ≤ 2 :=
  handshakes_agree commutes_recorded decapsulates_recorded recordedNet fresh_recordedNet
    recordedEvents separatesAll_recorded

end Recorded

end SmipMwp.Crypto
