import SmipMwp.Crypto.Kex
import SmipMwp.Foundations.Runs

/-!
# Ephemeral keys are used once

`respond` and `finish` share one X25519 secret. Both check the length of what they receive first and
take the secret out next, whatever comes of the rest, so over any run of calls the first input of
full length spends the key (`x25519Priv_run`): at most one call succeeds, and short inputs do no
harm (`keys_single_use`).
-/

namespace SmipMwp.Crypto

/-- A call to `respond`, with the randomness it draws, or to `finish`. -/
inductive KexCall (P : KexPrimitives)
  | respond (rng : P.Randomness) (initiatorPub : Bytes)
  | finish (responderMsg : Bytes)

namespace KexCall

variable {P : KexPrimitives}

/-- The handshake after the call. -/
def step (kex : HybridKEX P) : KexCall P → HybridKEX P
  | respond rng initiatorPub => (kex.respond rng initiatorPub).2
  | finish responderMsg => (kex.finish responderMsg).2

/-- Whether the call succeeds, and its error if not. -/
def outcome (kex : HybridKEX P) : KexCall P → Except KexError Unit
  | respond rng initiatorPub => (kex.respond rng initiatorPub).1.map fun _ => ()
  | finish responderMsg => (kex.finish responderMsg).1.map fun _ => ()

/-- The calls that succeed. -/
def succeeded (kex : HybridKEX P) (call : KexCall P) : List (KexCall P) :=
  match call.outcome kex with
  | .ok () => [call]
  | .error _ => []

/-- The input of the call has the length it needs. -/
def LongEnough : KexCall P → Prop
  | respond _ initiatorPub => initiatorPubLen ≤ initiatorPub.length
  | finish responderMsg => responderMsgLen ≤ responderMsg.length

/-- The error for an input that is too short. -/
def tooShort : KexCall P → KexError
  | respond _ _ => .badInitiatorPub
  | finish _ => .badResponderMsg

/-! ## One call -/

variable (kex : HybridKEX P) {call : KexCall P}

/-- A short input is refused, and nothing changes. -/
theorem step_of_short (h : ¬ call.LongEnough) :
    call.outcome kex = .error call.tooShort ∧ call.step kex = kex := by
  cases call with
  | respond rng initiatorPub =>
    rw [LongEnough, not_le] at h
    simp only [outcome, step, HybridKEX.respond, if_pos h, tooShort]
    exact ⟨rfl, trivial⟩
  | finish responderMsg =>
    rw [LongEnough, not_le] at h
    simp only [outcome, step, HybridKEX.finish, if_pos h, tooShort]
    exact ⟨rfl, trivial⟩

/-- An input of full length spends the key, also when the call fails later on. -/
theorem x25519Priv_step (h : call.LongEnough) : (call.step kex).x25519Priv = none := by
  cases call with
  | respond rng initiatorPub =>
    rw [LongEnough, ← not_lt] at h
    simp only [step, HybridKEX.respond, if_neg h]
    split
    · assumption
    · split
      · rfl
      · split <;> rfl
  | finish responderMsg =>
    rw [LongEnough, ← not_lt] at h
    simp only [step, HybridKEX.finish, if_neg h]
    split
    · assumption
    · split <;> rfl

/-- Without the key an input of full length is refused. -/
theorem outcome_of_spent (hspent : kex.x25519Priv = none) (h : call.LongEnough) :
    call.outcome kex = .error .keyGenFailed := by
  cases call with
  | respond rng initiatorPub =>
    rw [LongEnough, ← not_lt] at h
    simp only [outcome, HybridKEX.respond, if_neg h, hspent]
    rfl
  | finish responderMsg =>
    rw [LongEnough, ← not_lt] at h
    simp only [outcome, HybridKEX.finish, if_neg h, hspent]
    rfl

/-- A call succeeds only with the key, which it spends. -/
theorem length_succeeded_le :
    (call.succeeded kex).length + (call.step kex).x25519Priv.toList.length ≤
      kex.x25519Priv.toList.length := by
  by_cases h : call.LongEnough
  · rw [x25519Priv_step kex h]
    cases hpriv : kex.x25519Priv with
    | none => simp [succeeded, outcome_of_spent kex hpriv h]
    | some priv =>
      unfold succeeded
      split <;> simp
  · obtain ⟨houtcome, hstep⟩ := step_of_short kex h
    simp [succeeded, houtcome, hstep]

end KexCall

/-! ## Runs of calls -/

namespace HybridKEX

variable {P : KexPrimitives}

/-- The handshake after a run of calls. -/
def run (kex : HybridKEX P) (calls : List (KexCall P)) : HybridKEX P := calls.foldl KexCall.step kex

/-- The first input of full length spends the key for the rest of the run. -/
theorem x25519Priv_run {kex : HybridKEX P} {calls : List (KexCall P)}
    (h : kex.x25519Priv = none ∨ ∃ call ∈ calls, call.LongEnough) :
    (kex.run calls).x25519Priv = none := by
  induction calls generalizing kex with
  | nil =>
    obtain h | ⟨call, hcall, -⟩ := h
    · exact h
    · cases hcall
  | cons first calls ih =>
    refine ih ?_
    by_cases hfirst : first.LongEnough
    · exact .inl (KexCall.x25519Priv_step kex hfirst)
    · rw [(KexCall.step_of_short kex hfirst).2]
      refine h.imp_right ?_
      rintro ⟨call, hcall, hlong⟩
      obtain rfl | hcall := List.mem_cons.mp hcall
      · exact absurd hlong hfirst
      · exact ⟨call, hcall, hlong⟩

/-- What succeeds in a run is paid for with the key. -/
theorem length_runLog_succeeded_le (kex : HybridKEX P) (calls : List (KexCall P)) :
    (runLog KexCall.step KexCall.succeeded kex calls).length ≤ kex.x25519Priv.toList.length := by
  induction calls generalizing kex with
  | nil => exact Nat.zero_le _
  | cons call calls ih =>
    rw [runLog, List.length_append]
    exact (Nat.add_le_add_left (ih (call.step kex)) _).trans (KexCall.length_succeeded_le kex)

/-- **The keys are used once**: at most one call of a run succeeds. After any run, a call with a
short input fails and changes nothing, and one with a full input fails with `keyGenFailed` if there
was one in the run. -/
theorem keys_single_use (kex : HybridKEX P) (calls : List (KexCall P)) :
    (runLog KexCall.step KexCall.succeeded kex calls).length ≤ 1 ∧
    ∀ call : KexCall P,
      (¬ call.LongEnough → (∃ e, call.outcome (kex.run calls) = .error e) ∧
        call.step (kex.run calls) = kex.run calls) ∧
      (call.LongEnough → (∃ c ∈ calls, c.LongEnough) →
        call.outcome (kex.run calls) = .error .keyGenFailed) := by
  refine ⟨?_, fun call => ⟨fun hshort => ?_, fun hlong hspent => ?_⟩⟩
  · refine (length_runLog_succeeded_le kex calls).trans ?_
    cases kex.x25519Priv <;> simp
  · obtain ⟨houtcome, hstep⟩ := KexCall.step_of_short (kex.run calls) hshort
    exact ⟨⟨_, houtcome⟩, hstep⟩
  · exact KexCall.outcome_of_spent _ (x25519Priv_run (.inr hspent)) hlong

end HybridKEX

end SmipMwp.Crypto
