import SmipMwp.Crypto.Hardening

/-!
# The life of a key exchange

A caller keeps one `HybridKEXState` for a handshake, calls its methods in any order and writes the
public fields `handshake_done` and `seq_counter` as it goes. The window on the one hand and the
deadline and the retries on the other share nothing but the state: a run accepts the sequence
numbers that its increments alone accept, whatever else is called in between
(`acceptedIn_eq_acceptedLog`).

A check of the retries succeeds when fewer than three have been made since the last reset.
`cleanup` puts the deadline at `UNIX_EPOCH`, and there it stays as long as the handshake is not
marked as done: every later check of it fails (`lifecycle_run`).
-/

namespace SmipMwp.Crypto

/-- The calls of a `HybridKEXState`, and the writes to its public fields between them. -/
inductive StateCall
  | checkTimeout (now : ℤ)
  | checkRetries
  | resetRetry
  | cleanup
  | setHandshakeDone (done : Bool)
  | seq (op : SeqOp)
  deriving DecidableEq

namespace StateCall

def step (s : HybridKEXState) : StateCall → HybridKEXState
  | checkTimeout now => (s.checkTimeout now).2
  | checkRetries => s.checkRetries.2
  | resetRetry => s.resetRetry
  | cleanup => s.cleanup
  | setHandshakeDone done => { s with handshakeDone := done }
  | seq op => op.step s

/-- The number that is accepted, if any. -/
def accepted (s : HybridKEXState) : StateCall → List ℕ
  | seq op => op.accepted s
  | _ => []

/-- What the window sees of a call. -/
def seqOp : StateCall → Option SeqOp
  | seq op => some op
  | _ => none

/-- The checks of the retries since the last reset. -/
def retriesSinceReset (calls : List StateCall) : ℕ :=
  (calls.reverse.takeWhile (· ≠ resetRetry)).count checkRetries

/-- The call does not mark the handshake as done, and reads no time up to the epoch. -/
def StaysClosed : StateCall → Prop
  | checkTimeout now => 0 < now
  | setHandshakeDone done => done = false
  | _ => True

end StateCall

/-- The numbers accepted in a run of a new state, in order. -/
def acceptedIn (sessionId : Vector UInt8 16) (t₀ : ℤ) (calls : List StateCall) : List ℕ :=
  runLog StateCall.step StateCall.accepted (HybridKEXState.new sessionId t₀) calls

/-! ## What a call writes -/

namespace HybridKEXState

/-- A check of the deadline writes the deadline, if anything. -/
theorem exists_checkTimeout (s : HybridKEXState) (now : ℤ) :
    ∃ t, (s.checkTimeout now).2 = { s with timeout := t } := by
  unfold checkTimeout
  split_ifs
  · exact ⟨_, rfl⟩
  · exact ⟨_, rfl⟩
  · exact ⟨_, rfl⟩

/-- A check of the retries writes the retries, if anything. -/
theorem exists_checkRetries (s : HybridKEXState) :
    ∃ n, s.checkRetries.2 = { s with retryCount := n } := by
  unfold checkRetries
  split_ifs
  · exact ⟨_, rfl⟩
  · exact ⟨_, rfl⟩

end HybridKEXState

/-- An operation on the window leaves the deadline and the retries alone. -/
theorem SeqOp.step_frame (s : HybridKEXState) (op : SeqOp) :
    (op.step s).sessionId = s.sessionId ∧ (op.step s).timeout = s.timeout ∧
      (op.step s).retryCount = s.retryCount ∧ (op.step s).handshakeDone = s.handshakeDone := by
  cases op with
  | set v => exact ⟨rfl, rfl, rfl, rfl⟩
  | increment =>
    simp only [SeqOp.step, HybridKEXState.incrementSeqCounter]
    cases binarySearch (s.seqWindow.take s.seqWindowLen) s.nextSeq <;> split_ifs <;>
      exact ⟨rfl, rfl, rfl, rfl⟩

/-- No call writes the session. -/
theorem StateCall.sessionId_step (s : HybridKEXState) (c : StateCall) :
    (c.step s).sessionId = s.sessionId := by
  cases c with
  | checkTimeout now =>
    obtain ⟨t, ht⟩ := s.exists_checkTimeout now
    rw [step, ht]
  | checkRetries =>
    obtain ⟨n, hn⟩ := s.exists_checkRetries
    rw [step, hn]
  | resetRetry => rfl
  | cleanup => rfl
  | setHandshakeDone done => rfl
  | seq op => exact (SeqOp.step_frame s op).1

/-! ## The window on its own -/

/-- The windows of two states, with the counters beside them, are the same. -/
structure SameWindow (s t : HybridKEXState) : Prop where
  wf_left : s.Wf
  wf_right : t.Wf
  window : s.window = t.window
  seqCounter : s.seqCounter = t.seqCounter

theorem SameWindow.nextSeq {s t : HybridKEXState} (h : SameWindow s t) : s.nextSeq = t.nextSeq := by
  rw [HybridKEXState.nextSeq, HybridKEXState.nextSeq, h.seqCounter]

/-- The same operation keeps two windows the same, and accepts the same number. -/
theorem SameWindow.step {s t : HybridKEXState} (h : SameWindow s t) (op : SeqOp) :
    SameWindow (op.step s) (op.step t) ∧ op.accepted s = op.accepted t := by
  have hwf := SeqOp.wf_step h.wf_left op
  have hwf' := SeqOp.wf_step h.wf_right op
  cases op with
  | set v => exact ⟨⟨hwf, hwf', h.window, rfl⟩, rfl⟩
  | increment =>
    obtain ⟨hwindow, -, hcounter, -⟩ := HybridKEXState.incrementSeqCounter_spec h.wf_left
    obtain ⟨hwindow', -, hcounter', -⟩ := HybridKEXState.incrementSeqCounter_spec h.wf_right
    refine ⟨⟨hwf, hwf', ?_, ?_⟩, ?_⟩
    · exact hwindow.trans (by rw [h.window, h.nextSeq]; exact hwindow'.symm)
    · exact hcounter.trans (h.nextSeq.trans hcounter'.symm)
    · rw [SeqOp.accepted_increment h.wf_left, SeqOp.accepted_increment h.wf_right, h.window,
        h.nextSeq]

namespace StateCall

/-- The frame of the other calls: they leave the window alone. -/
theorem step_of_seqOp_eq_none (s : HybridKEXState) {c : StateCall} (hc : c.seqOp = none) :
    (c.step s).seqWindow = s.seqWindow ∧ (c.step s).seqWindowLen = s.seqWindowLen ∧
      (c.step s).seqCounter = s.seqCounter ∧ c.accepted s = [] := by
  cases c with
  | seq op => cases hc
  | checkTimeout now =>
    obtain ⟨t, ht⟩ := s.exists_checkTimeout now
    rw [step, ht]
    exact ⟨rfl, rfl, rfl, rfl⟩
  | checkRetries =>
    obtain ⟨n, hn⟩ := s.exists_checkRetries
    rw [step, hn]
    exact ⟨rfl, rfl, rfl, rfl⟩
  | resetRetry => exact ⟨rfl, rfl, rfl, rfl⟩
  | cleanup => exact ⟨rfl, rfl, rfl, rfl⟩
  | setHandshakeDone done => exact ⟨rfl, rfl, rfl, rfl⟩

theorem sameWindow_step {s t : HybridKEXState} (h : SameWindow s t) {c : StateCall}
    (hc : c.seqOp = none) : SameWindow (c.step s) t := by
  obtain ⟨hseq, hlen, hcounter, -⟩ := step_of_seqOp_eq_none s hc
  have hwindow : (c.step s).window = s.window := by
    rw [HybridKEXState.window, HybridKEXState.window, hseq, hlen]
  refine ⟨⟨?_, ?_, ?_, ?_⟩, h.wf_right, hwindow.trans h.window, hcounter.trans h.seqCounter⟩
  · rw [hseq]
    exact h.wf_left.length_seqWindow
  · rw [hlen]
    exact h.wf_left.len_le
  · rw [hwindow]
    exact h.wf_left.pairwise
  · rw [hwindow]
    exact h.wf_left.lt

end StateCall

/-- A run accepts what its operations on the window accept on their own. -/
theorem acceptedIn_eq_acceptedLog (sessionId : Vector UInt8 16) (t₀ : ℤ)
    (calls : List StateCall) :
    acceptedIn sessionId t₀ calls = acceptedLog sessionId t₀ (calls.filterMap StateCall.seqOp) := by
  have hwf := HybridKEXState.wf_new sessionId t₀
  refine (runLog_filterMap SameWindow ?_ ?_ ⟨hwf, hwf, rfl, rfl⟩ calls).2
  · intro s t c op h hc
    cases c with
    | seq op' =>
      obtain rfl := Option.some.inj hc
      exact h.step op'
    | _ => cases hc
  · intro s t c h hc
    obtain ⟨-, -, -, haccepted⟩ := StateCall.step_of_seqOp_eq_none s hc
    exact ⟨StateCall.sameWindow_step h hc, haccepted⟩

/-! ## The retries and the deadline -/

open HybridKEXState

theorem StateCall.retriesSinceReset_append_singleton (calls : List StateCall) (c : StateCall) :
    retriesSinceReset (calls ++ [c]) =
      match c with
      | checkRetries => retriesSinceReset calls + 1
      | resetRetry => 0
      | _ => retriesSinceReset calls := by
  rw [retriesSinceReset, retriesSinceReset, List.reverse_append, List.reverse_singleton,
    List.singleton_append]
  cases c <;> simp

/-- The retries are counted up to the limit. -/
theorem retryCount_foldl (sessionId : Vector UInt8 16) (t₀ : ℤ) (calls : List StateCall) :
    (calls.foldl StateCall.step (new sessionId t₀)).retryCount =
      min (StateCall.retriesSinceReset calls) 3 := by
  induction calls using List.reverseRecOn with
  | nil => rfl
  | append_singleton calls c ih =>
    rw [List.foldl_append, List.foldl_cons, List.foldl_nil,
      StateCall.retriesSinceReset_append_singleton]
    generalize calls.foldl StateCall.step (new sessionId t₀) = s at ih ⊢
    cases c with
    | checkRetries =>
      rw [StateCall.step, HybridKEXState.checkRetries]
      split_ifs
      · change s.retryCount = min (StateCall.retriesSinceReset calls + 1) 3
        omega
      · change s.retryCount + 1 = min (StateCall.retriesSinceReset calls + 1) 3
        omega
    | resetRetry => rfl
    | checkTimeout now =>
      obtain ⟨t, ht⟩ := s.exists_checkTimeout now
      rw [StateCall.step, ht]
      exact ih
    | cleanup => exact ih
    | setHandshakeDone done => exact ih
    | seq op => exact (SeqOp.step_frame s op).2.2.1.trans ih

/-- A handshake that has been cleaned up and not been marked as done. -/
structure HybridKEXState.Closed (sessionId : Vector UInt8 16) (s : HybridKEXState) : Prop where
  sessionId : s.sessionId = sessionId
  timeout : s.timeout = 0
  handshakeDone : s.handshakeDone = false

/-- Checks fail from then on. -/
theorem HybridKEXState.Closed.checkTimeout {sessionId : Vector UInt8 16} {s : HybridKEXState}
    (h : s.Closed sessionId) {t : ℤ} (ht : 0 < t) :
    s.checkTimeout t = (.error (sessionError "handshake timeout" sessionId), s) := by
  rw [checkTimeout_of_lt h.handshakeDone (h.timeout.symm ▸ ht), h.sessionId]

theorem StateCall.closed_step {sessionId : Vector UInt8 16} {s : HybridKEXState}
    (h : s.Closed sessionId) {c : StateCall} (hc : c.StaysClosed) :
    (c.step s).Closed sessionId := by
  cases c with
  | checkTimeout now =>
    rw [step, h.checkTimeout hc]
    exact h
  | checkRetries =>
    obtain ⟨n, hn⟩ := s.exists_checkRetries
    rw [step, hn]
    exact ⟨h.sessionId, h.timeout, h.handshakeDone⟩
  | resetRetry => exact ⟨h.sessionId, h.timeout, h.handshakeDone⟩
  | cleanup => exact ⟨h.sessionId, rfl, h.handshakeDone⟩
  | setHandshakeDone done => exact ⟨h.sessionId, h.timeout, hc⟩
  | seq op =>
    obtain ⟨hsession, htimeout, -, hdone⟩ := SeqOp.step_frame s op
    exact ⟨hsession.trans h.sessionId, htimeout.trans h.timeout, hdone.trans h.handshakeDone⟩

/-- **The life of a key exchange**, over a run of calls in any order. The next check of the retries
succeeds exactly when fewer than three have been made since the last reset. The sequence numbers
accepted are those that the increments alone accept. Once a handshake that is not done has been
cleaned up, no check of the deadline succeeds before it is marked as done. -/
theorem lifecycle_run (sessionId : Vector UInt8 16) (t₀ : ℤ) (calls : List StateCall) :
    ((calls.foldl StateCall.step (new sessionId t₀)).checkRetries.1 = .ok () ↔
      StateCall.retriesSinceReset calls < 3) ∧
    acceptedIn sessionId t₀ calls =
      acceptedLog sessionId t₀ (calls.filterMap StateCall.seqOp) ∧
    ((calls.foldl StateCall.step (new sessionId t₀)).handshakeDone = false →
      ∀ more t, (∀ c ∈ more, StateCall.StaysClosed c) → 0 < t →
        (((calls ++ StateCall.cleanup :: more).foldl StateCall.step
          (new sessionId t₀)).checkTimeout t).1 =
          .error (sessionError "handshake timeout" sessionId)) := by
  refine ⟨?_, acceptedIn_eq_acceptedLog sessionId t₀ calls, ?_⟩
  · have hcount := retryCount_foldl sessionId t₀ calls
    rw [HybridKEXState.checkRetries]
    split_ifs with h
    · exact ⟨fun h => (nomatch h), fun _ => by omega⟩
    · exact ⟨fun _ => by omega, fun _ => rfl⟩
  · intro hdone more t hmore ht
    have hsession : (calls.foldl StateCall.step (new sessionId t₀)).sessionId = sessionId :=
      List.foldlRecOn (motive := fun s => s.sessionId = sessionId) calls StateCall.step rfl
        fun s hs c _ => (StateCall.sessionId_step s c).trans hs
    have hclosed : (calls.foldl StateCall.step (new sessionId t₀)).cleanup.Closed sessionId :=
      ⟨hsession, rfl, hdone⟩
    have hend := List.foldlRecOn more StateCall.step hclosed
      fun s hs c hc => StateCall.closed_step hs (hmore c hc)
    rw [List.foldl_append, List.foldl_cons, StateCall.step, hend.checkTimeout ht]

/-- A handshake with one retry and one number, which then is cleaned up. -/
theorem lifecycle_run_cleanup :
    let sessionId : Vector UInt8 16 := Vector.replicate 16 1
    let calls : List StateCall := [.checkRetries, .seq .increment]
    let more : List StateCall := [.seq .increment, .checkTimeout 1]
    (calls.foldl StateCall.step (new sessionId 0)).checkRetries.1 = .ok () ∧
    acceptedIn sessionId 0 calls = [1] ∧
    (((calls ++ StateCall.cleanup :: more).foldl StateCall.step (new sessionId 0)).checkTimeout
      2).1 = .error (sessionError "handshake timeout" sessionId) := by
  intro sessionId calls more
  obtain ⟨hretries, haccepted, hclosed⟩ := lifecycle_run sessionId 0 calls
  have hmore : ∀ c ∈ more, StateCall.StaysClosed c :=
    List.forall_mem_cons.mpr ⟨trivial, List.forall_mem_singleton.mpr Int.one_pos⟩
  exact ⟨hretries.mpr (by decide), haccepted.trans (by decide),
    hclosed (by decide) more 2 hmore (by decide)⟩

end SmipMwp.Crypto
