import Mathlib.Data.List.Induction
import SmipMwp.Foundations.Slices
import SmipMwp.Foundations.SortedWindow
import SmipMwp.Foundations.Words

/-!
# The state of a key exchange

`HybridKEXState` carries what limits a key exchange: a deadline that `check_timeout` moves, a retry
counter, and a window of the sequence numbers accepted so far.

The window is an array of 64 numbers in ascending order, and `increment_seq_counter` is `slide` on
it (`incrementSeqCounter_spec`). It therefore accepts no number twice as long as no call with a full
window draws a number below all of it; a call that does can be replayed two acceptances later
(`increments_replaySafe`).

The deadline is moved by every successful check, to 30 s after its reading. A check fails exactly
when it comes later than that after the last successful one, and then all later ones fail
(`checkTimeout_deadline`).
-/

namespace SmipMwp.Crypto

/-- `HANDSHAKE_TIMEOUT`, in nanoseconds. -/
def handshakeTimeout : ℤ := 30 * 10 ^ 9

/-- `MAX_REPLAY_WINDOW`. -/
def maxReplayWindow : ℕ := 64

/-- Times are in nanoseconds since `UNIX_EPOCH`, negative before it. -/
structure HybridKEXState where
  sessionId : Vector UInt8 16
  kexStarted : ℤ
  timeout : ℤ
  retryCount : ℕ
  handshakeDone : Bool
  /-- A `u64`. -/
  seqCounter : ℕ
  seqWindow : List ℕ
  seqWindowLen : ℕ
  deriving DecidableEq

/-- A byte as `02x?` prints it. -/
def hexByte (b : UInt8) : String :=
  String.ofList [Nat.digitChar (b.toNat / 16), Nat.digitChar (b.toNat % 16)]

/-- The texts of the errors: what happened, and the session. -/
def sessionError (what : String) (sessionId : Vector UInt8 16) : String :=
  "crypto: " ++ what ++ " for session [" ++ ", ".intercalate (sessionId.toList.map hexByte) ++ "]"

/-- `<[u64]>::binary_search` on ascending numbers: where `x` is, or where it can be inserted. -/
def binarySearch (l : List ℕ) (x : ℕ) : Except ℕ ℕ :=
  if l[place l x]? = some x then .ok (place l x) else .error (place l x)

namespace HybridKEXState

/-- `HybridKEXState::new`, at the clock reading `now`. -/
def new (sessionId : Vector UInt8 16) (now : ℤ) : HybridKEXState where
  sessionId := sessionId
  kexStarted := now
  timeout := now + handshakeTimeout
  retryCount := 0
  handshakeDone := false
  seqCounter := 0
  seqWindow := List.replicate maxReplayWindow 0
  seqWindowLen := 0

/-- `check_timeout`, at the clock reading `now`. -/
def checkTimeout (s : HybridKEXState) (now : ℤ) : Except String Unit × HybridKEXState :=
  if !s.handshakeDone then
    if now > s.timeout then (.error (sessionError "handshake timeout" s.sessionId), s)
    else (.ok (), { s with timeout := now + handshakeTimeout })
  else (.ok (), s)

/-- The sequence number that `increment_seq_counter` draws: `seq_counter.saturating_add(1)`. -/
def nextSeq (s : HybridKEXState) : ℕ := min (s.seqCounter + 1) (2 ^ 64 - 1)

def incrementSeqCounter (s : HybridKEXState) : Except String ℕ × HybridKEXState :=
  let seq := s.nextSeq
  let s := { s with seqCounter := seq }
  if s.seqWindowLen = 0 ∨ seq > s.seqWindow.getD (s.seqWindowLen - 1) 0 then
    if s.seqWindowLen ≥ maxReplayWindow then
      (.ok seq,
        { s with
          seqWindow := (copyWithin s.seqWindow 1 s.seqWindowLen 0).set (s.seqWindowLen - 1) seq })
    else
      (.ok seq,
        { s with
          seqWindow := s.seqWindow.set s.seqWindowLen seq
          seqWindowLen := s.seqWindowLen + 1 })
  else
    match binarySearch (s.seqWindow.take s.seqWindowLen) seq with
    | .ok _ => (.error (sessionError "replay attack detected" s.sessionId), s)
    | .error insertIdx =>
      let (window, len, insertIdx) :=
        if s.seqWindowLen ≥ maxReplayWindow then
          (copyWithin s.seqWindow 1 s.seqWindowLen 0, s.seqWindowLen - 1, insertIdx - 1)
        else (s.seqWindow, s.seqWindowLen, insertIdx)
      let window :=
        if insertIdx < len then copyWithin window insertIdx len (insertIdx + 1) else window
      (.ok seq, { s with seqWindow := window.set insertIdx seq, seqWindowLen := len + 1 })

def checkRetries (s : HybridKEXState) : Except String Unit × HybridKEXState :=
  if s.retryCount ≥ 3 then
    (.error (sessionError "handshake retry limit exceeded" s.sessionId), s)
  else (.ok (), { s with retryCount := s.retryCount + 1 })

def resetRetry (s : HybridKEXState) : HybridKEXState := { s with retryCount := 0 }

def cleanup (s : HybridKEXState) : HybridKEXState := { s with kexStarted := 0, timeout := 0 }

/-! ## The window -/

/-- The numbers the window remembers. -/
def window (s : HybridKEXState) : List ℕ := s.seqWindow.take s.seqWindowLen

/-- What every call keeps of the window. -/
structure Wf (s : HybridKEXState) : Prop where
  length_seqWindow : s.seqWindow.length = maxReplayWindow
  len_le : s.seqWindowLen ≤ maxReplayWindow
  pairwise : s.window.Pairwise (· < ·)
  lt : ∀ y ∈ s.window, y < 2 ^ 64

theorem wf_new (sessionId : Vector UInt8 16) (now : ℤ) : (new sessionId now).Wf :=
  ⟨List.length_replicate, Nat.zero_le _, List.Pairwise.nil, fun _ hy => by cases hy⟩

theorem nextSeq_lt (s : HybridKEXState) : s.nextSeq < 2 ^ 64 :=
  (Nat.min_le_right _ _).trans_lt (by decide)

theorem nextSeq_pos (s : HybridKEXState) : 0 < s.nextSeq :=
  lt_min (Nat.succ_pos _) (by decide)

theorem Wf.length_window {s : HybridKEXState} (hs : s.Wf) : s.window.length = s.seqWindowLen := by
  rw [window, List.length_take, hs.length_seqWindow, Nat.min_eq_left hs.len_le]

/-- The fast path is taken exactly when the number is above the whole window. -/
theorem Wf.above_iff {s : HybridKEXState} (hs : s.Wf) (x : ℕ) :
    (s.seqWindowLen = 0 ∨ x > s.seqWindow.getD (s.seqWindowLen - 1) 0) ↔
      ∀ y ∈ s.window, y < x := by
  have hlen := hs.length_window
  rcases Nat.eq_zero_or_pos s.seqWindowLen with hzero | hpos
  · rw [hzero, List.length_eq_zero_iff] at hlen
    simp [hzero, hlen]
  have hlt : s.seqWindowLen - 1 < s.window.length := by omega
  have hlast : s.seqWindow.getD (s.seqWindowLen - 1) 0 = s.window[s.seqWindowLen - 1] := by
    have hget : s.window[s.seqWindowLen - 1]? = s.seqWindow[s.seqWindowLen - 1]? := by
      rw [window, List.getElem?_take_of_lt (by omega)]
    rw [List.getD_eq_getElem?_getD, ← hget, List.getElem?_eq_getElem hlt, Option.getD_some]
  rw [or_iff_right hpos.ne', hlast]
  constructor
  · intro hx y hy
    obtain ⟨i, hi, rfl⟩ := List.getElem_of_mem hy
    rcases Nat.lt_or_ge i (s.seqWindowLen - 1) with h | h
    · exact (List.pairwise_iff_getElem.mp hs.pairwise i _ hi hlt h).trans hx
    · obtain rfl : i = s.seqWindowLen - 1 := by omega
      exact hx
  · exact fun h => h _ (List.getElem_mem hlt)

/-- The write of a number at its place, after the larger ones have moved to the right. -/
theorem take_insert {w : List ℕ} {i n : ℕ} (hi : i ≤ n) (hn : n < w.length) (x : ℕ) :
    ((if i < n then copyWithin w i n (i + 1) else w).set i x).take (n + 1) =
      (w.take n).take i ++ x :: (w.take n).drop i := by
  have hcopy : (if i < n then copyWithin w i n (i + 1) else w) = copyWithin w i n (i + 1) := by
    split_ifs with h
    · rfl
    · rw [show n = i by omega, copyWithin_self]
  rw [hcopy]
  exact take_set_copyWithin_right hi hn x

theorem length_insert {w : List ℕ} {i n : ℕ} (hi : i ≤ n) (hn : n < w.length) (x : ℕ) :
    ((if i < n then copyWithin w i n (i + 1) else w).set i x).length = w.length := by
  rw [List.length_set]
  split_ifs with h
  · exact length_copyWithin hi (by omega) (by omega)
  · rfl

theorem take_set_end {w : List ℕ} {n : ℕ} (hn : n < w.length) (x : ℕ) :
    (w.set n x).take (n + 1) = w.take n ++ [x] := by
  have hinsert := take_insert le_rfl hn x
  rwa [if_neg (lt_irrefl n), List.take_take, Nat.min_self,
    List.drop_of_length_le (List.length_take_le _ _)] at hinsert

/-- What a call does to the state: it draws a number, and the window slides. -/
structure Slid (s s' : HybridKEXState) : Prop where
  window : s'.window = slide maxReplayWindow s.window s.nextSeq
  length_seqWindow : s'.seqWindow.length = maxReplayWindow
  len_le : s'.seqWindowLen ≤ maxReplayWindow
  seqCounter : s'.seqCounter = s.nextSeq

theorem Wf.of_slid {s s' : HybridKEXState} (hs : s.Wf) (h : Slid s s') : s'.Wf := by
  refine ⟨h.length_seqWindow, h.len_le, ?_, fun y hy => ?_⟩
  · rw [h.window]
    exact pairwise_slide hs.pairwise maxReplayWindow s.nextSeq
  · rw [h.window] at hy
    rcases List.mem_cons.mp (slide_subset _ _ _ hy) with rfl | hy
    · exact s.nextSeq_lt
    · exact hs.lt y hy

/-- A shift to the left keeps the array. -/
theorem Wf.length_shift {s : HybridKEXState} (hs : s.Wf) (hpos : 0 < s.seqWindowLen) :
    (copyWithin s.seqWindow 1 s.seqWindowLen 0).length = maxReplayWindow := by
  have hle := hs.length_seqWindow.symm ▸ hs.len_le
  rw [length_copyWithin (by omega) hle (by omega), hs.length_seqWindow]

/-- The fast path: a number above the whole window goes to the end. -/
theorem incrementSeqCounter_of_above {s : HybridKEXState} (hs : s.Wf)
    (habove : ∀ y ∈ s.window, y < s.nextSeq) :
    s.incrementSeqCounter.1 = .ok s.nextSeq ∧ Slid s s.incrementSeqCounter.2 := by
  have hlen := hs.length_window
  have hw := hs.length_seqWindow
  have hle := hs.len_le
  have hcap : 0 < maxReplayWindow := by decide
  have hslide := slide_of_forall_lt habove maxReplayWindow
  unfold incrementSeqCounter
  simp only [if_pos ((hs.above_iff s.nextSeq).mpr habove)]
  by_cases hfull : s.seqWindowLen ≥ maxReplayWindow
  · have hshift := hs.length_shift (by omega)
    have hend := take_set_end (w := copyWithin s.seqWindow 1 s.seqWindowLen 0)
      (n := s.seqWindowLen - 1) (by omega) s.nextSeq
    rw [take_copyWithin_left (by omega) (by omega), Nat.sub_add_cancel (by omega)] at hend
    rw [if_pos hfull]
    rw [makeRoom, if_neg (by omega)] at hslide
    exact ⟨rfl, hend.trans hslide.symm, by rw [List.length_set, hshift], hle, rfl⟩
  · have hend := take_set_end (w := s.seqWindow) (n := s.seqWindowLen) (by omega) s.nextSeq
    rw [if_neg hfull]
    rw [makeRoom, if_pos (by omega)] at hslide
    exact ⟨rfl, hend.trans hslide.symm, by rw [List.length_set, hw], by simp only; omega, rfl⟩

/-- A number that the window remembers is refused. -/
theorem incrementSeqCounter_of_mem {s : HybridKEXState} (hs : s.Wf) (hmem : s.nextSeq ∈ s.window) :
    s.incrementSeqCounter.1 = .error (sessionError "replay attack detected" s.sessionId) ∧
      Slid s s.incrementSeqCounter.2 := by
  have hnot : ¬ ∀ y ∈ s.window, y < s.nextSeq := fun h => lt_irrefl _ (h _ hmem)
  have hfound : binarySearch s.window s.nextSeq = .ok (place s.window s.nextSeq) :=
    if_pos ((getElem?_place_eq_some_iff hs.pairwise _).mpr hmem)
  unfold incrementSeqCounter
  simp only [if_neg ((hs.above_iff s.nextSeq).not.mpr hnot)]
  rw [show s.seqWindow.take s.seqWindowLen = s.window from rfl, hfound]
  exact ⟨rfl, (if_pos hmem).symm, hs.length_seqWindow, hs.len_le, rfl⟩

/-- Any other number goes to its place. -/
theorem incrementSeqCounter_of_notMem {s : HybridKEXState} (hs : s.Wf)
    (hnot : ¬ ∀ y ∈ s.window, y < s.nextSeq) (hmem : s.nextSeq ∉ s.window) :
    s.incrementSeqCounter.1 = .ok s.nextSeq ∧ Slid s s.incrementSeqCounter.2 := by
  have hlen := hs.length_window
  have hw := hs.length_seqWindow
  have hle := hs.len_le
  have hcap : 0 < maxReplayWindow := by decide
  have hplace := place_le_length s.window s.nextSeq
  have hfound : binarySearch s.window s.nextSeq = .error (place s.window s.nextSeq) :=
    if_neg fun hget => hmem ((getElem?_place_eq_some_iff hs.pairwise _).mp hget)
  have hslide := slide_of_notMem (c := maxReplayWindow) hmem
  unfold incrementSeqCounter
  simp only [if_neg ((hs.above_iff s.nextSeq).not.mpr hnot)]
  rw [show s.seqWindow.take s.seqWindowLen = s.window from rfl, hfound]
  by_cases hfull : s.seqWindowLen ≥ maxReplayWindow
  · -- the smallest goes first, so the place is one further to the left
    have hshift := hs.length_shift (by omega)
    have hinsert := take_insert (w := copyWithin s.seqWindow 1 s.seqWindowLen 0)
      (i := place s.window s.nextSeq - 1) (n := s.seqWindowLen - 1) (by omega) (by omega)
      s.nextSeq
    rw [take_copyWithin_left (by omega) (by omega)] at hinsert
    rw [makeRoom, if_neg (by omega), place_tail hs.pairwise hmem] at hslide
    simp only [if_pos hfull]
    exact ⟨trivial, hinsert.trans hslide.symm, by rw [length_insert (by omega) (by omega), hshift],
      by simp only; omega, rfl⟩
  · have hinsert := take_insert (w := s.seqWindow) (i := place s.window s.nextSeq)
      (n := s.seqWindowLen) (by omega) (by omega) s.nextSeq
    rw [makeRoom, if_pos (by omega)] at hslide
    simp only [if_neg hfull]
    exact ⟨trivial, hinsert.trans hslide.symm, by rw [length_insert (by omega) (by omega), hw],
      by simp only; omega, rfl⟩

/-- What a call does: the window slides, and the number is refused if it is remembered. -/
theorem incrementSeqCounter_spec {s : HybridKEXState} (hs : s.Wf) :
    s.incrementSeqCounter.2.window = slide maxReplayWindow s.window s.nextSeq ∧
      s.incrementSeqCounter.2.Wf ∧ s.incrementSeqCounter.2.seqCounter = s.nextSeq ∧
      s.incrementSeqCounter.1 =
        if s.nextSeq ∈ s.window then
          .error (sessionError "replay attack detected" s.sessionId)
        else .ok s.nextSeq := by
  by_cases hmem : s.nextSeq ∈ s.window
  · obtain ⟨hresult, hslid⟩ := incrementSeqCounter_of_mem hs hmem
    exact ⟨hslid.window, hs.of_slid hslid, hslid.seqCounter, by rw [hresult, if_pos hmem]⟩
  · have h : s.incrementSeqCounter.1 = .ok s.nextSeq ∧ Slid s s.incrementSeqCounter.2 := by
      by_cases habove : ∀ y ∈ s.window, y < s.nextSeq
      · exact incrementSeqCounter_of_above hs habove
      · exact incrementSeqCounter_of_notMem hs habove hmem
    obtain ⟨hresult, hslid⟩ := h
    exact ⟨hslid.window, hs.of_slid hslid, hslid.seqCounter, by rw [hresult, if_neg hmem]⟩

end HybridKEXState

/-! ## Runs of sequence numbers -/

/-- A call of `increment_seq_counter`, or a write to the public counter between two calls. -/
inductive SeqOp
  | set (v : UInt64)
  | increment
  deriving DecidableEq

namespace SeqOp

def step (s : HybridKEXState) : SeqOp → HybridKEXState
  | set v => { s with seqCounter := v.toNat }
  | increment => s.incrementSeqCounter.2

/-- The number that is accepted, if any. -/
def accepted (s : HybridKEXState) : SeqOp → List ℕ
  | set _ => []
  | increment =>
    match s.incrementSeqCounter.1 with
    | .ok seq => [seq]
    | .error _ => []

/-- A call with a full window draws no number below the smallest that the window remembers. -/
def NotBelow (s : HybridKEXState) : SeqOp → Prop
  | set _ => True
  | increment => s.seqWindowLen = maxReplayWindow → s.seqWindow.getD 0 0 ≤ s.nextSeq

/-- A write to the counter leaves the window alone. -/
theorem window_step_set (s : HybridKEXState) (v : UInt64) : (step s (.set v)).window = s.window :=
  rfl

theorem wf_step {s : HybridKEXState} (hs : s.Wf) (op : SeqOp) : (op.step s).Wf := by
  cases op with
  | set v => exact ⟨hs.length_seqWindow, hs.len_le, hs.pairwise, hs.lt⟩
  | increment => exact (HybridKEXState.incrementSeqCounter_spec hs).2.1

theorem wf_foldl {s : HybridKEXState} (hs : s.Wf) (ops : List SeqOp) :
    (ops.foldl step s).Wf := by
  induction ops generalizing s with
  | nil => exact hs
  | cons op ops ih => exact ih (wf_step hs op)

theorem accepted_increment {s : HybridKEXState} (hs : s.Wf) :
    accepted s .increment = slideAccepted s.window s.nextSeq := by
  rw [accepted, (HybridKEXState.incrementSeqCounter_spec hs).2.2.2, slideAccepted]
  split_ifs <;> rfl

end SeqOp

/-- The numbers accepted in a run of a new state, in order. -/
def acceptedLog (sessionId : Vector UInt8 16) (t₀ : ℤ) (ops : List SeqOp) : List ℕ :=
  runLog SeqOp.step SeqOp.accepted (HybridKEXState.new sessionId t₀) ops

/-- **Replay protection**: between two acceptances of one number there are at least as many others
as the window has entries. -/
def ReplaySafe (log : List ℕ) : Prop :=
  ∀ i j seq, i < j → log[i]? = some seq → log[j]? = some seq → i + maxReplayWindow < j

theorem replaySafe_of_nodup {log : List ℕ} (h : log.Nodup) : ReplaySafe log := by
  intro i j seq hij hi hj
  obtain ⟨hlt, -⟩ := List.getElem?_eq_some_iff.mp hi
  exact absurd ((List.getElem?_inj hlt h).mp (hi.trans hj.symm)) hij.ne

/-- A full window starts with its smallest number. -/
theorem HybridKEXState.Wf.exists_window_eq {s : HybridKEXState} (hs : s.Wf)
    (hfull : s.seqWindowLen = maxReplayWindow) :
    ∃ l, s.window = s.seqWindow.getD 0 0 :: l := by
  have hlen := hs.length_seqWindow
  rw [HybridKEXState.window, hfull]
  cases hw : s.seqWindow with
  | nil =>
    rw [hw] at hlen
    cases hlen
  | cons m l => exact ⟨l.take 63, rfl⟩

/-- A run that draws no number below a full window accepts every number at most once. -/
theorem remembers_foldl (sessionId : Vector UInt8 16) (t₀ : ℤ) {ops : List SeqOp}
    (h : Along SeqOp.step SeqOp.NotBelow (HybridKEXState.new sessionId t₀) ops) :
    Remembers maxReplayWindow
      (ops.foldl SeqOp.step (HybridKEXState.new sessionId t₀)).window
      (acceptedLog sessionId t₀ ops) := by
  induction ops using List.reverseRecOn with
  | nil => exact remembers_nil maxReplayWindow
  | append_singleton ops op ih =>
    obtain ⟨halong, hop⟩ := (along_append_singleton _ _ _ _ _).mp h
    have hrem := ih halong
    have hwf := SeqOp.wf_foldl (HybridKEXState.wf_new sessionId t₀) ops
    rw [acceptedLog, runLog_append_singleton, List.foldl_append, List.foldl_cons, List.foldl_nil]
    rw [acceptedLog] at hrem
    generalize ops.foldl SeqOp.step (HybridKEXState.new sessionId t₀) = s at hrem hwf hop ⊢
    cases op with
    | set v =>
      rw [SeqOp.accepted, List.append_nil]
      exact hrem
    | increment =>
      rw [SeqOp.accepted_increment hwf, SeqOp.step,
        (HybridKEXState.incrementSeqCounter_spec hwf).1]
      refine hrem.slide (by decide) fun hfull => ?_
      rw [hwf.length_window] at hfull
      obtain ⟨l, hl⟩ := hwf.exists_window_eq hfull
      exact ⟨_, by rw [hl]; exact List.mem_cons_self, hop hfull⟩

/-- Drawing `n` next. -/
def drawing (n : ℕ) : List SeqOp := [.set (UInt64.ofNat (n - 1)), .increment]

/-- A number outside the window is accepted when it is drawn. -/
theorem runLog_drawing {s : HybridKEXState} (hs : s.Wf) {n : ℕ} (hpos : 0 < n) (hlt : n < 2 ^ 64)
    (hn : n ∉ s.window) (ops : List SeqOp) :
    runLog SeqOp.step SeqOp.accepted s (drawing n ++ ops) =
        n :: runLog SeqOp.step SeqOp.accepted ((drawing n).foldl SeqOp.step s) ops ∧
      ((drawing n).foldl SeqOp.step s).Wf ∧
      ((drawing n).foldl SeqOp.step s).window = slide maxReplayWindow s.window n := by
  have hset : (SeqOp.step s (.set (UInt64.ofNat (n - 1)))).Wf := SeqOp.wf_step hs _
  have hnext : (SeqOp.step s (.set (UInt64.ofNat (n - 1)))).nextSeq = n := by
    simp only [HybridKEXState.nextSeq, SeqOp.step]
    rw [UInt64.toNat_ofNat_of_lt' (by omega : n - 1 < 2 ^ 64)]
    omega
  have haccepted := SeqOp.accepted_increment hset
  obtain ⟨hwindow, hwf, -⟩ := HybridKEXState.incrementSeqCounter_spec hset
  rw [hnext, SeqOp.window_step_set] at haccepted hwindow
  refine ⟨?_, hwf, hwindow⟩
  rw [runLog_append, drawing, runLog, runLog, runLog_nil, haccepted, slideAccepted, if_neg hn]
  rfl

/-- A number drawn below a full window is accepted again two acceptances later. -/
theorem exists_replay {s : HybridKEXState} (hs : s.Wf) (h : ¬ SeqOp.NotBelow s .increment) :
    ∃ more m, runLog SeqOp.step SeqOp.accepted s (.increment :: more) =
      [s.nextSeq, m, s.nextSeq] := by
  obtain ⟨hfull, hbelow⟩ : s.seqWindowLen = maxReplayWindow ∧
      s.nextSeq < s.seqWindow.getD 0 0 := by
    rw [SeqOp.NotBelow, Classical.not_imp, not_le] at h
    exact h
  obtain ⟨l, hl⟩ := hs.exists_window_eq hfull
  generalize s.seqWindow.getD 0 0 = m at hbelow hl
  have hsorted := hs.pairwise
  have hm := hs.lt m (by rw [hl]; exact List.mem_cons_self)
  have hlen := hs.length_window
  rw [hl] at hsorted
  rw [hl, hfull] at hlen
  obtain ⟨hdown, hup, hx, hmx⟩ := slide_of_lt_head hsorted hlen hbelow
  -- the number itself, the smallest of the window, which has just been forgotten, and the number
  obtain ⟨hwindow₁, hwf₁, -⟩ := HybridKEXState.incrementSeqCounter_spec hs
  rw [hl, hdown] at hwindow₁
  obtain ⟨hlog₂, hwf₂, hwindow₂⟩ := runLog_drawing hwf₁ (n := m)
    (s.nextSeq_pos.trans hbelow) hm (by rw [hwindow₁]; exact hmx) (drawing s.nextSeq ++ [])
  rw [hwindow₁, hup] at hwindow₂
  obtain ⟨hlog₃, -⟩ := runLog_drawing hwf₂ (n := s.nextSeq) s.nextSeq_pos s.nextSeq_lt
    (by rw [hwindow₂]; exact hx) []
  refine ⟨drawing m ++ (drawing s.nextSeq ++ []), m, ?_⟩
  rw [runLog, SeqOp.accepted_increment hs, slideAccepted, hl, if_neg hx, SeqOp.step, hlog₂, hlog₃,
    runLog_nil]
  rfl

/-- **Replay protection** holds in every run whose calls with a full window draw no number below the
smallest that the window remembers. A call that does, after any run, can be continued so that its
number is accepted twice with one other acceptance in between. -/
theorem increments_replaySafe (sessionId : Vector UInt8 16) (t₀ : ℤ) (ops : List SeqOp) :
    (Along SeqOp.step SeqOp.NotBelow (HybridKEXState.new sessionId t₀) ops →
      ReplaySafe (acceptedLog sessionId t₀ ops)) ∧
    (¬ SeqOp.NotBelow (ops.foldl SeqOp.step (HybridKEXState.new sessionId t₀)) .increment →
      ∃ more, ¬ ReplaySafe (acceptedLog sessionId t₀ (ops ++ .increment :: more))) := by
  constructor
  · intro h
    exact replaySafe_of_nodup (remembers_foldl sessionId t₀ h).nodup
  · intro h
    have hwf := SeqOp.wf_foldl (HybridKEXState.wf_new sessionId t₀) ops
    obtain ⟨more, m, hlog⟩ := exists_replay hwf h
    refine ⟨more, fun hsafe => ?_⟩
    rw [acceptedLog, runLog_append, hlog] at hsafe
    generalize runLog SeqOp.step SeqOp.accepted (HybridKEXState.new sessionId t₀) ops = log at hsafe
    have hreplay := hsafe log.length (log.length + 2) _ (by omega)
      (by rw [List.getElem?_append_right le_rfl, Nat.sub_self]; rfl)
      (by rw [List.getElem?_append_right (by omega), Nat.add_sub_cancel_left]; rfl)
    exact absurd hreplay (by rw [maxReplayWindow]; omega)

/-- The numbers 100 to 163 fill the window; then 1, 2 and again 1 are drawn. -/
def rewoundRun : List SeqOp :=
  .set 99 :: List.replicate maxReplayWindow .increment ++
    [.set 0, .increment, .increment, .set 0, .increment]

/-- The number 1 is accepted twice, with one acceptance in between. -/
theorem increments_not_replaySafe :
    ¬ ∀ (sessionId : Vector UInt8 16) (t₀ : ℤ) (ops : List SeqOp),
      ReplaySafe (acceptedLog sessionId t₀ ops) := by
  intro h
  have hreplay := h (Vector.replicate 16 2) 0 rewoundRun 64 66 1 (by decide)
  rw [show acceptedLog (Vector.replicate 16 2) 0 rewoundRun =
    List.range' 100 64 ++ [1, 2, 1] by decide +kernel] at hreplay
  exact absurd (hreplay rfl rfl) (by decide)

/-! ## The deadline -/

namespace HybridKEXState

/-- The state after checks at the readings `ts`. -/
def afterChecks (s : HybridKEXState) (ts : List ℤ) : HybridKEXState :=
  ts.foldl (fun s t => (s.checkTimeout t).2) s

/-- The readings at which a check succeeded. -/
def succeeded (s : HybridKEXState) (ts : List ℤ) : List ℤ :=
  runLog (fun s t => (s.checkTimeout t).2)
    (fun s t =>
      match (s.checkTimeout t).1 with
      | .ok _ => [t]
      | .error _ => []) s ts

theorem checkTimeout_of_le {s : HybridKEXState} (hdone : s.handshakeDone = false) {t : ℤ}
    (ht : t ≤ s.timeout) :
    s.checkTimeout t = (.ok (), { s with timeout := t + handshakeTimeout }) := by
  rw [checkTimeout, if_pos (by rw [hdone]; rfl), if_neg (not_lt.mpr ht)]

theorem checkTimeout_of_lt {s : HybridKEXState} (hdone : s.handshakeDone = false) {t : ℤ}
    (ht : s.timeout < t) :
    s.checkTimeout t = (.error (sessionError "handshake timeout" s.sessionId), s) := by
  rw [checkTimeout, if_pos (by rw [hdone]; rfl), if_pos ht]

/-- The deadline is 30 s after the last successful check, or after the start. -/
theorem afterChecks_new (sessionId : Vector UInt8 16) (t₀ : ℤ) (ts : List ℤ) :
    ((new sessionId t₀).afterChecks ts).handshakeDone = false ∧
      ((new sessionId t₀).afterChecks ts).sessionId = sessionId ∧
      ((new sessionId t₀).afterChecks ts).timeout =
        (t₀ :: (new sessionId t₀).succeeded ts).getLast (List.cons_ne_nil _ _) +
          handshakeTimeout := by
  induction ts using List.reverseRecOn with
  | nil => exact ⟨rfl, rfl, rfl⟩
  | append_singleton ts t ih =>
    simp only [succeeded, runLog_append_singleton]
    simp only [afterChecks, List.foldl_append, List.foldl_cons, List.foldl_nil, succeeded] at ih ⊢
    obtain ⟨hdone, hsession, htimeout⟩ := ih
    rcases lt_or_ge (List.foldl (fun s t => (s.checkTimeout t).2) (new sessionId t₀) ts).timeout
      t with hlt | hle
    · simp only [checkTimeout_of_lt hdone hlt, List.append_nil]
      exact ⟨hdone, hsession, htimeout⟩
    · simp only [checkTimeout_of_le hdone hle, ← List.cons_append, List.getLast_append_singleton]
      exact ⟨hdone, hsession, trivial⟩

/-- Past the deadline checks change nothing. -/
theorem afterChecks_of_forall_lt {s : HybridKEXState} (hdone : s.handshakeDone = false)
    {ts : List ℤ} (hts : ∀ t ∈ ts, s.timeout < t) : s.afterChecks ts = s := by
  induction ts with
  | nil => rfl
  | cons t ts ih =>
    rw [afterChecks, List.foldl_cons, checkTimeout_of_lt hdone (hts t List.mem_cons_self)]
    exact ih fun t' ht' => hts t' (List.mem_cons_of_mem t ht')

end HybridKEXState

open HybridKEXState in
/-- **The handshake deadline** of a state created at `t₀` and checked at the readings `ts`: the next
check succeeds exactly when its reading is at most 30 s after the last successful one, or after `t₀`
if there is none. Once a check has failed, all later ones do, as long as the clock does not go
back. -/
theorem checkTimeout_deadline (sessionId : Vector UInt8 16) (t₀ : ℤ) (ts : List ℤ) (t : ℤ) :
    ((((new sessionId t₀).afterChecks ts).checkTimeout t).1 = .ok () ↔
      t ≤ (t₀ :: (new sessionId t₀).succeeded ts).getLast (List.cons_ne_nil _ _) +
        handshakeTimeout) ∧
    ((((new sessionId t₀).afterChecks ts).checkTimeout t).1 ≠ .ok () →
      ∀ us u, (t :: us ++ [u]).Pairwise (· ≤ ·) →
        (((new sessionId t₀).afterChecks (ts ++ t :: us)).checkTimeout u).1 =
          .error (sessionError "handshake timeout" sessionId)) := by
  obtain ⟨hdone, hsession, htimeout⟩ := afterChecks_new sessionId t₀ ts
  have happend : ∀ us, (new sessionId t₀).afterChecks (ts ++ us) =
      ((new sessionId t₀).afterChecks ts).afterChecks us := fun us => List.foldl_append
  simp only [happend]
  rw [← htimeout]
  generalize (new sessionId t₀).afterChecks ts = s at hdone hsession ⊢
  constructor
  · rcases lt_or_ge s.timeout t with hlt | hle
    · rw [checkTimeout_of_lt hdone hlt]
      exact ⟨fun h => (nomatch h), fun h => absurd h (not_le.mpr hlt)⟩
    · rw [checkTimeout_of_le hdone hle]
      exact ⟨fun _ => hle, fun _ => rfl⟩
  · intro hfail us u hmono
    have hlt : s.timeout < t := by
      by_contra! hle
      exact hfail (congrArg Prod.fst (checkTimeout_of_le hdone hle))
    have hlater : ∀ v ∈ us ++ [u], t ≤ v := fun v hv => List.rel_of_pairwise_cons hmono hv
    have hafter : s.afterChecks (t :: us) = s := by
      refine afterChecks_of_forall_lt hdone fun v hv => ?_
      rcases List.mem_cons.mp hv with rfl | hv
      · exact hlt
      · exact hlt.trans_le (hlater v (List.mem_append_left _ hv))
    have hu : s.timeout < u :=
      hlt.trans_le (hlater u (List.mem_append_right _ List.mem_cons_self))
    rw [hafter, checkTimeout_of_lt hdone hu, hsession]

/-- A handshake started at 0 is checked after 20 s and after 40 s, and succeeds both times. -/
theorem checkTimeout_outlives :
    ¬ ∀ (sessionId : Vector UInt8 16) (t₀ : ℤ) (ts : List ℤ) (t : ℤ),
      (t₀ :: ts ++ [t]).Pairwise (· ≤ ·) → t₀ + handshakeTimeout < t →
      (((HybridKEXState.new sessionId t₀).afterChecks ts).checkTimeout t).1 ≠ .ok () := by
  intro h
  exact h (Vector.replicate 16 0) 0 [20 * 10 ^ 9] (40 * 10 ^ 9) (by decide) (by decide) rfl

end SmipMwp.Crypto
