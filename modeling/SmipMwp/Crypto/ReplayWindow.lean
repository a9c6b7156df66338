import SmipMwp.Crypto.Hardening

/-!
# The replay window

`incrementSeqCounter` keeps the 64-entry array with total operations. Here the same control flow is
followed with the bounds checks that Rust makes, a failed one being `none`: on a well-formed state
none of them fails (`incrementSeqCounterChecked_eq`).

Every state of a run is well-formed. Its window is ascending, without duplicates, and within the
array; a call accepts exactly what is not in the window, adds it there in exchange for the smallest
entry of a full window, and on a refusal changes nothing (`replayWindow_run`).
-/

namespace SmipMwp.Crypto

namespace HybridKEXState

/-! ## The bounds checks -/

/-- `seq_window_len == 0 || seq > seq_window[seq_window_len - 1]`. -/
def checkedAbove (s : HybridKEXState) (seq : ℕ) : Option Bool :=
  if s.seqWindowLen = 0 then some true
  else s.seqWindow[s.seqWindowLen - 1]?.map fun last => decide (seq > last)

/-- The window without its smallest entry, its length, and where the number goes in it, if the
window is full. -/
def checkedEvict (s : HybridKEXState) (insertIdx : ℕ) : Option (List ℕ × ℕ × ℕ) :=
  if s.seqWindowLen ≥ maxReplayWindow then
    (checkedCopyWithin s.seqWindow 1 s.seqWindowLen 0).map fun window =>
      (window, s.seqWindowLen - 1, insertIdx - 1)
  else some (s.seqWindow, s.seqWindowLen, insertIdx)

/-- The insertion of a number, after the larger ones have made place. -/
def checkedInsert (window : List ℕ) (len insertIdx seq : ℕ) : Option (List ℕ) :=
  (if insertIdx < len then checkedCopyWithin window insertIdx len (insertIdx + 1)
    else some window).bind fun window => checkedSet window insertIdx seq

/-- `increment_seq_counter` with its bounds checks. -/
def incrementSeqCounterChecked (s : HybridKEXState) :
    Option (Except String ℕ × HybridKEXState) :=
  let seq := s.nextSeq
  let s := { s with seqCounter := seq }
  (s.checkedAbove seq).bind fun above =>
    if above then
      if s.seqWindowLen ≥ maxReplayWindow then
        (checkedCopyWithin s.seqWindow 1 s.seqWindowLen 0).bind fun window =>
          (checkedSet window (s.seqWindowLen - 1) seq).map fun window =>
            (.ok seq, { s with seqWindow := window })
      else
        (checkedSet s.seqWindow s.seqWindowLen seq).map fun window =>
          (.ok seq, { s with seqWindow := window, seqWindowLen := s.seqWindowLen + 1 })
    else
      (checkedTake s.seqWindow s.seqWindowLen).bind fun entries =>
        match binarySearch entries seq with
        | .ok _ => some (.error (sessionError "replay attack detected" s.sessionId), s)
        | .error insertIdx =>
          (s.checkedEvict insertIdx).bind fun (window, len, insertIdx) =>
            (checkedInsert window len insertIdx seq).map fun window =>
              (.ok seq, { s with seqWindow := window, seqWindowLen := len + 1 })

theorem checkedAbove_eq {s : HybridKEXState} (hs : s.Wf) (seq : ℕ) :
    s.checkedAbove seq = some
      (decide (s.seqWindowLen = 0 ∨ seq > s.seqWindow.getD (s.seqWindowLen - 1) 0)) := by
  rw [checkedAbove]
  split_ifs with hzero
  · simp [hzero]
  · have hlen := hs.length_seqWindow
    have hle := hs.len_le
    have hlt : s.seqWindowLen - 1 < s.seqWindow.length := by omega
    rw [List.getD_eq_getElem?_getD, List.getElem?_eq_getElem hlt]
    simp [hzero]

theorem checkedEvict_eq {s : HybridKEXState} (hs : s.Wf) (insertIdx : ℕ) :
    s.checkedEvict insertIdx = some
      (if s.seqWindowLen ≥ maxReplayWindow then
        (copyWithin s.seqWindow 1 s.seqWindowLen 0, s.seqWindowLen - 1, insertIdx - 1)
      else (s.seqWindow, s.seqWindowLen, insertIdx)) := by
  have hlen := hs.length_seqWindow
  have hle := hs.len_le
  have hcap : 0 < maxReplayWindow := by decide
  rw [checkedEvict]
  split_ifs with hfull
  · rw [checkedCopyWithin_of_le (by omega) (by omega) (by omega), Option.map_some]
  · rfl

theorem checkedInsert_eq {window : List ℕ} {len insertIdx : ℕ} (hidx : insertIdx ≤ len)
    (hlen : len < window.length) (seq : ℕ) :
    checkedInsert window len insertIdx seq = some
      ((if insertIdx < len then copyWithin window insertIdx len (insertIdx + 1)
        else window).set insertIdx seq) := by
  rw [checkedInsert]
  split_ifs with hlt
  · have hcopy : (copyWithin window insertIdx len (insertIdx + 1)).length = window.length :=
      length_copyWithin hidx (by omega) (by omega)
    rw [checkedCopyWithin_of_le hidx (by omega) (by omega), Option.bind_some,
      checkedSet_of_lt (by omega)]
  · rw [Option.bind_some, checkedSet_of_lt (by omega)]

/-- A number that is not there is to be put at an index of the list, or at its end. -/
theorem le_length_of_binarySearch {l : List ℕ} {x i : ℕ} (h : binarySearch l x = .error i) :
    i ≤ l.length := by
  unfold binarySearch at h
  split_ifs at h
  obtain rfl := Except.error.inj h
  exact place_le_length l x

/-- **No index or range leaves the array.** -/
theorem incrementSeqCounterChecked_eq {s : HybridKEXState} (hs : s.Wf) :
    s.incrementSeqCounterChecked = some s.incrementSeqCounter := by
  have hlen := hs.length_seqWindow
  have hle := hs.len_le
  have hcap : 0 < maxReplayWindow := by decide
  have hdrawn : Wf { s with seqCounter := s.nextSeq } :=
    ⟨hs.length_seqWindow, hs.len_le, hs.pairwise, hs.lt⟩
  simp only [incrementSeqCounterChecked, incrementSeqCounter, checkedAbove_eq hdrawn,
    checkedEvict_eq hdrawn, Option.bind_some, decide_eq_true_eq]
  by_cases habove : s.seqWindowLen = 0 ∨ s.nextSeq > s.seqWindow.getD (s.seqWindowLen - 1) 0
  · rw [if_pos habove, if_pos habove]
    split_ifs with hfull
    · have hlength := hs.length_shift (by omega)
      rw [checkedCopyWithin_of_le (by omega) (by omega) (by omega), Option.bind_some,
        checkedSet_of_lt (by omega), Option.map_some]
    · rw [checkedSet_of_lt (by omega), Option.map_some]
  · rw [if_neg habove, if_neg habove, checkedTake_of_le (by omega), Option.bind_some]
    cases hfound : binarySearch (s.seqWindow.take s.seqWindowLen) s.nextSeq with
    | ok i => rfl
    | error insertIdx =>
      have hidx := le_length_of_binarySearch hfound
      rw [List.length_take] at hidx
      by_cases hfull : s.seqWindowLen ≥ maxReplayWindow
      · have hlength := hs.length_shift (by omega)
        simp only [hfull, if_true]
        rw [checkedInsert_eq (by omega) (by omega), Option.map_some]
      · simp only [hfull, if_false]
        rw [checkedInsert_eq (by omega) (by omega), Option.map_some]

/-! ## What a call does to the window -/

/-- A refused call changes the counter only. -/
theorem incrementSeqCounter_of_error {s : HybridKEXState} {e : String}
    (h : s.incrementSeqCounter.1 = .error e) :
    s.incrementSeqCounter.2 = { s with seqCounter := s.nextSeq } := by
  unfold incrementSeqCounter at h ⊢
  cases hfound : binarySearch (s.seqWindow.take s.seqWindowLen) s.nextSeq
  case ok =>
    simp only [hfound] at h ⊢
    split_ifs at h ⊢
    rfl
  case error =>
    simp only [hfound] at h
    split_ifs at h

/-- An accepted number is put in exchange for the smallest entry of a full window. -/
theorem mem_window_incrementSeqCounter {s : HybridKEXState} (hs : s.Wf)
    (hnew : s.nextSeq ∉ s.window) (y : ℕ) :
    y ∈ s.incrementSeqCounter.2.window ↔ y = s.nextSeq ∨
      y ∈ s.window ∧ (s.seqWindowLen = maxReplayWindow → ∃ z ∈ s.window, z < y) := by
  have hlen := hs.length_window
  have hle := hs.len_le
  rw [(incrementSeqCounter_spec hs).1, mem_slide_of_notMem hnew, makeRoom]
  refine or_congr_right ?_
  split_ifs with hroom
  · exact ⟨fun hy => ⟨hy, fun hfull => absurd hfull (by omega)⟩, And.left⟩
  · obtain ⟨m, l, hl⟩ := List.exists_cons_of_ne_nil (l := s.window) (by
      rintro hnil
      rw [hnil, List.length_nil] at hroom
      exact hroom (by decide))
    have hm := List.pairwise_cons.mp (hl ▸ hs.pairwise)
    rw [hl, List.tail_cons]
    constructor
    · exact fun hy => ⟨List.mem_cons_of_mem m hy, fun _ => ⟨m, List.mem_cons_self, hm.1 y hy⟩⟩
    · rintro ⟨hy, hsmaller⟩
      obtain ⟨z, hz, hzy⟩ := hsmaller (by omega)
      -- the smallest entry has none below it
      refine (List.mem_cons.mp hy).resolve_left ?_
      rintro rfl
      rcases List.mem_cons.mp hz with rfl | hz
      · exact lt_irrefl z hzy
      · exact lt_asymm hzy (hm.1 z hz)

end HybridKEXState

/-! ## Runs -/

/-- **The replay window** of a state and of the next call: the window is ascending and within the
array, and the call stays within it too. It accepts exactly the numbers that are not in the window,
exchanging the smallest entry of a full window for the new number, and otherwise leaves the array
and its length as they were. -/
structure ReplayWindow (s : HybridKEXState) : Prop where
  length_seqWindow : s.seqWindow.length = maxReplayWindow
  len_le : s.seqWindowLen ≤ maxReplayWindow
  ascending : (s.seqWindow.take s.seqWindowLen).Pairwise (· < ·)
  inBounds : s.incrementSeqCounterChecked = some s.incrementSeqCounter
  accepts_iff : s.incrementSeqCounter.1 = .ok s.nextSeq ↔
    s.nextSeq ∉ s.seqWindow.take s.seqWindowLen
  accepted : ∀ seq, s.incrementSeqCounter.1 = .ok seq → seq = s.nextSeq ∧
    ∀ y, y ∈ s.incrementSeqCounter.2.window ↔ y = seq ∨ y ∈ s.window ∧
      (s.seqWindowLen = maxReplayWindow → ∃ z ∈ s.window, z < y)
  refused : ∀ e, s.incrementSeqCounter.1 = .error e →
    s.incrementSeqCounter.2.seqWindow = s.seqWindow ∧
      s.incrementSeqCounter.2.seqWindowLen = s.seqWindowLen

theorem HybridKEXState.Wf.replayWindow {s : HybridKEXState} (hs : s.Wf) : ReplayWindow s := by
  have hresult := (incrementSeqCounter_spec hs).2.2.2
  constructor
  case length_seqWindow => exact hs.length_seqWindow
  case len_le => exact hs.len_le
  case ascending => exact hs.pairwise
  case inBounds => exact incrementSeqCounterChecked_eq hs
  case accepts_iff =>
    rw [hresult]
    split_ifs with hmem
    · exact iff_of_false (fun h => nomatch h) fun h => h hmem
    · exact iff_of_true rfl hmem
  case accepted =>
    intro seq hok
    rw [hresult] at hok
    split_ifs at hok with hmem
    obtain rfl := Except.ok.inj hok
    exact ⟨rfl, mem_window_incrementSeqCounter hs hmem⟩
  case refused =>
    intro e herror
    rw [incrementSeqCounter_of_error herror]
    exact ⟨rfl, rfl⟩

/-- **The replay window in every run** of calls, with the counter set to anything in between. -/
theorem replayWindow_run (sessionId : Vector UInt8 16) (t₀ : ℤ) (ops : List SeqOp) :
    ReplayWindow (ops.foldl SeqOp.step (HybridKEXState.new sessionId t₀)) :=
  (SeqOp.wf_foldl (HybridKEXState.wf_new sessionId t₀) ops).replayWindow

end SmipMwp.Crypto
