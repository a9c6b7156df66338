import SmipMwp.Datapath.Emission
import SmipMwp.Foundations.Runs

/-!
# Writing one packet

Two relations between the state of a batch before and after. `Writes s t b …`: from `s` to `t` the
bytes `b` have been put after those of `s`, nothing pushed yet; one rule for each operation of the
packet loops says how `b` changes. `Emits s t es`: from `s` to `t` the packets `es` have left. A
push turns the first into the second, and emissions compose (`Emits.append`), so a loop emits what
its steps emit (`Emits.foldl`).
-/

namespace SmipMwp.Datapath

open Crypto

/-! ## The calls made -/

/-- The calls `cs`, on an arena of capacity `cap`, end at `top` at the latest; an append ends
there, unless `top` is still `base`. -/
structure Reach (cap base top : ℕ) (cs : List ArenaCall) : Prop where
  cap_eq : ∀ c ∈ cs, c.cap = cap
  stop_le : ∀ c ∈ cs, c.stop ≤ top
  top_mem : top = base ∨ ∃ c ∈ cs, c.IsAppend ∧ c.stop = top

namespace Reach

variable {cap base mid top : ℕ} {cs ds : List ArenaCall}

theorem nil : Reach cap base base [] := ⟨by simp, by simp, .inl rfl⟩

theorem append (h : Reach cap base mid cs) (h' : Reach cap mid top ds) (hle : mid ≤ top) :
    Reach cap base top (cs ++ ds) := by
  refine ⟨fun c hc => ?_, fun c hc => ?_, ?_⟩
  · exact (List.mem_append.mp hc).elim (h.cap_eq c) (h'.cap_eq c)
  · exact (List.mem_append.mp hc).elim (fun hc => (h.stop_le c hc).trans hle) (h'.stop_le c)
  · rcases h'.top_mem with rfl | ⟨c, hc, hc'⟩
    · rcases h.top_mem with htop | ⟨c, hc, hc'⟩
      · exact .inl htop
      · exact .inr ⟨c, List.mem_append_left _ hc, hc'⟩
    · exact .inr ⟨c, List.mem_append_right _ hc, hc'⟩

/-- An append that ends at `top`. -/
theorem single {c : ArenaCall} (hcap : c.cap = cap) (ha : c.IsAppend) (htop : c.stop = top) :
    Reach cap base top [c] :=
  ⟨by simpa using hcap, by simpa using htop.le, .inr ⟨c, by simp, ha, htop⟩⟩

/-- A further append, which may end below the others. -/
theorem snoc (h : Reach cap base top cs) {c : ArenaCall} (hcap : c.cap = cap) (ha : c.IsAppend) :
    Reach cap base (max top c.stop) (cs ++ [c]) := by
  rcases le_total top c.stop with hle | hle
  · rw [max_eq_right hle]
    exact h.append (single hcap ha rfl) hle
  · rw [max_eq_left hle]
    refine h.append ⟨by simpa using hcap, by simpa using hle, .inl rfl⟩ le_rfl

/-- A further call inside the range already reached. -/
theorem inside (h : Reach cap base top cs) {c : ArenaCall} (hcap : c.cap = cap)
    (hc : c.stop ≤ top) : Reach cap base top (cs ++ [c]) :=
  h.append ⟨by simpa using hcap, by simpa using hc, .inl rfl⟩ le_rfl

/-- **The bound**: the appends from an empty arena are all in bounds exactly when what is reached
fits the capacity. -/
theorem inBounds_iff (h : Reach cap 0 top cs) :
    (∀ c ∈ cs, c.IsAppend → c.InBounds) ↔ top ≤ cap := by
  constructor
  · intro hall
    rcases h.top_mem with rfl | ⟨c, hc, ha, rfl⟩
    · exact Nat.zero_le _
    · have := hall c hc ha
      rwa [ArenaCall.InBounds, h.cap_eq c hc] at this
  · intro hle c hc _
    rw [ArenaCall.InBounds, h.cap_eq c hc]
    exact (h.stop_le c hc).trans hle

end Reach

/-! ## Writing the bytes of a packet -/

/-- From `s` to `t` the bytes `b` have been written after those of `s`, at most `peak` bytes at any
time, the session calls `seals` made, and a miss counted if `miss`. -/
structure Writes (s t : Batch) (b : Bytes) (peak : ℕ) (seals : List SealCall) (miss : Bool) :
    Prop where
  bytes : t.arena.asSlice = s.arena.asSlice ++ b
  cap : t.arena.cap = s.arena.cap
  offsets : t.offsets = s.offsets
  stats : t.stats = { s.stats with routeMisses := s.stats.routeMisses + miss.toNat }
  seals : t.trace.seals = s.trace.seals ++ seals
  outputs : t.trace.outputs = s.trace.outputs
  calls : ∃ cs, t.trace.calls = s.trace.calls ++ cs ∧
    Reach s.arena.cap s.arena.len (s.arena.len + peak) cs

namespace Writes

variable {s t : Batch} {b : Bytes} {peak : ℕ} {seals : List SealCall} {miss : Bool}

theorem refl (s : Batch) : Writes s s [] 0 [] false where
  bytes := by simp
  cap := rfl
  offsets := rfl
  stats := by simp
  seals := by simp
  outputs := rfl
  calls := ⟨[], by simp, Reach.nil⟩

theorem len_eq (w : Writes s t b peak seals miss) : t.arena.len = s.arena.len + b.length := by
  have := congrArg List.length w.bytes
  simpa using this

theorem meter (w : Writes s t b peak seals miss) (f : LocalMetrics → LocalMetrics) :
    Writes s (t.meter f) b peak seals miss :=
  { w with }

theorem countMiss (w : Writes s t b peak seals false) :
    Writes s t.countMiss b peak seals true :=
  { w with stats := by simp [Batch.countMiss, w.stats] }

/-- An append call at the end of the arena, of a kind and length as given. -/
theorem calls_append (w : Writes s t b peak seals miss) {kind : CallKind} {n : ℕ}
    (hk : kind ≠ .asMutSliceAt) :
    ∃ cs, t.trace.calls ++ [⟨kind, t.arena.len, n, t.arena.cap⟩] = s.trace.calls ++ cs ∧
      Reach s.arena.cap s.arena.len (s.arena.len + max peak (b.length + n)) cs := by
  obtain ⟨cs, hcs, hr⟩ := w.calls
  refine ⟨_, by rw [hcs, List.append_assoc], ?_⟩
  have hstop : ArenaCall.stop ⟨kind, t.arena.len, n, t.arena.cap⟩ =
      s.arena.len + (b.length + n) := by
    rw [ArenaCall.stop, w.len_eq, Nat.add_assoc]
  rw [← Nat.add_max_add_left, ← hstop]
  exact hr.snoc w.cap hk

theorem append (w : Writes s t b peak seals miss) (src : Bytes) :
    Writes s (t.append src) (b ++ src) (max peak (b ++ src).length) seals miss :=
  { w with
    bytes := by simp [Batch.append, w.bytes]
    calls := by
      rw [List.length_append]
      exact w.calls_append nofun }

theorem appendTag (w : Writes s t b peak seals miss) (tag : Tag) :
    Writes s (t.appendTag tag) (b ++ tag.toList) (max peak (b ++ tag.toList).length) seals miss :=
  { w with
    bytes := by simp [Batch.appendTag, w.bytes]
    calls := by
      rw [List.length_append, Vector.length_toList]
      exact w.calls_append nofun }

/-- Rolling back to the length of `s` leaves nothing written. -/
theorem truncate (w : Writes s t b peak seals miss) :
    Writes s (t.truncate s.arena.len) [] peak seals miss :=
  { w with
    bytes := by
      simp only [Batch.truncate, AlignedBuffer.asSlice_truncate, w.bytes]
      rw [List.take_append_of_le_length (by simp), List.take_of_length_le (by simp),
        List.append_nil] }

theorem writeId (w : Writes s t b peak seals miss) {off : ℕ} (id : Wire.Id)
    (h : off + 32 ≤ b.length) :
    Writes s (t.writeId (s.arena.len + off) id) (overwrite b off id.toList) peak seals miss :=
  { w with
    bytes := by
      rw [Batch.writeId, AlignedBuffer.asSlice_store _ (by rw [w.len_eq]; simp; omega), w.bytes,
        ← s.arena.length_asSlice, overwrite_append_right] }

/-- The slice of the packet that `sealAt` reads. -/
theorem load_eq (w : Writes s t b peak seals miss) {off n : ℕ} (h : off + n ≤ b.length) :
    t.arena.load (s.arena.len + off) n = slice b off n := by
  rw [AlignedBuffer.load_eq_slice _ (by rw [w.len_eq]; omega), w.bytes, ← s.arena.length_asSlice,
    slice_append_right]

/-- The calls with the range of `sealAt` added. -/
theorem calls_sealAt (w : Writes s t b peak seals miss) {off n : ℕ} (h : off + n ≤ peak) :
    ∃ cs, t.trace.calls ++ [⟨.asMutSliceAt, s.arena.len + off, n, t.arena.cap⟩] =
      s.trace.calls ++ cs ∧ Reach s.arena.cap s.arena.len (s.arena.len + peak) cs := by
  obtain ⟨cs, hcs, hr⟩ := w.calls
  refine ⟨_, by rw [hcs, List.append_assoc], hr.inside w.cap ?_⟩
  rw [ArenaCall.stop, Nat.add_assoc]
  exact Nat.add_le_add_left h _

/-- A successful session call replaces the slice by its ciphertext. -/
theorem sealAt_ok (w : Writes s t b peak seals miss) {session : HybridSession} {off n : ℕ}
    {seq : UInt64} {ct : Bytes} {tag : Tag} (h : off + n ≤ b.length) (hpeak : b.length ≤ peak)
    (hok : session.encryptIntoSlice (slice b off n) seq = .ok (ct, tag)) :
    ∃ t', t.sealAt session (s.arena.len + off) n seq = (t', .ok tag) ∧
      Writes s t' (overwrite b off ct) peak (seals ++ [⟨session.buildNonce seq, slice b off n⟩])
        miss := by
  have hct : off + ct.length ≤ b.length := by
    rwa [session.length_encryptIntoSlice hok, length_slice_of_le h]
  have hload : t.arena.load (s.arena.len + off) n = slice b off n := w.load_eq h
  refine ⟨{ t with
    arena := t.arena.store (s.arena.len + off) ct
    trace.calls := t.trace.calls ++ [⟨.asMutSliceAt, s.arena.len + off, n, t.arena.cap⟩]
    trace.seals := t.trace.seals ++ [⟨session.buildNonce seq, slice b off n⟩] }, ?_, ?_⟩
  · simp only [Batch.sealAt, sealRecorded, hload, hok]
  exact
    { w with
      bytes := by
        rw [AlignedBuffer.asSlice_store _ (by rw [w.len_eq]; omega), w.bytes,
          ← s.arena.length_asSlice, overwrite_append_right]
      seals := by simp only [w.seals, List.append_assoc]
      calls := w.calls_sealAt (h.trans hpeak) }

/-- A refused session call leaves the bytes alone. -/
theorem sealAt_error (w : Writes s t b peak seals miss) {session : HybridSession} {off n : ℕ}
    {seq : UInt64} {e : SessionError} (h : off + n ≤ b.length) (hpeak : b.length ≤ peak)
    (herr : session.encryptIntoSlice (slice b off n) seq = .error e) :
    ∃ t', t.sealAt session (s.arena.len + off) n seq = (t', .error e) ∧
      Writes s t' b peak seals miss := by
  have hload : t.arena.load (s.arena.len + off) n = slice b off n := w.load_eq h
  refine ⟨{ t with
    trace.calls := t.trace.calls ++ [⟨.asMutSliceAt, s.arena.len + off, n, t.arena.cap⟩] }, ?_, ?_⟩
  · simp only [Batch.sealAt, sealRecorded, hload, herr]
  exact { w with calls := w.calls_sealAt (h.trans hpeak) }

end Writes

/-! ## Emitting packets -/

/-- From `s` to `t` the packets `es` have been written one after another, pushed, counted and
recorded. -/
structure Emits (s t : Batch) (es : List Emission) : Prop where
  bytes : t.arena.asSlice = s.arena.asSlice ++ payloadsOf es
  cap : t.arena.cap = s.arena.cap
  offsets : t.offsets = s.offsets ++ offsetsOf s.arena.len es
  stats : t.stats = s.stats.tally es
  seals : t.trace.seals = s.trace.seals ++ es.filterMap Emission.sealed
  outputs : t.trace.outputs = s.trace.outputs ++ recordsOf s.arena.len es
  calls : ∃ cs, t.trace.calls = s.trace.calls ++ cs ∧
    Reach s.arena.cap s.arena.len t.arena.len cs

namespace Emits

variable {s t u : Batch} {es fs : List Emission}

theorem refl (s : Batch) : Emits s s [] where
  bytes := by simp
  cap := rfl
  offsets := by simp [offsetsOf]
  stats := by simp
  seals := by simp
  outputs := by simp [recordsOf]
  calls := ⟨[], by simp, Reach.nil⟩

theorem len_eq (h : Emits s t es) : t.arena.len = s.arena.len + (payloadsOf es).length := by
  have := congrArg List.length h.bytes
  simpa using this

/-- Emissions compose. -/
theorem append (h : Emits s t es) (h' : Emits t u fs) : Emits s u (es ++ fs) where
  bytes := by rw [h'.bytes, h.bytes, payloadsOf_append, List.append_assoc]
  cap := h'.cap.trans h.cap
  offsets := by rw [h'.offsets, h.offsets, h.len_eq, offsetsOf_append, List.append_assoc]
  stats := by rw [h'.stats, h.stats, tally_append]
  seals := by rw [h'.seals, h.seals, List.filterMap_append, List.append_assoc]
  outputs := by rw [h'.outputs, h.outputs, h.len_eq, recordsOf_append, List.append_assoc]
  calls := by
    obtain ⟨cs, hcs, hr⟩ := h.calls
    obtain ⟨ds, hds, hr'⟩ := h'.calls
    refine ⟨cs ++ ds, by rw [hds, hcs, List.append_assoc], ?_⟩
    rw [h.cap] at hr'
    exact hr.append hr' (by rw [h'.len_eq]; omega)

theorem meter (h : Emits s t es) (f : LocalMetrics → LocalMetrics) : Emits s (t.meter f) es :=
  { h with }

/-- Changes of the metrics beforehand do not show. -/
theorem of_meter {f : LocalMetrics → LocalMetrics} (h : Emits (s.meter f) t es) : Emits s t es :=
  { h with }

/-- A packet loop emits what its steps emit. -/
theorem foldl {α : Type*} {step : Batch → α → Batch} {em : α → List Emission}
    (hstep : ∀ s a, Emits s (step s a) (em a)) (l : List α) (s : Batch) :
    Emits s (l.foldl step s) (l.flatMap em) :=
  foldl_runs refl append hstep l s

end Emits

namespace Writes

variable {s t : Batch} {b : Bytes} {miss : Bool}

/-- A push as encrypted emits the bytes written since. -/
theorem pushEncrypted {call : SealCall} (w : Writes s t b b.length [call] miss) (frame : Bytes) :
    Emits s (t.pushEncrypted frame s.arena.len (t.arena.len - s.arena.len))
      [⟨frame, b, some call, miss⟩] where
  bytes := by simpa [Batch.pushEncrypted, payloadsOf] using w.bytes
  cap := w.cap
  offsets := by
    simp [Batch.pushEncrypted, w.offsets, w.len_eq, offsetsOf, offsetsFrom]
  stats := by
    cases miss <;>
      simp [Batch.pushEncrypted, w.stats, ForwarderStats.tally, Emission.encrypted]
  seals := by simpa [Batch.pushEncrypted] using w.seals
  outputs := by
    simp [Batch.pushEncrypted, w.outputs, w.len_eq, recordsOf, offsetsOf, offsetsFrom,
      Emission.encrypted]
  calls := by simpa [Batch.pushEncrypted, w.len_eq] using w.calls

/-- A push as forwarded emits the bytes written since. -/
theorem pushForwarded (w : Writes s t b b.length [] miss) (frame : Bytes) :
    Emits s (t.pushForwarded frame s.arena.len (t.arena.len - s.arena.len))
      [.plain frame b miss] where
  bytes := by simpa [Batch.pushForwarded, payloadsOf, Emission.plain] using w.bytes
  cap := w.cap
  offsets := by
    simp [Batch.pushForwarded, w.offsets, w.len_eq, offsetsOf, offsetsFrom, Emission.plain]
  stats := by
    cases miss <;>
      simp [Batch.pushForwarded, w.stats, ForwarderStats.tally, Emission.encrypted, Emission.plain]
  seals := by simpa [Batch.pushForwarded, Emission.plain] using w.seals
  outputs := by
    simp [Batch.pushForwarded, w.outputs, w.len_eq, recordsOf, offsetsOf, offsetsFrom,
      Emission.encrypted, Emission.plain]
  calls := by simpa [Batch.pushForwarded, w.len_eq] using w.calls

end Writes

/-- A miss counted after the push. -/
theorem Emits.countMiss {s t : Batch} {frame bytes : Bytes} {call : Option SealCall}
    (h : Emits s t [⟨frame, bytes, call, false⟩]) :
    Emits s t.countMiss [⟨frame, bytes, call, true⟩] :=
  { h with
    stats := by
      simp [Batch.countMiss, h.stats, ForwarderStats.tally, Emission.encrypted] }

end SmipMwp.Datapath
