import SmipMwp.Datapath.Writes

/-!
# What the loop bodies emit

The loop bodies of `process_batch` emit the packets their paths are said to emit
(`emits_serialStep`, `emits_appendStep`; for those of `process_batch_mcr` see
`Datapath/McrSteps.lean`). The proofs follow the source: the state is carried through the
operations with the rules of `Writes`, and the cases are those of `attempt_cases`.
-/

namespace SmipMwp.Datapath

open Crypto Routing Wire

/-! ## Sealing in the arena -/

section Sealing

variable {s t : Batch} {p ct : Bytes} {tag : Tag} {S : HybridSession} {miss : Bool}

/-- A sealed packet without trailing bytes is the written frame with the ciphertext stored, and
the tag. -/
theorem sealedPacket_nil (hlen : headerSize + Packet.payloadLen p ≤ p.length)
    (hct : ct.length = Packet.payloadLen p) :
    overwrite (p.take (headerSize + Packet.payloadLen p)) headerSize ct ++ tag.toList =
      sealedPacket p ct tag [] := by
  rw [overwrite_of_length_eq (by rw [List.length_take, hct]; omega), List.take_take,
    Nat.min_eq_left (by omega), sealedPacket, List.append_nil]

theorem length_ct (hlen : headerSize + Packet.payloadLen p ≤ p.length)
    (hok : S.encryptIntoSlice (Packet.payload p) (Packet.seqNum p) = .ok (ct, tag)) :
    ct.length = Packet.payloadLen p :=
  (S.length_encryptIntoSlice hok).trans (Packet.length_payload hlen)

/-- The declared payload of the frame written to the arena. -/
theorem slice_take_payload (p : Bytes) :
    slice (p.take (headerSize + Packet.payloadLen p)) headerSize (Packet.payloadLen p) =
      Packet.payload p :=
  slice_take le_rfl

/-- Header and payload written, the payload sealed in place, and the tag appended. -/
theorem Writes.seal (hlen : headerSize + Packet.payloadLen p ≤ p.length)
    (w : Writes s t (p.take (headerSize + Packet.payloadLen p)) (headerSize + Packet.payloadLen p)
      [] miss)
    (hok : S.encryptIntoSlice (Packet.payload p) (Packet.seqNum p) = .ok (ct, tag))
    (f : LocalMetrics → LocalMetrics) :
    ∃ t', t.sealAt S (s.arena.len + headerSize) (Packet.payloadLen p) (Packet.seqNum p) =
        (t', .ok tag) ∧
      Writes s ((t'.meter f).appendTag tag) (sealedPacket p ct tag [])
        (sealedPacket p ct tag []).length
        [⟨S.buildNonce (Packet.seqNum p), Packet.payload p⟩] miss := by
  have hb : (p.take (headerSize + Packet.payloadLen p)).length =
      headerSize + Packet.payloadLen p := by rw [List.length_take]; omega
  have hct := length_ct hlen hok
  rw [← slice_take_payload] at hok
  obtain ⟨t', ht', w'⟩ := w.sealAt_ok hb.ge hb.le hok
  refine ⟨t', ht', ?_⟩
  have w' := (w'.meter f).appendTag tag
  rw [sealedPacket_nil hlen hct, slice_take_payload, List.nil_append, max_eq_right] at w'
  · exact w'
  · rw [sealedPacket]
    simp only [List.length_append, List.length_take, hct]
    omega

/-- The frame written and refused by the session. -/
theorem Writes.refuse {e : SessionError} (hlen : headerSize + Packet.payloadLen p ≤ p.length)
    (w : Writes s t (p.take (headerSize + Packet.payloadLen p)) (headerSize + Packet.payloadLen p)
      [] miss)
    (herr : S.encryptIntoSlice (Packet.payload p) (Packet.seqNum p) = .error e) :
    ∃ t', t.sealAt S (s.arena.len + headerSize) (Packet.payloadLen p) (Packet.seqNum p) =
        (t', .error e) ∧
      Writes s t' (p.take (headerSize + Packet.payloadLen p)) (headerSize + Packet.payloadLen p)
        [] miss := by
  have hb : (p.take (headerSize + Packet.payloadLen p)).length =
      headerSize + Packet.payloadLen p := by rw [List.length_take]; omega
  rw [← slice_take_payload] at herr
  exact w.sealAt_error hb.ge hb.le herr

theorem Writes.withPeak {b : Bytes} {peak peak' : ℕ} {seals : List SealCall}
    (w : Writes s t b peak seals miss) (h : peak = peak') : Writes s t b peak' seals miss :=
  h ▸ w

/-- The first `n` bytes of a packet written to a packet's place where nothing is pending. -/
theorem Writes.appendTake {n peak : ℕ} {seals : List SealCall} (w : Writes s t [] peak seals miss)
    (hn : n ≤ p.length) (hpeak : peak ≤ n) :
    Writes s (t.append (p.take n)) (p.take n) n seals miss := by
  have w := w.append (p.take n)
  rwa [List.nil_append, List.length_take_of_le hn, max_eq_right hpeak] at w

theorem Writes.appendWhole {peak : ℕ} {seals : List SealCall} (w : Writes s t [] peak seals miss)
    (hpeak : peak ≤ p.length) : Writes s (t.append p) p p.length seals miss := by
  have w := w.append p
  rwa [List.nil_append, max_eq_right hpeak] at w

/-- The bytes after the declared payload appended behind the tag, if there are any. -/
theorem Writes.appendTrailing {call : SealCall} {n : ℕ}
    (w : Writes s t (sealedPacket p ct tag []) (sealedPacket p ct tag []).length [call] miss)
    (q : Bytes) :
    Writes s (if n < q.length then t.append (q.drop n) else t) (sealedPacket p ct tag (q.drop n))
      (sealedPacket p ct tag (q.drop n)).length [call] miss := by
  split_ifs with hn
  · have w := w.append (q.drop n)
    rw [sealedPacket, List.append_nil] at w
    rw [sealedPacket]
    rwa [max_eq_right (by simp)] at w
  · rwa [List.drop_of_length_le (by omega)]

end Sealing

/-! ## The serial loop -/

theorem Writes.forwardWhole {s t : Batch} {p : Bytes} {peak : ℕ} {miss : Bool}
    (w : Writes s t [] peak [] miss) (hpeak : peak ≤ p.length) :
    Emits s (forwardWhole t p) [.plain p p miss] := by
  have hlen : t.arena.len = s.arena.len := by simpa using w.len_eq
  rw [Datapath.forwardWhole, hlen]
  exact (w.appendWhole hpeak).pushForwarded p

/-- The lookups of `handle_packet` find a hop when `lookup_or_predict` does, and count a miss
otherwise. -/
theorem lookupRoute_eq (routes : Table) (s : Batch) (v : HeaderViewRef) :
    ∃ t, lookupRoute routes s v =
        (t, (routes.lookupOrPredict v.srcId v.dstId v.flowLabel).isSome) ∧
      Writes s t [] 0 [] !(routes.lookupOrPredict v.srcId v.dstId v.flowLabel).isSome := by
  have w := (Writes.refl s).meter fun m => { m with lookupCalls := m.lookupCalls + 1 }
  simp only [lookupRoute, Table.lookupOrPredict]
  rcases routes.lookupNextHop v.dstId v.flowLabel with _ | nh
  · have w := w.meter fun m => { m with predictCalls := m.predictCalls + 1 }
    rcases routes.lookupPredictiveFallback v.srcId v.dstId v.flowLabel with _ | nh
    · exact ⟨_, rfl, w.countMiss⟩
    · exact ⟨_, rfl, w.meter _⟩
  · exact ⟨_, rfl, w.meter _⟩

/-- **One serial step** emits the frame, encrypted if it can be. -/
theorem emits_serialStep (routes : Table) (session : Option HybridSession) (s : Batch)
    (p : Bytes) : Emits s (serialStep routes session s p) (serialEmissions routes session p) := by
  rw [serialEmissions]
  by_cases hp : p.length < headerSize
  · simp only [serialStep, handlePacket, HeaderViewRef.new_of_lt hp, emission, if_pos hp]
    exact (Writes.refl s).forwardWhole (Nat.zero_le _)
  obtain ⟨v, hv, hsrc, hdst, hfl, hseq, hL⟩ := HeaderViewRef.new_of_le (not_lt.mp hp)
  obtain ⟨t, ht, w⟩ := lookupRoute_eq routes s v
  have hr : (routes.lookupOrPredict v.srcId v.dstId v.flowLabel).isSome = isRouted routes p := by
    rw [isRouted, hsrc, hdst, hfl]
  have hst : t.arena.len = s.arena.len := by simpa using w.len_eq
  rw [hr] at ht w
  simp only [serialStep, handlePacket, hv, ht, emission, if_neg hp, hseq, hL]
  cases hroute : isRouted routes p with
  | false =>
    rw [hroute] at w
    exact w.forwardWhole (Nat.zero_le _)
  | true =>
    rw [hroute, Bool.not_true] at w
    simp only [if_true]
    rcases attempt_cases session p with ⟨hskip, ha⟩ | ⟨S, rfl, hpos, hlt, ha⟩ |
      ⟨S, e, rfl, hpos, hle, herr, ha⟩ | ⟨S, ct, tag, rfl, hpos, hle, hok, ha⟩
    · have hw := w.forwardWhole (p := p) (Nat.zero_le _)
      rcases session with _ | S
      · simpa only [ha, Layout.attempted] using hw
      · have h0 : ¬ 0 < Packet.payloadLen p := by
          rcases hskip with h | h
          · cases h
          · omega
        simpa only [ha, Layout.attempted, h0, and_false, if_false] using hw
    · simp only [ha, hpos, not_le.mpr hlt, false_and, if_false, if_true]
      exact w.countMiss.forwardWhole (Nat.zero_le _)
    · obtain ⟨t', ht', w'⟩ := (w.appendTake hle (Nat.zero_le _)).refuse hle herr
      rw [← hst] at ht'
      simp only [ha, hpos, hle, and_self, if_true, ht']
      rw [hst]
      exact w'.truncate.countMiss.forwardWhole hle
    · obtain ⟨t', ht', w'⟩ := (w.appendTake hle (Nat.zero_le _)).seal hle hok
        fun m => { m with encryptCount := m.encryptCount + 1 }
      rw [← hst] at ht'
      simp only [ha, hpos, hle, and_self, if_true, ht']
      rw [hst]
      exact w'.pushEncrypted p

/-! ## The owned path -/

/-- In-place encryption of a grown frame: ciphertext and tag over the bytes after the header. -/
theorem overwrite_resize {p ct : Bytes} {tag : Tag} (hp : headerSize ≤ p.length)
    (hct : ct.length = Packet.payloadLen p) :
    overwrite (overwrite (resize p (headerSize + Packet.payloadLen p + tagSize) 0) headerSize ct)
        (headerSize + Packet.payloadLen p) tag.toList =
      sealedPacket p ct tag (p.drop (headerSize + Packet.payloadLen p + tagSize)) := by
  have hlen : headerSize + ct.length ≤
      (resize p (headerSize + Packet.payloadLen p + tagSize) (0 : UInt8)).length := by
    rw [length_resize, hct]
    omega
  have htag : (ct ++ tag.toList).length = Packet.payloadLen p + tagSize := by
    rw [List.length_append, hct, Vector.length_toList, tagSize]
  rw [← hct, overwrite_overwrite (by rwa [← hct] at hlen), hct, overwrite, htag, take_resize hp,
    ← Nat.add_assoc, drop_resize, sealedPacket, List.append_assoc _ ct]

/-- What the parallel map returns for an emission, beside its frame. -/
def Emission.output (e : Emission) : Bytes × PacketOutput × List SealCall :=
  (e.frame, ⟨e.bytes, e.encrypted, e.miss⟩, e.sealed.toList)

theorem processPacketOwned_eq (routes : Table) (session : Option HybridSession) (frame p : Bytes) :
    (frame, processPacketOwned p routes session) =
      (emission .owned routes session frame p).output := by
  rw [Emission.output, emission_frame]
  congr 1
  by_cases hp : p.length < headerSize
  · simp only [processPacketOwned, HeaderViewRef.new_of_lt hp, emission, if_pos hp]
    rfl
  obtain ⟨v, hv, hsrc, hdst, hfl, hseq, hL⟩ := HeaderViewRef.new_of_le (not_lt.mp hp)
  have hr : (routes.lookupOrPredict v.srcId v.dstId v.flowLabel).isSome = isRouted routes p := by
    rw [isRouted, hsrc, hdst, hfl]
  simp only [processPacketOwned, hv, hr, hseq, hL, emission, if_neg hp]
  cases isRouted routes p with
  | false => rfl
  | true =>
    have hgrow : (if p.length < headerSize + Packet.payloadLen p + tagSize then
        resize p (headerSize + Packet.payloadLen p + tagSize) 0 else p) =
        resize p (headerSize + Packet.payloadLen p + tagSize) 0 := by
      split_ifs with hlt
      · rfl
      · exact (resize_of_le (not_lt.mp hlt) 0).symm
    have hpay : headerSize + Packet.payloadLen p ≤ p.length →
        slice (resize p (headerSize + Packet.payloadLen p + tagSize) 0) headerSize
          (Packet.payloadLen p) = Packet.payload p :=
      fun hle => slice_append_left hle
    simp only [if_true]
    rcases attempt_cases session p with ⟨hskip, ha⟩ | ⟨S, rfl, hpos, hlt, ha⟩ |
      ⟨S, e, rfl, hpos, hle, herr, ha⟩ | ⟨S, ct, tag, rfl, hpos, hle, hok, ha⟩
    · rw [ha]
      rcases session with _ | S
      · rfl
      · have h0 : ¬ 0 < Packet.payloadLen p := by
          rcases hskip with h | h
          · cases h
          · omega
        simp only [encryptPacketOwned, h0, and_false, if_false]
        rfl
    · simp only [ha, encryptPacketOwned, hpos, not_le.mpr hlt, false_and, if_false, if_true]
      rfl
    · simp only [ha, encryptPacketOwned, hpos, hle, and_self, if_true, hgrow, hpay hle,
        sealRecorded, herr]
      rfl
    · simp only [ha, encryptPacketOwned, hpos, hle, and_self, if_true, hgrow, hpay hle,
        sealRecorded, hok, overwrite_resize (not_lt.mp hp) (length_ct hle hok)]
      rfl

/-- Session calls recorded later than made. -/
theorem Writes.recordSeals {s t : Batch} {b : Bytes} {peak : ℕ} {seals : List SealCall}
    {miss : Bool} (w : Writes s t b peak seals miss) (cs : List SealCall) :
    Writes s { t with trace.seals := t.trace.seals ++ cs } b peak (seals ++ cs) miss :=
  { w with seals := by simp only [w.seals, List.append_assoc] }

/-- **One append step** emits the output it is given. -/
theorem emits_appendStep (s : Batch) (e : Emission) :
    Emits s (appendStep s e.output) [e] := by
  have w := ((Writes.refl s).appendWhole (Nat.zero_le e.bytes.length)).recordSeals e.sealed.toList
  obtain ⟨frame, bytes, call, miss⟩ := e
  rcases call with _ | call
  · have h := w.pushForwarded frame
    cases miss with
    | false => exact h
    | true => exact h.countMiss
  · have h := (w.pushEncrypted frame).meter
      fun m => { m with localEncCount := m.localEncCount + 1 }
    cases miss with
    | false => exact h
    | true => exact h.countMiss

end SmipMwp.Datapath
