import SmipMwp.Datapath.Steps

/-!
# What the MCR loop bodies emit

The loop bodies of the primary and the serial full-spray branch of `process_batch_mcr`
(`emits_primaryStep`, `emits_sprayStep`). The serial full spray writes into the arena the same
redirected copies that the parallel one makes beforehand (`duplicate`).
-/

namespace SmipMwp.Datapath

open Crypto Routing Wire

/-! ## Packets framed alike -/

/-- A packet of the length, with the declared payload length and sequence number, of another. -/
structure SameFraming (p q : Bytes) : Prop where
  length_eq : q.length = p.length
  payloadLen_eq : Packet.payloadLen q = Packet.payloadLen p
  seqNum_eq : Packet.seqNum q = Packet.seqNum p

theorem sameFraming_redirected {p : Bytes} (hp : headerSize ≤ p.length) (nh : Id) :
    SameFraming p (redirected p nh) :=
  ⟨length_redirected hp nh, payloadLen_redirected hp nh, seqNum_redirected hp nh⟩

section SameFraming

variable {p q : Bytes} {S : HybridSession} {s t : Batch} {miss : Bool}

/-- The four outcomes of an attempt, by the lengths and the sequence number of the other packet. -/
theorem SameFraming.attempt_cases (h : SameFraming p q) (session : Option HybridSession) :
    ((session = none ∨ Packet.payloadLen p = 0) ∧ attempt session q = .skipped) ∨
    (∃ S, session = some S ∧ 0 < Packet.payloadLen p ∧
      p.length < headerSize + Packet.payloadLen p ∧ attempt session q = .truncated) ∨
    (∃ S e, session = some S ∧ 0 < Packet.payloadLen p ∧
      headerSize + Packet.payloadLen p ≤ p.length ∧
      S.encryptIntoSlice (Packet.payload q) (Packet.seqNum p) = .error e ∧
      attempt session q = .refused) ∨
    (∃ S ct tag, session = some S ∧ 0 < Packet.payloadLen p ∧
      headerSize + Packet.payloadLen p ≤ p.length ∧
      S.encryptIntoSlice (Packet.payload q) (Packet.seqNum p) = .ok (ct, tag) ∧
      attempt session q =
        .sealed ⟨S.buildNonce (Packet.seqNum p), Packet.payload q⟩ ct tag) := by
  have hcases := Datapath.attempt_cases session q
  rwa [h.payloadLen_eq, h.length_eq, h.seqNum_eq] at hcases

theorem SameFraming.refuse (h : SameFraming p q) {e : SessionError}
    (hle : headerSize + Packet.payloadLen p ≤ p.length)
    (w : Writes s t (q.take (headerSize + Packet.payloadLen p)) (headerSize + Packet.payloadLen p)
      [] miss)
    (herr : S.encryptIntoSlice (Packet.payload q) (Packet.seqNum p) = .error e) :
    ∃ t', t.sealAt S (s.arena.len + headerSize) (Packet.payloadLen p) (Packet.seqNum p) =
        (t', .error e) ∧
      Writes s t' (q.take (headerSize + Packet.payloadLen p)) (headerSize + Packet.payloadLen p)
        [] miss := by
  rw [← h.payloadLen_eq, ← h.length_eq] at hle
  rw [← h.payloadLen_eq] at w ⊢
  rw [← h.seqNum_eq] at herr ⊢
  exact w.refuse hle herr

theorem SameFraming.seal (h : SameFraming p q) {ct : Bytes} {tag : Tag}
    (hle : headerSize + Packet.payloadLen p ≤ p.length)
    (w : Writes s t (q.take (headerSize + Packet.payloadLen p)) (headerSize + Packet.payloadLen p)
      [] miss)
    (hok : S.encryptIntoSlice (Packet.payload q) (Packet.seqNum p) = .ok (ct, tag))
    (f : LocalMetrics → LocalMetrics) :
    ∃ t', t.sealAt S (s.arena.len + headerSize) (Packet.payloadLen p) (Packet.seqNum p) =
        (t', .ok tag) ∧
      Writes s ((t'.meter f).appendTag tag) (sealedPacket q ct tag [])
        (sealedPacket q ct tag []).length
        [⟨S.buildNonce (Packet.seqNum p), Packet.payload q⟩] miss := by
  rw [← h.payloadLen_eq, ← h.length_eq] at hle
  rw [← h.payloadLen_eq] at w ⊢
  rw [← h.seqNum_eq] at hok ⊢
  exact w.seal hle hok f

end SameFraming

/-! ## The primary loop -/

/-- The destination of a written packet rewritten. -/
theorem Writes.writeHop {s t : Batch} {b : Bytes} {peak : ℕ} {seals : List SealCall} {miss : Bool}
    (w : Writes s t b peak seals miss) (nh : Id) (hb : headerSize ≤ b.length) :
    Writes s (t.writeId (s.arena.len + 32) nh) (redirected b nh) peak seals miss :=
  w.writeId nh (by simp only [headerSize] at hb; omega)

/-- A whole frame written and redirected, after a roll-back or where nothing is pending. -/
theorem Writes.appendRedirected {s t : Batch} {p : Bytes} {peak : ℕ} {seals : List SealCall}
    {miss : Bool} (w : Writes s t [] peak seals miss) (hpeak : peak ≤ p.length) (nh : Id)
    (hp : headerSize ≤ p.length) :
    Writes s ((t.append p).writeId (s.arena.len + 32) nh) (redirected p nh)
      (redirected p nh).length seals miss := by
  rw [length_redirected hp]
  exact (w.appendWhole hpeak).writeHop nh hp

/-- The part of a frame up to the end of its payload written and redirected. -/
theorem Writes.appendTakeRedirected {s t : Batch} {p : Bytes} {peak n : ℕ}
    {seals : List SealCall} {miss : Bool} (w : Writes s t [] peak seals miss) (hpeak : peak ≤ n)
    (nh : Id) (hn : headerSize ≤ n) (hn' : n ≤ p.length) :
    Writes s ((t.append (p.take n)).writeId (s.arena.len + 32) nh) ((redirected p nh).take n) n
      seals miss := by
  have w := (w.appendTake hn' hpeak).writeHop nh (by rw [List.length_take]; omega)
  rwa [← take_redirected nh hn hn'] at w

/-- The miss branch of the primary loop: what was written is rolled back, and the redirected frame
written whole. -/
theorem Writes.primaryMiss {s t : Batch} {p b : Bytes} {peak : ℕ} (w : Writes s t b peak [] false)
    (hpeak : peak ≤ p.length) (hp : headerSize ≤ p.length) (nh : Id) :
    Emits s
      (let u := (t.truncate s.arena.len).countMiss
        let v := (u.append p).writeId (u.arena.len + 32) nh
        v.pushForwarded p u.arena.len (v.arena.len - u.arena.len))
      [.plain p (redirected p nh) true] := by
  have w := w.truncate.countMiss
  have hlen : (t.truncate s.arena.len).countMiss.arena.len = s.arena.len := by
    simpa using w.len_eq
  simp only [hlen]
  exact (w.appendRedirected hpeak nh hp).pushForwarded p

/-- **One primary step** emits the frame redirected to its channel, encrypted if it can be. -/
theorem emits_primaryStep (routes : Table) (session : Option HybridSession) (s : Batch)
    (p : Bytes) : Emits s (primaryStep routes session s p) (primaryEmissions routes session p) := by
  rw [primaryEmissions]
  by_cases hp : p.length < headerSize
  · simp only [primaryStep, HeaderViewRef.new_of_lt hp, primaryEmission, if_pos hp]
    exact ((Writes.refl s).forwardWhole (Nat.zero_le _)).countMiss
  replace hp : headerSize ≤ p.length := not_lt.mp hp
  obtain ⟨v, hv, -, hdst, hfl, hseq, hL⟩ := HeaderViewRef.new_of_le hp
  simp only [primaryStep, hv, hdst, hfl, hseq, hL, primaryEmission, if_neg (not_lt.mpr hp)]
  have w := (Writes.refl s).meter fun m => { m with lookupCalls := m.lookupCalls + 1 }
  rcases routes.lookupSprayPrimary (Packet.dstId p) (Packet.flowLabel p) with _ | nh
  · exact (w.forwardWhole (Nat.zero_le _)).countMiss
  replace w := w.meter fun m => { m with lookupHits := m.lookupHits + 1 }
  have hst : ((s.meter fun m => { m with lookupCalls := m.lookupCalls + 1 }).meter
    fun m => { m with lookupHits := m.lookupHits + 1 }).arena.len = s.arena.len := rfl
  simp only [hst, length_redirected hp nh]
  have hsame := sameFraming_redirected hp nh
  -- what the two branches write first: up to the end of the payload, or the header only
  have wp := fun hle => w.appendTakeRedirected (p := p) (n := headerSize + Packet.payloadLen p)
    (Nat.zero_le _) nh (Nat.le_add_right _ _) hle
  have wh := w.appendTakeRedirected (Nat.zero_le _) nh le_rfl hp
  have hpeak : ∀ {n}, n ≤ p.length → n = ((redirected p nh).take n).length := fun hn => by
    rw [List.length_take, hsame.length_eq, Nat.min_eq_left hn]
  rcases hsame.attempt_cases session with ⟨hskip, ha⟩ | ⟨S, rfl, hpos, hlt, ha⟩ |
    ⟨S, e, rfl, hpos, hle, herr, ha⟩ | ⟨S, ct, tag, rfl, hpos, hle, hok, ha⟩
  · rw [ha]
    rcases Nat.eq_zero_or_pos (Packet.payloadLen p) with h0 | hpos
    · simp only [h0, lt_irrefl, and_false, if_false, decide_false, Nat.add_zero, hp, if_true]
      exact (wh.withPeak (hpeak hp)).pushForwarded p
    · obtain rfl : session = none := hskip.resolve_right hpos.ne'
      by_cases hle : headerSize + Packet.payloadLen p ≤ p.length
      · simp only [hpos, hle, and_self, if_true]
        exact ((wp hle).withPeak (hpeak hle)).pushForwarded p
      · simp only [hpos, hle, false_and, if_false, decide_true]
        exact wh.primaryMiss hp hp nh
  · simp only [ha, hpos, not_le.mpr hlt, false_and, if_false, decide_true]
    exact wh.primaryMiss hp hp nh
  · obtain ⟨t', ht', w'⟩ := hsame.refuse hle (wp hle) herr
    simp only [ha, hpos, hle, and_self, if_true, ht']
    exact w'.primaryMiss hle hp nh
  · obtain ⟨t', ht', w'⟩ := hsame.seal hle (wp hle) hok
      fun m => { m with encryptCount := m.encryptCount + 1 }
    simp only [ha, hpos, hle, and_self, if_true, ht', drop_redirected hp nh (Nat.le_add_right _ _)]
    exact (w'.appendTrailing p).pushEncrypted p

/-! ## The full-spray loop -/

/-- The copy for a channel, or the frame itself. -/
def copyFor (p : Bytes) : Option Id → Bytes
  | some nh => redirected p nh
  | none => p

section CopyFor

variable {p : Bytes} (h : headerSize ≤ p.length) (nh : Option Id)

include h

theorem sameFraming_copyFor : SameFraming p (copyFor p nh) := by
  cases nh with
  | none => exact ⟨rfl, rfl, rfl⟩
  | some nh => exact sameFraming_redirected h nh

theorem drop_copyFor {n : ℕ} (hn : headerSize ≤ n) : (copyFor p nh).drop n = p.drop n := by
  cases nh with
  | none => rfl
  | some nh => exact drop_redirected h nh hn

theorem isRouted_copyFor (routes : Table) :
    isRouted routes (copyFor p nh) = (routes.lookupOrPredict (Packet.srcId p)
      (nh.getD (Packet.dstId p)) (Packet.flowLabel p)).isSome := by
  cases nh with
  | none => rfl
  | some nh =>
    rw [copyFor, isRouted, srcId_redirected h, dstId_redirected h, flowLabel_redirected h]
    rfl

end CopyFor

section Copies

variable {s t : Batch} {p b : Bytes} {peak : ℕ} {seals : List SealCall} {miss : Bool}

theorem Writes.redirectFor (w : Writes s t b peak seals miss) (nh : Option Id)
    (hb : headerSize ≤ b.length) :
    Writes s (redirect nh s.arena.len t) (copyFor b nh) peak seals miss := by
  cases nh with
  | none => exact w
  | some nh => exact w.writeHop nh hb

theorem Writes.countHit (w : Writes s t b peak seals miss) (nh : Option Id) :
    Writes s (countHit nh t) b peak seals miss := by
  cases nh with
  | none => exact w.meter fun m => { m with lookupHits := m.lookupHits + 1 }
  | some nh => exact w

/-- A whole copy written. -/
theorem Writes.appendCopy (w : Writes s t [] peak seals miss) (hpeak : peak ≤ p.length)
    (nh : Option Id) (hp : headerSize ≤ p.length) :
    Writes s (redirect nh s.arena.len (t.append p)) (copyFor p nh) (copyFor p nh).length seals
      miss := by
  rw [(sameFraming_copyFor hp nh).length_eq]
  exact (w.appendWhole hpeak).redirectFor nh hp

/-- A copy written up to the end of its payload. -/
theorem Writes.appendTakeCopy {n : ℕ} (w : Writes s t [] peak seals miss) (hpeak : peak ≤ n)
    (nh : Option Id) (hn : headerSize ≤ n) (hn' : n ≤ p.length) :
    Writes s (redirect nh s.arena.len (t.append (p.take n))) ((copyFor p nh).take n) n seals
      miss := by
  cases nh with
  | none => exact w.appendTake hn' hpeak
  | some nh => exact w.appendTakeRedirected hpeak nh hn hn'

end Copies

/-- **One spray copy** emits the copy for its channel, encrypted if it can be. -/
theorem emits_sprayCopy (routes : Table) (session : Option HybridSession) {v : HeaderViewRef}
    {p : Bytes} (hp : headerSize ≤ p.length) (hsrc : v.srcId = Packet.srcId p)
    (hdst : v.dstId = Packet.dstId p) (hfl : v.flowLabel = Packet.flowLabel p)
    (hseq : v.seqNum = Packet.seqNum p) (hL : v.length.toNat = Packet.payloadLen p)
    (s : Batch) (nh : Option Id) :
    Emits s (sprayCopy routes session v p s nh)
      [emission .spray routes session p (copyFor p nh)] := by
  have hsame := sameFraming_copyFor hp nh
  have hr := isRouted_copyFor hp nh routes
  have hshort : ¬ (copyFor p nh).length < headerSize := by
    rw [hsame.length_eq]
    exact not_lt.mpr hp
  simp only [sprayCopy, hsrc, hdst, hfl, hseq, hL, ← hr, emission, if_neg hshort]
  cases isRouted routes (copyFor p nh) with
  | false =>
    simp only [Bool.false_eq_true, if_false, if_true]
    have h := ((Writes.refl s).appendCopy (Nat.zero_le _) nh hp).pushForwarded p
    exact h.countMiss
  | true =>
    simp only [if_true]
    have w := (Writes.refl s).countHit nh
    have whole := w.appendCopy (Nat.zero_le _) nh hp
    have wp := fun hle => w.appendTakeCopy (p := p) (n := headerSize + Packet.payloadLen p)
      (Nat.zero_le _) nh (Nat.le_add_right _ _) hle
    rcases hsame.attempt_cases session with ⟨hskip, ha⟩ | ⟨S, rfl, hpos, hlt, ha⟩ |
      ⟨S, e, rfl, hpos, hle, herr, ha⟩ | ⟨S, ct, tag, rfl, hpos, hle, hok, ha⟩
    · rw [ha]
      rcases session with _ | S
      · exact whole.pushForwarded p
      · have h0 : Packet.payloadLen p = 0 := hskip.resolve_left (Option.some_ne_none S)
        simp only [h0, lt_irrefl, and_false, if_false, decide_false]
        exact whole.pushForwarded p
    · simp only [ha, hpos, not_le.mpr hlt, false_and, if_false, decide_true]
      have h := whole.pushForwarded p
      exact h.countMiss
    · obtain ⟨t', ht', w'⟩ := hsame.refuse hle (wp hle) herr
      simp only [ha, hpos, hle, and_self, if_true, ht']
      have h := (w'.truncate.appendCopy hle nh hp).pushForwarded p
      exact h.countMiss
    · obtain ⟨t', ht', w'⟩ := hsame.seal hle (wp hle) hok
        fun m => { m with localEncCount := m.localEncCount + 1 }
      simp only [ha, hpos, hle, and_self, if_true, ht', Layout.attempted, Layout.spray,
        hsame.payloadLen_eq, drop_copyFor hp nh (Nat.le_add_right _ _)]
      exact (w'.appendTrailing p).pushEncrypted p

/-- **One full-spray step** emits the copies that `duplicate` makes, each encrypted if it can
be. -/
theorem emits_sprayStep (routes : Table) (session : Option HybridSession) (s : Batch)
    (p : Bytes) : Emits s (sprayStep routes session s p) (sprayEmissions routes session p) := by
  by_cases hp : p.length < headerSize
  · have he : sprayEmissions routes session p = [.plain p p true] := by
      simp only [sprayEmissions, duplicate, HeaderViewRef.new_of_lt hp, List.map_cons, List.map_nil,
        emission, if_pos hp, Layout.spray]
    simp only [sprayStep, HeaderViewRef.new_of_lt hp, he]
    exact ((Writes.refl s).forwardWhole (Nat.zero_le _)).countMiss
  replace hp : headerSize ≤ p.length := not_lt.mp hp
  obtain ⟨v, hv, hsrc, hdst, hfl, hseq, hL⟩ := HeaderViewRef.new_of_le hp
  have hcopy := emits_sprayCopy routes session hp hsrc hdst hfl hseq hL
  simp only [sprayStep, hv, sprayEmissions, duplicate]
  split_ifs with hch
  · exact (hcopy _ none).of_meter
  · have h := Emits.foldl hcopy ((sprayChannels routes v.dstId v.flowLabel).map some)
      ((s.meter fun m => { m with lookupCalls := m.lookupCalls + 1 }).meter
        fun m => { m with lookupHits := m.lookupHits + 1 })
    rw [List.flatMap_map, ← List.map_eq_flatMap] at h
    rw [List.map_map]
    exact h.of_meter.of_meter

end SmipMwp.Datapath
