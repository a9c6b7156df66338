import SmipMwp.Datapath.Paths

/-!
# Encrypted outputs can be decoded

Every output counted in `stats.encrypted` decodes: its header parses to that of the input frame,
except for the destination, and the bytes that the frame's length field covers, with the tag behind
them, open under the output's own sequence number to the frame's payload. The paths put different
bytes behind the tag and rewrite the destination or do not; all of them send a `sealedPacket` of
the frame or of a redirected copy, and that is what decodes (`decodes_sealedPacket`).
-/

namespace SmipMwp.Datapath

open Crypto Routing Wire

/-- The output `out` decodes to the frame `p`: its header is that of `p` up to the destination, and
the session opens ciphertext and tag, found by the length field of `p`, to the payload of `p`. -/
def DecodesTo (S : HybridSession) (out p : Bytes) : Prop :=
  ∃ h h', Header.parse p = .ok h ∧ Header.parse out = .ok h' ∧ { h' with dstId := h.dstId } = h ∧
    headerSize + h.length.toNat + tagSize ≤ out.length ∧
    S.decrypt (slice out headerSize (h.length.toNat + tagSize)) h'.seqNum =
      .ok (slice p headerSize h.length.toNat)

/-- The run sent outputs for `frames` and every one counted as encrypted decodes to its frame. -/
structure BatchRun.Decodes (r : BatchRun) (session : Option HybridSession) (frames : List Bytes) :
    Prop where
  /-- The records are those of the packets sent, in order. -/
  sent : ∃ buf, r.sent = some (buf, r.trace.outputs.map fun o => (o.start, o.len)) ∧
    ∀ o ∈ r.trace.outputs, o.encrypted →
      ∃ S, session = some S ∧ DecodesTo S (slice buf o.start o.len) o.frame
  frame_mem : ∀ o ∈ r.trace.outputs, o.frame ∈ frames
  encrypted_eq : r.trace.outputs.countP (·.encrypted) = r.stats.encrypted

/-! ## Sealed packets decode -/

section Sealed

variable {S : HybridSession} {p q ct : Bytes} {tag : Tag} {trailing : Bytes}

theorem take_sealedPacket (hq : headerSize ≤ q.length) :
    (sealedPacket q ct tag trailing).take headerSize = q.take headerSize := by
  rw [sealedPacket, List.append_assoc, List.append_assoc, List.take_left']
  rw [List.length_take, Nat.min_eq_left hq]

/-- Ciphertext and tag of a sealed packet. -/
theorem slice_sealedPacket (hq : headerSize ≤ q.length) :
    slice (sealedPacket q ct tag trailing) headerSize (ct.length + tagSize) = ct ++ tag.toList := by
  have hlen : (q.take headerSize).length = headerSize := by rw [List.length_take]; omega
  have htag : ct.length + tagSize = (ct ++ tag.toList).length := by
    rw [List.length_append, Vector.length_toList, tagSize]
  rw [sealedPacket, List.append_assoc, List.append_assoc, slice_append_right' hlen.le, hlen,
    Nat.sub_self, slice_zero, ← List.append_assoc, htag, List.take_left]

/-- A sealed form of the frame, or of the frame redirected, decodes to the frame. -/
theorem decodes_sealedPacket (hinv : S.aead.Inverts)
    (hle : headerSize + Packet.payloadLen p ≤ p.length) (hq : q = p ∨ ∃ nh, q = redirected p nh)
    (hok : S.encryptIntoSlice (Packet.payload p) (Packet.seqNum p) = .ok (ct, tag)) :
    DecodesTo S (sealedPacket q ct tag trailing) p := by
  have hp : headerSize ≤ p.length := (Nat.le_add_right _ _).trans hle
  have hqlen : headerSize ≤ q.length := by
    rcases hq with rfl | ⟨nh, rfl⟩
    · exact hp
    · rwa [length_redirected hp]
  have hct := length_ct hle hok
  have hlen : headerSize + Packet.payloadLen p + tagSize ≤
      (sealedPacket q ct tag trailing).length := by
    simp only [sealedPacket, List.length_append, List.length_take, hct, Vector.length_toList,
      tagSize]
    omega
  have hheader : Packet.header (sealedPacket q ct tag trailing) = Packet.header q := by
    rw [← Packet.header_take, take_sealedPacket hqlen, Packet.header_take]
  have hdst : { Packet.header q with dstId := Packet.dstId p } = Packet.header p := by
    rcases hq with rfl | ⟨nh, rfl⟩
    · rfl
    · rw [header_redirected hp]
      rfl
  refine ⟨_, _, Packet.parse_eq hp, Packet.parse_eq (by omega), by rw [hheader]; exact hdst, hlen,
    ?_⟩
  have hseq : (Packet.header q).seqNum = Packet.seqNum p := congrArg Header.seqNum hdst
  rw [hheader, hseq]
  change S.decrypt (slice _ _ (Packet.payloadLen p + tagSize)) _ = .ok (Packet.payload p)
  rw [← hct, slice_sealedPacket hqlen]
  exact S.decrypt_encryptIntoSlice hinv hok

end Sealed

/-! ## Emissions decode -/

/-- The emission is one of a frame of the batch and decodes to it if it is encrypted. -/
def Emission.Decodes (session : Option HybridSession) (frames : List Bytes) (e : Emission) : Prop :=
  e.frame ∈ frames ∧
    (e.encrypted → ∃ S, session = some S ∧ DecodesTo S e.bytes e.frame)

section Emissions

variable {routes : Table} {session : Option HybridSession} {frames : List Bytes} {p : Bytes}
  (hinv : ∀ S, session = some S → S.aead.Inverts) (hp : p ∈ frames)

include hinv hp

/-- A packet made of a copy of the frame decodes, whatever the layout. -/
theorem decodes_emission (l : Layout) {q : Bytes}
    (hq : q = p ∨ headerSize ≤ p.length ∧ ∃ nh, q = redirected p nh) :
    (emission l routes session p q).Decodes session frames := by
  refine ⟨by rwa [emission_frame], fun henc => ?_⟩
  rcases emission_cases l routes session p q with ⟨-, miss, he⟩ | ⟨-, -, he⟩ |
    ⟨-, S, ct, tag, rfl, -, hle, hok, he⟩ <;> rw [he] at henc ⊢
  · cases henc
  · cases henc
  · refine ⟨S, rfl, ?_⟩
    rcases hq with rfl | ⟨hlen, nh, rfl⟩
    · exact decodes_sealedPacket (hinv S rfl) hle (.inl rfl) hok
    · rw [payload_redirected hlen, seqNum_redirected hlen] at hok
      rw [payloadLen_redirected hlen, length_redirected hlen] at hle
      exact decodes_sealedPacket (hinv S rfl) hle (.inr ⟨nh, rfl⟩) hok

theorem decodes_primaryEmission :
    (primaryEmission routes session p).Decodes session frames := by
  rcases primaryEmission_cases routes session p with ⟨-, bytes, miss, -, he⟩ |
    ⟨-, nh, S, ct, tag, rfl, -, hle, hok, he⟩ <;> rw [he]
  · exact ⟨hp, nofun⟩
  · exact ⟨hp, fun _ => ⟨S, rfl, decodes_sealedPacket (hinv S rfl) hle (.inr ⟨nh, rfl⟩) hok⟩⟩

end Emissions

/-- A batch that emits each frame as it is. -/
theorem decodes_of_mem_map {routes : Table} {session : Option HybridSession} {frames : List Bytes}
    (hinv : ∀ S, session = some S → S.aead.Inverts) (l : Layout) {e : Emission}
    (he : e ∈ frames.map fun p => emission l routes session p p) : e.Decodes session frames := by
  obtain ⟨p, hp, rfl⟩ := List.mem_map.mp he
  exact decodes_emission hinv hp l (.inl rfl)

/-! ## Runs decode -/

/-- The record of each emission, and the packet found at it. -/
theorem exists_of_mem_recordsOf {es : List Emission} {o : OutputRecord} (ho : o ∈ recordsOf 0 es) :
    ∃ e ∈ es, o.frame = e.frame ∧ o.encrypted = e.encrypted ∧
      slice (payloadsOf es) o.start o.len = e.bytes := by
  obtain ⟨i, hi, rfl⟩ := List.mem_iff_getElem.mp ho
  have hi' : i < es.length := by
    simp only [recordsOf, List.length_zipWith, length_offsetsOf, min_self] at hi
    exact hi
  have hcut := cut_offsetsFrom [] (es.map Emission.bytes)
  have hget := congrArg (fun l => l[i]?) hcut
  refine ⟨es[i], List.getElem_mem hi', ?_, ?_, ?_⟩
  · simp only [recordsOf, List.getElem_zipWith]
  · simp only [recordsOf, List.getElem_zipWith]
  · have hoff : i < (offsetsOf 0 es).length := by rwa [length_offsetsOf]
    simp only [cut, List.getElem?_map, List.nil_append, List.length_nil] at hget
    rw [List.getElem?_eq_getElem hi', Option.map_some] at hget
    change Option.map _ (offsetsOf 0 es)[i]? = _ at hget
    rw [List.getElem?_eq_getElem hoff, Option.map_some] at hget
    simp only [recordsOf, List.getElem_zipWith]
    exact Option.some.inj hget

theorem map_recordsOf (es : List Emission) :
    (recordsOf 0 es).map (fun o => (o.start, o.len)) = offsetsOf 0 es := by
  rw [recordsOf, List.map_zipWith]
  apply List.ext_getElem
  · simp
  · intro i h₁ h₂
    simp

theorem countP_recordsOf (es : List Emission) :
    (recordsOf 0 es).countP (·.encrypted) = es.countP (·.encrypted) := by
  have hmap : (recordsOf 0 es).map (·.encrypted) = es.map (·.encrypted) := by
    rw [recordsOf, List.map_zipWith]
    apply List.ext_getElem
    · simp
    · intro i h₁ h₂
      simp
  have := congrArg (List.countP id) hmap
  simpa only [List.countP_map, Function.id_comp] using this

/-- A run decodes if what it sends does. -/
theorem BatchRun.Sends.decodes {r : BatchRun} {received cap : ℕ} {es : List Emission}
    {session : Option HybridSession} {frames : List Bytes} (h : r.Sends received cap es)
    (hes : ∀ e ∈ es, e.Decodes session frames) : r.Decodes session frames := by
  refine ⟨⟨payloadsOf es, ?_, ?_⟩, ?_, ?_⟩
  · rw [h.sent, h.outputs, map_recordsOf]
  · intro o ho henc
    rw [h.outputs] at ho
    obtain ⟨e, he, hframe, hencr, hslice⟩ := exists_of_mem_recordsOf ho
    rw [hslice, hframe]
    exact (hes e he).2 (hencr ▸ henc)
  · intro o ho
    rw [h.outputs] at ho
    obtain ⟨e, he, hframe, -, -⟩ := exists_of_mem_recordsOf ho
    rw [hframe]
    exact (hes e he).1
  · rw [h.outputs, countP_recordsOf, h.stats]
    simp only [ForwarderStats.tally, Nat.zero_add]

namespace Forwarder

variable (f : Forwarder) (g : Telemetry) {frames : List Bytes}
  (hinv : ∀ S, f.session = some S → S.aead.Inverts)

include hinv

theorem processSerial_decodes :
    (f.processSerial g frames).Decodes f.session frames := by
  refine (f.sends_processSerial g frames).decodes fun e he => ?_
  rw [flatMap_serialEmissions] at he
  exact decodes_of_mem_map hinv .serial he

theorem processParallel_decodes :
    (f.processParallel g frames).Decodes f.session frames := by
  refine (f.sends_processParallel g frames).decodes fun e he => ?_
  rw [flatMap_ownedEmissions] at he
  exact decodes_of_mem_map hinv .owned he

/-- Every branch of `process_batch_mcr`. -/
theorem processBatchMcr_decodes (threads : ℕ) (hne : frames ≠ []) :
    (f.processBatchMcr g threads frames).Decodes f.session frames := by
  have hempty : ¬ frames.isEmpty = true := by simpa using hne
  rw [processBatchMcr, if_neg hempty]
  split_ifs
  · refine (f.sends_processPrimary g (f.fresh_startMcr frames) frames).decodes fun e he => ?_
    rw [flatMap_primaryEmissions] at he
    obtain ⟨p, hp, rfl⟩ := List.mem_map.mp he
    exact decodes_primaryEmission hinv hp
  · refine (f.sends_processSpraySerial g (f.fresh_startMcr frames) frames).decodes fun e he => ?_
    obtain ⟨p, hp, he⟩ := List.mem_flatMap.mp he
    obtain ⟨q, hq, rfl⟩ := List.mem_map.mp he
    exact decodes_emission hinv hp .spray (eq_or_redirected_of_mem_duplicate hq)
  · refine (f.sends_processSprayParallel g (f.fresh_startMcr frames) frames).decodes fun e he => ?_
    obtain ⟨p, hp, he⟩ := List.mem_flatMap.mp he
    obtain ⟨q, hq, rfl⟩ := List.mem_map.mp he
    exact decodes_emission hinv hp .owned (eq_or_redirected_of_mem_duplicate hq)

end Forwarder

/-- **Every encrypted output can be decoded** by a receiver with the same session, on every path of
`process_batch`, `process_batch_mcr` and `process_batch_slices`, if decryption inverts encryption.
On the slice path the input frames are those clamped to the slots. -/
theorem processBatch_decodes (f : Forwarder) (g : Telemetry) (threads : ℕ) (frames : List Bytes)
    (hinv : ∀ S, f.session = some S → S.aead.Inverts) (hne : frames ≠ []) :
    (f.processBatch g threads frames).Decodes f.session frames ∧
    (f.processBatchMcr g threads frames).Decodes f.session frames ∧
    ∀ (ring : SliceRing) (r : BatchRun × SliceRing),
      f.processBatchSlices g ring frames = some r →
        r.1.Decodes f.session (frames.map (List.take ring.slotSize)) := by
  have hempty : ¬ frames.isEmpty = true := by simpa using hne
  have hmcr := f.processBatchMcr_decodes g hinv threads hne
  refine ⟨?_, hmcr, fun ring r hr => ?_⟩
  · rw [Forwarder.processBatch, if_neg hempty]
    split_ifs
    · exact hmcr
    · exact f.processSerial_decodes g hinv
    · exact f.processParallel_decodes g hinv
  · rcases le_or_gt frames.length ring.capacity with hle | hgt
    · obtain ⟨r', hr', h⟩ := f.sends_processBatchSlices g hle hne
      obtain rfl : r' = r := Option.some.inj (hr'.symm.trans hr)
      refine h.decodes fun e he => ?_
      rw [flatMap_serialEmissions] at he
      exact decodes_of_mem_map hinv .serial he
    · rw [f.processBatchSlices_eq_none g hgt] at hr
      cases hr

/-- A packet of sixteen zero bytes under the all-zero key and nonce, which is encrypted. -/
theorem processBatch_decodes_zeroPacket :
    ((zeroForwarder [] false "primary").processBatch {} 1 [zeroPacket [7]]).Decodes (some .zero)
        [zeroPacket [7]] ∧
      ((zeroForwarder [] false "primary").processBatch {} 1 [zeroPacket [7]]).stats.encrypted =
        1 := by
  refine ⟨(processBatch_decodes (zeroForwarder [] false "primary") {} 1 [zeroPacket [7]] ?_ ?_).1,
    ?_⟩
  · rintro S hS
    cases hS
    exact Aes256Gcm.inverts_ofStream _ _
  · exact List.cons_ne_nil _ _
  · have h := ((zeroForwarder [] false "primary").sends_processSerial {} [zeroPacket [7]]).stats
    have henc := encrypts_zeroForwarder [] false "primary" [7]
    rw [Forwarder.processBatch, if_neg (by decide), if_neg (by simp), if_pos (.inr le_rfl), h,
      flatMap_serialEmissions]
    simp only [ForwarderStats.tally, List.map_cons, List.map_nil, List.countP_singleton,
      emission_encrypted, Nat.zero_add]
    exact if_pos henc

end SmipMwp.Datapath
