import SmipMwp.Datapath.Transmission

/-!
# Packets over several hops

A node that receives an encrypted packet encrypts it again: the length field still tells where the
payload ends, so the ciphertext is the next payload, and the tag is among the bytes behind it. The
primary mode and the serial full spray keep these bytes behind their own tag. There the tags stack
up, and the sessions of the hops, the last one first, peel the layers off until the payload is left
(`peelPacket_of_carried`).

The other paths put their tag where the earlier one was, and nothing of that one is left: a packet
with another tag would have become the same (`encrypts_of_retagged`).
-/

namespace SmipMwp.Datapath

open Crypto Routing Wire

/-- The bytes behind the declared payload. -/
def behind (p : Bytes) : Bytes := p.drop (headerSize + Packet.payloadLen p)

/-! ## What a hop makes of a packet -/

/-- A batch of a forwarder. -/
structure Hop where
  forwarder : Forwarder
  threads : ℕ
  frames : List Bytes

namespace Hop

variable (h : Hop)

def emissions : List Emission := h.forwarder.batchEmissions h.threads h.frames

/-- The batch takes a path that keeps the bytes behind the payload. -/
def keepsTrailing : Bool :=
  h.forwarder.mcrEnabled && (h.forwarder.mcrSprayMode != "full" ||
    decide (h.frames.length < parallelBatchThreshold ∨ h.threads ≤ 1))

/-- The packet `q` is an encrypted output of the batch, made of the frame `p`. -/
def Encrypts (p q : Bytes) : Prop := ∃ e ∈ h.emissions, e.frame = p ∧ e.encrypted ∧ e.bytes = q

instance (p q : Bytes) : Decidable (h.Encrypts p q) :=
  inferInstanceAs (Decidable (∃ e ∈ h.emissions, e.frame = p ∧ e.encrypted ∧ e.bytes = q))

/-- The first output of the batch. -/
def output : Bytes := ((h.emissions.map Emission.bytes).head?).getD []

end Hop

/-- The packet `q` is `p`, or `p` redirected, encrypted by the session, with `trailing` behind the
tag. -/
def Seals (S : HybridSession) (p q trailing : Bytes) : Prop :=
  headerSize + Packet.payloadLen p ≤ p.length ∧
    ∃ p' ct tag, (p' = p ∨ ∃ nh, p' = redirected p nh) ∧
      S.encryptIntoSlice (Packet.payload p) (Packet.seqNum p) = .ok (ct, tag) ∧
      q = sealedPacket p' ct tag trailing

section Emissions

variable {routes : Table} {session : Option HybridSession} {frame p q : Bytes}

theorem seals_emission {l : Layout} (hq : q = p ∨ headerSize ≤ p.length ∧ ∃ nh, q = redirected p nh)
    (henc : (emission l routes session frame q).encrypted = true) :
    ∃ S, session = some S ∧ Seals S p (emission l routes session frame q).bytes (l.trailing q) := by
  rcases emission_cases l routes session frame q with ⟨-, miss, he⟩ | ⟨-, -, he⟩ |
    ⟨-, S, ct, tag, rfl, -, hle, hok, he⟩ <;> rw [he] at henc ⊢
  · cases henc
  · cases henc
  · refine ⟨S, rfl, ?_⟩
    rcases hq with rfl | ⟨hp, nh, rfl⟩
    · exact ⟨hle, q, ct, tag, .inl rfl, hok, rfl⟩
    · rw [payload_redirected hp, seqNum_redirected hp] at hok
      rw [payloadLen_redirected hp, length_redirected hp] at hle
      exact ⟨hle, redirected p nh, ct, tag, .inr ⟨nh, rfl⟩, hok, rfl⟩

theorem seals_primaryEmission (henc : (primaryEmission routes session p).encrypted = true) :
    ∃ S, session = some S ∧ Seals S p (primaryEmission routes session p).bytes (behind p) := by
  rcases primaryEmission_cases routes session p with ⟨-, bytes, miss, -, he⟩ |
    ⟨-, nh, S, ct, tag, rfl, -, hle, hok, he⟩ <;> rw [he] at henc ⊢
  · cases henc
  · exact ⟨S, rfl, hle, redirected p nh, ct, tag, .inr ⟨nh, rfl⟩, hok, rfl⟩

/-- The serial full spray keeps what is behind the payload of the frame. -/
theorem trailing_spray (hq : q = p ∨ headerSize ≤ p.length ∧ ∃ nh, q = redirected p nh) :
    Layout.spray.trailing q = behind p := by
  rcases hq with rfl | ⟨hp, nh, rfl⟩
  · rfl
  · change (redirected p nh).drop (headerSize + Packet.payloadLen (redirected p nh)) = behind p
    rw [payloadLen_redirected hp, drop_redirected hp nh (Nat.le_add_right _ _), behind]

end Emissions

/-- An encrypted output is the frame sealed by the session of the forwarder. -/
theorem Hop.Encrypts.seals {h : Hop} {p q : Bytes} (henc : h.Encrypts p q) :
    ∃ S, h.forwarder.session = some S ∧
      ∃ trailing, Seals S p q trailing ∧ (h.keepsTrailing = true → trailing = behind p) := by
  obtain ⟨e, he, rfl, hsealed, rfl⟩ := henc
  unfold Hop.emissions Forwarder.batchEmissions at he
  unfold Hop.keepsTrailing
  split_ifs at he with hmcr hmode hserial hserial
  · rw [flatMap_primaryEmissions] at he
    obtain ⟨p, -, rfl⟩ := List.mem_map.mp he
    obtain ⟨S, hS, hseals⟩ := seals_primaryEmission hsealed
    rw [frame_primaryEmission]
    exact ⟨S, hS, behind p, hseals, fun _ => rfl⟩
  · obtain ⟨p, -, he⟩ := List.mem_flatMap.mp he
    obtain ⟨q, hq, rfl⟩ := List.mem_map.mp he
    obtain ⟨S, hS, hseals⟩ := seals_emission (eq_or_redirected_of_mem_duplicate hq) hsealed
    rw [emission_frame]
    exact ⟨S, hS, _, hseals, fun _ => trailing_spray (eq_or_redirected_of_mem_duplicate hq)⟩
  · obtain ⟨p, -, he⟩ := List.mem_flatMap.mp he
    obtain ⟨q, hq, rfl⟩ := List.mem_map.mp he
    obtain ⟨S, hS, hseals⟩ := seals_emission (eq_or_redirected_of_mem_duplicate hq) hsealed
    rw [emission_frame]
    refine ⟨S, hS, _, hseals, fun hkeeps => ?_⟩
    simp [hserial, not_not.mp hmode] at hkeeps
  · rw [flatMap_serialEmissions] at he
    obtain ⟨p, -, rfl⟩ := List.mem_map.mp he
    obtain ⟨S, hS, hseals⟩ := seals_emission (.inl rfl) hsealed
    rw [emission_frame]
    exact ⟨S, hS, _, hseals, fun hkeeps => by simp [hmcr] at hkeeps⟩
  · rw [flatMap_ownedEmissions] at he
    obtain ⟨p, -, rfl⟩ := List.mem_map.mp he
    obtain ⟨S, hS, hseals⟩ := seals_emission (.inl rfl) hsealed
    rw [emission_frame]
    exact ⟨S, hS, _, hseals, fun hkeeps => by simp [hmcr] at hkeeps⟩

/-! ## The fields of a sealed packet -/

section Sealed

variable {S : HybridSession} {p q ct trailing : Bytes} {tag : Tag}

theorem header_sealedPacket (hp : headerSize ≤ p.length) :
    Packet.header (sealedPacket p ct tag trailing) = Packet.header p := by
  rw [← Packet.header_take, take_sealedPacket hp, Packet.header_take]

/-- The ciphertext is the payload of the sealed packet, and the tag is behind it. -/
theorem payload_sealedPacket (hp : headerSize ≤ p.length) (hct : ct.length = Packet.payloadLen p)
    (tag : Tag) (trailing : Bytes) :
    Packet.payload (sealedPacket p ct tag trailing) = ct ∧
      behind (sealedPacket p ct tag trailing) = tag.toList ++ trailing := by
  have hlen : Packet.payloadLen (sealedPacket p ct tag trailing) = ct.length :=
    (congrArg (fun h : Header => h.length.toNat) (header_sealedPacket hp)).trans hct.symm
  have htake : (p.take headerSize).length = headerSize := by
    rw [List.length_take, Nat.min_eq_left hp]
  have hfront : (p.take headerSize ++ ct).length = headerSize + ct.length := by
    rw [List.length_append, htake]
  rw [Packet.payload, behind, hlen, sealedPacket, List.append_assoc _ tag.toList]
  constructor
  · rw [List.append_assoc, slice_append_right' htake.le, htake, Nat.sub_self, slice_zero,
      List.take_left]
  · rw [← hfront, List.drop_left]

/-- What a receiver finds in a sealed packet. -/
structure Seals.Fields (S : HybridSession) (p q trailing : Bytes) : Prop where
  header : { Packet.header q with dstId := Packet.dstId p } = Packet.header p
  length : q.length + (behind p).length = p.length + tagSize + trailing.length
  sealed : ∃ tag : Tag, behind q = tag.toList ++ trailing ∧
    S.encryptIntoSlice (Packet.payload p) (Packet.seqNum p) = .ok (Packet.payload q, tag)

theorem Seals.fields (h : Seals S p q trailing) : Seals.Fields S p q trailing := by
  obtain ⟨hle, p', ct, tag, hp', hok, rfl⟩ := h
  have hp : headerSize ≤ p.length := (Nat.le_add_right _ _).trans hle
  have hct := length_ct hle hok
  have hfields : headerSize ≤ p'.length ∧ Packet.payloadLen p' = Packet.payloadLen p ∧
      { Packet.header p' with dstId := Packet.dstId p } = Packet.header p := by
    rcases hp' with rfl | ⟨nh, rfl⟩
    · exact ⟨hp, rfl, rfl⟩
    · rw [header_redirected hp]
      exact ⟨(length_redirected hp nh).symm ▸ hp, payloadLen_redirected hp nh, rfl⟩
  obtain ⟨hlen, hpayloadLen, hheader⟩ := hfields
  obtain ⟨hpayload, hbehind⟩ := payload_sealedPacket hlen (hct.trans hpayloadLen.symm) tag
    trailing
  refine ⟨?_, ?_, tag, hbehind, hpayload.symm ▸ hok⟩
  · rw [header_sealedPacket hlen]
    exact hheader
  · rw [sealedPacket, behind]
    simp only [List.length_append, List.length_take, List.length_drop, Vector.length_toList,
      Nat.min_eq_left hlen, hct, tagSize]
    omega

theorem Seals.Fields.payloadLen (h : Seals.Fields S p q trailing) :
    Packet.payloadLen q = Packet.payloadLen p :=
  congrArg (fun h : Header => h.length.toNat) h.header

theorem Seals.Fields.seqNum (h : Seals.Fields S p q trailing) :
    Packet.seqNum q = Packet.seqNum p :=
  congrArg Header.seqNum h.header

end Sealed

/-! ## Peeling -/

/-- The payload under the layers of the sessions, the outermost first: each opens the payload with
the tag that follows it. -/
def peel (seq : UInt64) : List HybridSession → Bytes → Bytes → Except SessionError Bytes
  | [], payload, _ => .ok payload
  | S :: sessions, payload, rest =>
    (S.decrypt (payload ++ rest.take tagSize) seq).bind fun inner =>
      peel seq sessions inner (rest.drop tagSize)

/-- The payload of a packet, under the layers of the sessions. -/
def peelPacket (sessions : List HybridSession) (q : Bytes) : Except SessionError Bytes :=
  peel (Packet.seqNum q) sessions (Packet.payload q) (behind q)

/-- One layer comes off a packet that was sealed with its trailing bytes kept. -/
theorem peelPacket_cons {S : HybridSession} {p q : Bytes} (hinv : S.aead.Inverts)
    (h : Seals.Fields S p q (behind p)) (sessions : List HybridSession) :
    peelPacket (S :: sessions) q = peelPacket sessions p := by
  obtain ⟨tag, hbehind, hok⟩ := h.sealed
  have hopen : S.decrypt (Packet.payload q ++ tag.toList) (Packet.seqNum p) =
      .ok (Packet.payload p) := S.decrypt_encryptIntoSlice hinv hok
  have htake : (tag.toList ++ behind p).take tagSize = tag.toList :=
    List.take_left' Vector.length_toList
  have hdrop : (tag.toList ++ behind p).drop tagSize = behind p :=
    List.drop_left' Vector.length_toList
  rw [peelPacket, peel, hbehind, htake, hdrop, h.seqNum, hopen]
  rfl

/-- The hops carry the packet `p` to `q`, each encrypting it. -/
inductive Carried : List Hop → Bytes → Bytes → Prop
  | nil (p : Bytes) : Carried [] p p
  | cons {h : Hop} {hops : List Hop} {p q r : Bytes} (henc : h.Encrypts p q)
      (hrest : Carried hops q r) : Carried (h :: hops) p r

/-- **Layers come off in reverse order**: a packet that hops encrypt one after another, each keeping
the bytes behind the payload, has the header it started with, except for the destination, and a tag
for every hop; and the sessions of the hops, the last one first, peel it to its payload. -/
theorem peelPacket_of_carried {hops : List Hop} {p q : Bytes} (hcarried : Carried hops p q)
    (hkeeps : ∀ h ∈ hops, h.keepsTrailing = true)
    (hinv : ∀ h ∈ hops, ∀ S, h.forwarder.session = some S → S.aead.Inverts) :
    { Packet.header q with dstId := Packet.dstId p } = Packet.header p ∧
    q.length = p.length + hops.length * tagSize ∧
    ∃ sessions : List HybridSession,
      hops.map (fun h => h.forwarder.session) = sessions.map some ∧
      peelPacket sessions.reverse q = .ok (Packet.payload p) := by
  -- Under more layers, the sessions of the hops leave what the packet had been under these.
  suffices hlayers : { Packet.header q with dstId := Packet.dstId p } = Packet.header p ∧
      q.length = p.length + hops.length * tagSize ∧
      ∃ sessions : List HybridSession,
        hops.map (fun h => h.forwarder.session) = sessions.map some ∧
        ∀ inner, peelPacket (sessions.reverse ++ inner) q = peelPacket inner p by
    obtain ⟨hheader, hlength, sessions, hsessions, hpeel⟩ := hlayers
    refine ⟨hheader, hlength, sessions, hsessions, ?_⟩
    rw [← List.append_nil sessions.reverse, hpeel]
    rfl
  induction hcarried with
  | nil p => exact ⟨rfl, by simp, [], rfl, fun inner => rfl⟩
  | @cons h hops p q r henc hrest ih =>
    obtain ⟨hkeep, hkeeps⟩ := List.forall_mem_cons.mp hkeeps
    obtain ⟨hinvOne, hinv⟩ := List.forall_mem_cons.mp hinv
    obtain ⟨hheader, hlength, sessions, hsessions, hpeel⟩ := ih hkeeps hinv
    obtain ⟨S, hS, trailing, hseals, htrailing⟩ := henc.seals
    obtain rfl := htrailing hkeep
    have hfields := hseals.fields
    refine ⟨?_, ?_, S :: sessions, ?_, fun inner => ?_⟩
    · rw [← hfields.header, ← hheader]
    · have := hfields.length
      rw [hlength, List.length_cons, Nat.succ_mul]
      omega
    · rw [List.map_cons, List.map_cons, hS, hsessions]
    · rw [List.reverse_cons, List.append_assoc, hpeel]
      exact peelPacket_cons (hinvOne S hS) hfields inner

/-- A hop under the full spray. -/
def sprayHop (p : Bytes) : Hop := ⟨zeroForwarder [] true "full", 1, [p]⟩

theorem encrypts_sprayHop_zeroPacket :
    (sprayHop (zeroPacket [7])).Encrypts (zeroPacket [7]) (sprayHop (zeroPacket [7])).output := by
  decide +kernel

theorem encrypts_sprayHop_output : (sprayHop (sprayHop (zeroPacket [7])).output).Encrypts
    (sprayHop (zeroPacket [7])).output (sprayHop (sprayHop (zeroPacket [7])).output).output := by
  decide +kernel

/-- A packet over two hops, and peeled. -/
theorem peelPacket_of_carried_twoHops :
    ∃ sessions : List HybridSession,
      [some HybridSession.zero, some HybridSession.zero] = sessions.map some ∧
      peelPacket sessions.reverse (sprayHop (sprayHop (zeroPacket [7])).output).output =
        .ok (Packet.payload (zeroPacket [7])) := by
  have hcarried : Carried [sprayHop (zeroPacket [7]), sprayHop (sprayHop (zeroPacket [7])).output]
      (zeroPacket [7]) (sprayHop (sprayHop (zeroPacket [7])).output).output :=
    .cons encrypts_sprayHop_zeroPacket (.cons encrypts_sprayHop_output (.nil _))
  have hinv : ∀ h ∈ [sprayHop (zeroPacket [7]), sprayHop (sprayHop (zeroPacket [7])).output],
      ∀ S, h.forwarder.session = some S → S.aead.Inverts := by
    simp only [List.forall_mem_cons, List.not_mem_nil, false_imp_iff, implies_true, and_true]
    constructor
    · rintro S ⟨⟩
      exact Aes256Gcm.inverts_ofStream _ _
    · rintro S ⟨⟩
      exact Aes256Gcm.inverts_ofStream _ _
  exact (peelPacket_of_carried hcarried (by decide) hinv).2.2

/-! ## Lost tags -/

/-- The packets differ in the sixteen bytes behind the payload at most. -/
structure Retagged (p p' : Bytes) : Prop where
  header : p.take headerSize = p'.take headerSize
  payload : Packet.payload p = Packet.payload p'
  rest : (behind p).drop tagSize = (behind p').drop tagSize
  length : p.length = p'.length

theorem retagged_sealedPacket {p ct trailing : Bytes} (hp : headerSize ≤ p.length)
    (hct : ct.length = Packet.payloadLen p) (tag tag' : Tag) :
    Retagged (sealedPacket p ct tag trailing) (sealedPacket p ct tag' trailing) := by
  obtain ⟨hpayload, hbehind⟩ := payload_sealedPacket hp hct tag trailing
  obtain ⟨hpayload', hbehind'⟩ := payload_sealedPacket hp hct tag' trailing
  refine ⟨?_, hpayload.trans hpayload'.symm, ?_, ?_⟩
  · rw [take_sealedPacket hp, take_sealedPacket hp]
  · have hdrop : ∀ t : Tag, (t.toList ++ trailing).drop tagSize = trailing := fun t =>
      List.drop_left' Vector.length_toList
    rw [hbehind, hbehind', hdrop, hdrop]
  · simp only [sealedPacket, List.length_append, Vector.length_toList]

namespace Retagged

variable {p p' : Bytes} (h : Retagged p p')

include h

theorem header_eq : Packet.header p = Packet.header p' := by
  rw [← Packet.header_take, h.header, Packet.header_take]

theorem payloadLen_eq : Packet.payloadLen p = Packet.payloadLen p' :=
  congrArg (fun h : Header => h.length.toNat) h.header_eq

theorem attempt_eq (session : Option HybridSession) : attempt session p = attempt session p' := by
  have hseq : Packet.seqNum p = Packet.seqNum p' := congrArg Header.seqNum h.header_eq
  unfold attempt
  rw [h.payloadLen_eq, h.length, h.payload, hseq]

theorem isRouted_eq (routes : Table) : isRouted routes p = isRouted routes p' := by
  obtain ⟨hsrc, hdst, hflow, -⟩ := Header.mk.inj h.header_eq
  rw [isRouted, isRouted, hsrc, hdst, hflow]

theorem redirected (hp : headerSize ≤ p.length) (nh : Id) :
    Retagged (redirected p nh) (redirected p' nh) := by
  have hp' : headerSize ≤ p'.length := hp.trans_eq h.length
  have hle := Nat.le_add_right headerSize (Packet.payloadLen p)
  have hle' := Nat.le_add_right headerSize (Packet.payloadLen p')
  refine ⟨?_, ?_, ?_, ?_⟩
  · rw [take_redirected nh le_rfl hp, take_redirected nh le_rfl hp', h.header]
  · rw [payload_redirected hp, payload_redirected hp', h.payload]
  · rw [behind, behind, payloadLen_redirected hp, payloadLen_redirected hp',
      drop_redirected hp nh hle, drop_redirected hp' nh hle']
    exact h.rest
  · rw [length_redirected hp, length_redirected hp', h.length]

/-- Where only what follows the tag is kept, the outputs are the same. -/
theorem bytes_eq {l : Layout} (hl : l.trailing p = l.trailing p') {routes : Table}
    {session : Option HybridSession} (frame frame' : Bytes)
    (henc : (emission l routes session frame p).encrypted = true) :
    (emission l routes session frame' p').encrypted = true ∧
      (emission l routes session frame p).bytes = (emission l routes session frame' p').bytes := by
  unfold emission at henc ⊢
  rw [h.length, h.isRouted_eq, h.attempt_eq] at henc ⊢
  split_ifs at henc ⊢
  · cases henc
  · cases hattempt : attempt session p' with
    | sealed call ct tag =>
      refine ⟨rfl, ?_⟩
      change sealedPacket p ct tag (l.trailing p) = sealedPacket p' ct tag (l.trailing p')
      rw [sealedPacket, sealedPacket, h.header, hl]
    | _ =>
      rw [hattempt] at henc
      cases henc
  · cases henc

theorem trailing_owned : Layout.owned.trailing p = Layout.owned.trailing p' := by
  have htrailing : ∀ p, Layout.owned.trailing p = (behind p).drop tagSize := fun p =>
    (List.drop_drop ..).symm
  rw [htrailing, htrailing, h.rest]

/-- Each copy of the one packet is a copy of the other with another tag. -/
theorem exists_mem_duplicate {routes : Table} {q : Bytes} (hq : q ∈ duplicate routes p) :
    ∃ q' ∈ duplicate routes p', Retagged q q' := by
  by_cases hp : p.length < headerSize
  · rw [duplicate_of_lt hp] at hq
    rw [duplicate_of_lt (h.length ▸ hp)]
    obtain rfl := List.mem_singleton.mp hq
    exact ⟨p', List.mem_singleton_self p', h⟩
  · replace hp := not_lt.mp hp
    obtain ⟨-, hdst, hflow, -⟩ := Header.mk.inj h.header_eq
    obtain ⟨v, hv, -, hvdst, hvflow, -⟩ := HeaderViewRef.new_of_le hp
    obtain ⟨v', hv', -, hvdst', hvflow', -⟩ := HeaderViewRef.new_of_le (hp.trans_eq h.length)
    simp only [duplicate, hv, hvdst, hvflow] at hq
    simp only [duplicate, hv', hvdst', hvflow', ← hdst, ← hflow]
    split_ifs at hq ⊢
    · obtain rfl := List.mem_singleton.mp hq
      exact ⟨p', List.mem_singleton_self p', h⟩
    · obtain ⟨nh, hnh, rfl⟩ := List.mem_map.mp hq
      exact ⟨_, List.mem_map_of_mem hnh, h.redirected hp nh⟩

end Retagged

/-- A path that does not keep the bytes behind the payload makes the same of a packet under another
tag. -/
theorem encrypts_of_retagged {f : Forwarder} {threads : ℕ} {frames frames' : List Bytes}
    (hkeeps : (⟨f, threads, frames⟩ : Hop).keepsTrailing = false)
    (hlength : frames'.length = frames.length) {p p' q : Bytes} (hsame : Retagged p p')
    (hp' : p' ∈ frames') (henc : (⟨f, threads, frames⟩ : Hop).Encrypts p q) :
    (⟨f, threads, frames'⟩ : Hop).Encrypts p' q := by
  obtain ⟨e, he, rfl, hsealed, rfl⟩ := henc
  unfold Hop.Encrypts Hop.emissions Forwarder.batchEmissions
  unfold Hop.keepsTrailing at hkeeps
  unfold Hop.emissions Forwarder.batchEmissions at he
  simp only [hlength]
  split_ifs at he ⊢ with hmcr hmode hserial hserial
  · simp [hmcr, hmode] at hkeeps
  · simp [hmcr, hserial] at hkeeps
  · obtain ⟨p, -, he⟩ := List.mem_flatMap.mp he
    obtain ⟨q, hq, rfl⟩ := List.mem_map.mp he
    rw [emission_frame] at hsame
    obtain ⟨q', hq', hcopies⟩ := hsame.exists_mem_duplicate hq
    obtain ⟨hsealed', hbytes⟩ := hcopies.bytes_eq hcopies.trailing_owned p p' hsealed
    exact ⟨_, List.mem_flatMap.mpr ⟨p', hp', List.mem_map_of_mem hq'⟩, emission_frame ..,
      hsealed', hbytes.symm⟩
  · rw [flatMap_serialEmissions] at he ⊢
    obtain ⟨p, -, rfl⟩ := List.mem_map.mp he
    rw [emission_frame] at hsame
    obtain ⟨hsealed', hbytes⟩ := hsame.bytes_eq rfl p p' hsealed
    exact ⟨_, List.mem_map_of_mem hp', emission_frame .., hsealed', hbytes.symm⟩
  · rw [flatMap_ownedEmissions] at he ⊢
    obtain ⟨p, -, rfl⟩ := List.mem_map.mp he
    rw [emission_frame] at hsame
    obtain ⟨hsealed', hbytes⟩ := hsame.bytes_eq hsame.trailing_owned p p' hsealed
    exact ⟨_, List.mem_map_of_mem hp', emission_frame .., hsealed', hbytes.symm⟩

/-- **The tag is lost** where the next hop does not keep the bytes behind the payload: had the
packet come with any other tag, the rest of its way would have brought the same packet. -/
theorem carried_forgets_tag {f : Forwarder} {threads : ℕ} {frames frames' : List Bytes}
    {hops : List Hop} {p ct trailing q : Bytes} {tag : Tag}
    (hkeeps : (⟨f, threads, frames⟩ : Hop).keepsTrailing = false) (hp : headerSize ≤ p.length)
    (hct : ct.length = Packet.payloadLen p)
    (hcarried : Carried (⟨f, threads, frames⟩ :: hops) (sealedPacket p ct tag trailing) q)
    (tag' : Tag) (hlength : frames'.length = frames.length)
    (hmem : sealedPacket p ct tag' trailing ∈ frames') :
    Carried (⟨f, threads, frames'⟩ :: hops) (sealedPacket p ct tag' trailing) q := by
  cases hcarried with
  | cons henc hrest =>
    exact .cons (encrypts_of_retagged hkeeps hlength (retagged_sealedPacket hp hct tag tag') hmem
      henc) hrest

/-- A packet whose payload is already a ciphertext, under a tag. -/
def taggedPacket (tag : Tag) : Bytes := sealedPacket (zeroPacket []) (List.replicate 16 5) tag [7]

/-- A hop on the serial path. -/
def serialHop (p : Bytes) : Hop := ⟨zeroForwarder [] false "primary", 1, [p]⟩

theorem encrypts_serialHop : (serialHop (taggedPacket (Vector.replicate 16 0))).Encrypts
    (taggedPacket (Vector.replicate 16 0))
    (serialHop (taggedPacket (Vector.replicate 16 0))).output := by
  decide +kernel

theorem carried_forgets_tag_zeroPacket :
    Carried [serialHop (taggedPacket (Vector.replicate 16 1))]
      (taggedPacket (Vector.replicate 16 1))
      (serialHop (taggedPacket (Vector.replicate 16 0))).output := by
  have hp : headerSize ≤ (zeroPacket []).length := by
    rw [length_zeroPacket]
    decide
  have hct : (List.replicate 16 (5 : UInt8)).length = Packet.payloadLen (zeroPacket []) := by
    rw [payloadLen_zeroPacket]
    rfl
  exact carried_forgets_tag rfl hp hct (.cons encrypts_serialHop (.nil _)) (Vector.replicate 16 1)
    rfl (List.mem_singleton_self _)

end SmipMwp.Datapath
