import SmipMwp.Crypto.EntryPoints
import SmipMwp.Crypto.HkdfCache

/-!
# The round trip of a session

Both sides make their session of the same derived material. The nonce is the derived base combined
with the mask and the sequence number (`toList_buildNonce_ofMaterial`), so it tells the sequence
numbers apart, and with an ideal cipher a payload opens under the number it was encrypted under and
under no other (`session_roundTrip`).
-/

namespace SmipMwp.Crypto

/-- The cipher as an ideal AEAD: decryption inverts encryption, and what was produced under one
nonce is accepted under no other. -/
structure Aes256Gcm.Ideal (aead : Aes256Gcm) : Prop where
  inverts : aead.Inverts
  authentic : ∀ nonce nonce' buf ct tag, aead.encryptInPlaceDetached nonce buf = some (ct, tag) →
    (aead.decrypt nonce' (ct ++ tag.toList)).isSome → nonce' = nonce

namespace HybridSession

/-- The session that `HybridSession::new` makes of its material. -/
def ofMaterial (newCipher : Vector UInt8 32 → Aes256Gcm) (m : CacheEntry) : HybridSession where
  aead := newCipher m.key
  noncePrefix := m.noncePrefix
  nonceXor := m.nonceXor

theorem fst_new_eq (hkdf : HkdfSha256) (deriveCacheKey : Bytes → Bytes → UInt64)
    (newCipher : Vector UInt8 32 → Aes256Gcm) (cache : HkdfCache) (secret info : Bytes) :
    (HybridSession.new hkdf deriveCacheKey newCipher cache secret info).1 =
      (sessionMaterial hkdf deriveCacheKey cache secret info).1.map (ofMaterial newCipher) := rfl

/-! ## The nonce -/

/-- The material comes of a nonce base and a mask, which are expanded from the key. -/
theorem exists_nonceBase {hkdf : HkdfSha256} {secret info : Bytes} {m : CacheEntry}
    (hm : deriveSessionMaterial hkdf secret info = .ok m) :
    ∃ (nonceBase : Vector UInt8 12) (maskBytes : Vector UInt8 8),
      hkdf.expand (hkdf.extract none m.key.toList) [110, 111, 110, 99, 101] 12 = some nonceBase ∧
      hkdf.expand (hkdf.extract none m.key.toList) [109, 97, 115, 107] 8 = some maskBytes ∧
      m.noncePrefix = readArray nonceBase.toList 0 4 ∧
      m.nonceXor = UInt64.ofNat (beNat (slice nonceBase.toList 4 8)) ^^^
        UInt64.ofNat (beNat maskBytes.toList) := by
  unfold deriveSessionMaterial at hm
  simp only at hm
  split at hm
  · cases hm
  · split at hm
    · obtain rfl := Except.ok.inj hm
      exact ⟨_, _, ‹_›, ‹_›, rfl, rfl⟩
    · cases hm

/-- The prefix and the word that are combined in advance give the plain construction. -/
theorem toList_buildNonce {s : HybridSession} {nonceBase : Vector UInt8 12} {mask : UInt64}
    (hbase : s.noncePrefix = readArray nonceBase.toList 0 4)
    (hxor : s.nonceXor = UInt64.ofNat (beNat (slice nonceBase.toList 4 8)) ^^^ mask)
    (seq : UInt64) :
    (s.buildNonce seq).toList = List.zipWith (· ^^^ ·) nonceBase.toList
      (List.replicate 4 0 ++ beBytes 8 (mask ^^^ seq).toNat) := by
  set front := slice nonceBase.toList 0 4 with hfront
  set word := slice nonceBase.toList 4 8 with hword
  have hlen : nonceBase.toList.length = 12 := Vector.length_toList
  have hfrontLen : front.length = 4 := length_slice_of_le (by omega)
  have hwordLen : word.length = 8 := length_slice_of_le (by omega)
  have hlt : beNat word < 2 ^ 64 := (beNat_lt word).trans_eq (by rw [hwordLen]; rfl)
  have hsplit : nonceBase.toList = front ++ word := by
    have happend := slice_append_slice nonceBase.toList 0 4 8
    rwa [slice_zero _ (4 + 8), List.take_of_length_le hlen.le, eq_comm] at happend
  have hfront' : (readArray nonceBase.toList 0 4).toList = front := toList_readArray (by omega)
  calc (s.buildNonce seq).toList
      = s.noncePrefix.toList ++ beBytes 8 (s.nonceXor ^^^ seq).toNat := by simp [buildNonce]
    _ = front ++ beBytes 8 (beNat word ^^^ (mask ^^^ seq).toNat) := by
        rw [hbase, hfront', hxor, UInt64.xor_assoc, UInt64.toNat_xor,
          UInt64.toNat_ofNat_of_lt' hlt]
    _ = front ++ List.zipWith (· ^^^ ·) word (beBytes 8 (mask ^^^ seq).toNat) := by
        have hback := beBytes_beNat word
        rw [hwordLen] at hback
        rw [beBytes_xor, hback]
    _ = List.zipWith (· ^^^ ·) front (List.replicate 4 0) ++
          List.zipWith (· ^^^ ·) word (beBytes 8 (mask ^^^ seq).toNat) := by
        rw [← hfrontLen, zipWith_xor_zero]
    _ = List.zipWith (· ^^^ ·) nonceBase.toList
          (List.replicate 4 0 ++ beBytes 8 (mask ^^^ seq).toNat) := by
        rw [hsplit, List.zipWith_append (by rw [hfrontLen, List.length_replicate])]

/-! ## The round trip -/

/-- What is encrypted under a sequence number opens under it, and under no other. -/
theorem decrypt_sealed {s : HybridSession} (hideal : s.aead.Ideal) (hsucc : s.aead.Succeeds)
    {payload : Bytes} (hle : payload.length ≤ 2 ^ 24) (seq seq' : UInt64) :
    ((s.sealed payload seq).bind fun c => s.decrypt c seq') =
      if seq = seq' then .ok payload else .error .authenticationFailed := by
  obtain ⟨⟨ct, tag⟩, hct⟩ := Option.isSome_iff_exists.mp
    (hsucc (s.buildNonce seq) payload (hle.trans (by norm_num)))
  have hsealed : s.sealed payload seq = .ok (ct ++ tag.toList) := by
    rw [sealed, Aes256Gcm.seal, hct, Option.map_some]
  have hlen : ¬ (ct ++ tag.toList).length < tagSize := by simp [tagSize]
  rw [hsealed, Except.bind, decrypt, if_neg hlen]
  split_ifs with hseq
  · rw [← hseq, hideal.inverts _ _ _ _ hct]
  · cases hopen : s.aead.decrypt (s.buildNonce seq') (ct ++ tag.toList) with
    | none => rfl
    | some buf =>
      have hnonce := hideal.authentic _ (s.buildNonce seq') _ _ _ hct (by rw [hopen]; rfl)
      exact absurd (s.buildNonce_injective hnonce).symm hseq

end HybridSession

open HybridSession

/-- What the receiver makes of a payload that the sender encrypts under `seq`, when it decrypts
under `seq'`: the payload if the numbers are the same, and an authentication failure if not. -/
structure SessionRoundTrip (methods : AeadMethods) (sender receiver : HybridSession)
    (payload : Bytes) (seq seq' : UInt64) : Prop where
  owned : ((sender.encrypt methods payload seq).bind fun c => receiver.decrypt c seq') =
    if seq = seq' then .ok payload else .error .authenticationFailed
  inPlace : ((written (sender.encryptInPlace methods payload seq)).bind fun c =>
      written (receiver.decryptInPlace methods c seq')) =
    if seq = seq' then .ok payload else .error .authenticationFailed

theorem sessionRoundTrip_of_ideal {methods : AeadMethods} {s : HybridSession}
    (hideal : s.aead.Ideal) (hsucc : s.aead.Succeeds) (henc : methods.EncryptAlike s.aead)
    (hdec : methods.DecryptAlike s.aead) {payload : Bytes} (hle : payload.length ≤ 2 ^ 24)
    (seq seq' : UInt64) : SessionRoundTrip methods s s payload seq seq' := by
  have hopened := decrypt_sealed hideal hsucc hle seq seq'
  constructor
  case owned => rw [encrypt_eq henc, if_neg (not_lt.mpr hle), hopened]
  case inPlace =>
    rw [written_encryptInPlace henc, if_neg (not_lt.mpr hle)]
    simp only [written_decryptInPlace hdec]
    exact hopened

/-- **The round trip is exact in the sequence number**, between two sessions of the same derived
material: the nonce is the base combined with four zero bytes and the masked number, and no two
numbers share one. -/
theorem session_roundTrip (newCipher : Vector UInt8 32 → Aes256Gcm) {hkdf : HkdfSha256}
    {methods : AeadMethods} {secret info : Bytes} {m : CacheEntry}
    (hm : deriveSessionMaterial hkdf secret info = .ok m) (hideal : (newCipher m.key).Ideal)
    (hsucc : (newCipher m.key).Succeeds) (henc : methods.EncryptAlike (newCipher m.key))
    (hdec : methods.DecryptAlike (newCipher m.key)) :
    (∀ payload : Bytes, payload.length ≤ 2 ^ 24 → ∀ seq seq' : UInt64,
      SessionRoundTrip methods (ofMaterial newCipher m) (ofMaterial newCipher m) payload seq
        seq') ∧
    (∃ (nonceBase : Vector UInt8 12) (maskBytes : Vector UInt8 8),
      hkdf.expand (hkdf.extract none m.key.toList) [110, 111, 110, 99, 101] 12 = some nonceBase ∧
      hkdf.expand (hkdf.extract none m.key.toList) [109, 97, 115, 107] 8 = some maskBytes ∧
      ∀ seq, ((ofMaterial newCipher m).buildNonce seq).toList =
        List.zipWith (· ^^^ ·) nonceBase.toList
          (List.replicate 4 0 ++
            beBytes 8 (UInt64.ofNat (beNat maskBytes.toList) ^^^ seq).toNat)) ∧
    Function.Injective (ofMaterial newCipher m).buildNonce := by
  obtain ⟨nonceBase, maskBytes, hnonce, hmask, hbase, hxor⟩ := exists_nonceBase hm
  refine ⟨fun payload hle seq seq' => ?_, ⟨nonceBase, maskBytes, hnonce, hmask, fun seq => ?_⟩,
    (ofMaterial newCipher m).buildNonce_injective⟩
  · exact sessionRoundTrip_of_ideal hideal hsucc henc hdec hle seq seq'
  · exact toList_buildNonce hbase hxor seq

/-! ## A recorded cipher -/

/-- A tag that is `tag` under `nonce₀`, and that differs from it where the nonce does. -/
def tagUnder (nonce₀ : Nonce) (tag : Tag) (nonce : Nonce) : Tag :=
  Vector.ofFn fun i => tag[i] ^^^ (nonce₀.toList.getD i 0 ^^^ nonce.toList.getD i 0)

theorem tagUnder_injective (nonce₀ : Nonce) (tag : Tag) :
    Function.Injective (tagUnder nonce₀ tag) := by
  intro nonce nonce' h
  refine Vector.ext fun i hi => ?_
  have hget := congrArg (fun v : Tag => v[i]) h
  simpa [tagUnder, hi] using hget

/-- The cipher with a fixed key stream and a tag for each nonce, which it checks. -/
def Aes256Gcm.ofTag (stream : Bytes) (nonce₀ : Nonce) (tag : Tag) : Aes256Gcm where
  encryptInPlaceDetached := fun nonce buf => some (xorStream stream buf, tagUnder nonce₀ tag nonce)
  decrypt := fun nonce buf =>
    if buf.drop (buf.length - tagSize) = (tagUnder nonce₀ tag nonce).toList then
      some (xorStream stream (buf.take (buf.length - tagSize)))
    else none
  length_encrypt := by
    rintro nonce buf ct tag' h
    cases h
    simp [xorStream]

theorem Aes256Gcm.decrypt_ofTag (stream : Bytes) (nonce₀ : Nonce) (tag : Tag) (nonce : Nonce)
    (ct : Bytes) (tag' : Tag) :
    (ofTag stream nonce₀ tag).decrypt nonce (ct ++ tag'.toList) =
      if tag' = tagUnder nonce₀ tag nonce then some (xorStream stream ct) else none := by
  simp only [ofTag, List.length_append, Vector.length_toList, tagSize, Nat.add_sub_cancel,
    List.drop_left', List.take_left', Vector.toList_inj]

theorem Aes256Gcm.ideal_ofTag (stream : Bytes) (nonce₀ : Nonce) (tag : Tag) :
    (ofTag stream nonce₀ tag).Ideal := by
  constructor
  case inverts =>
    rintro nonce buf ct tag' h
    cases h
    rw [decrypt_ofTag, if_pos rfl, xorStream_xorStream]
  case authentic =>
    rintro nonce nonce' buf ct tag' h hopen
    cases h
    rw [decrypt_ofTag] at hopen
    split_ifs at hopen with htag
    · exact (tagUnder_injective nonce₀ tag htag).symm
    · cases hopen

/-- On the bytes of "hello", under the nonce of sequence number 1, this is AES-256-GCM under the key
that `replay42` expands for the info "a". -/
def Aes256Gcm.hello42 : Aes256Gcm :=
  ofTag (beBytes 16 0xc3689984fe53cfdcb21cefed9b46f08c)
    (readArray (beBytes 12 0xa43704ce51c8b1581d5065b6) 0 12)
    (readArray (beBytes 16 0xa0aae4c81930ac7679f62dcafad5bbc8) 0 16)

/-- The bytes of "hello" under sequence number 1, opened under 1 and under 2. -/
theorem session_roundTrip_hello :
    ∃ m, deriveSessionMaterial replay42 (List.replicate 64 0x42) [97] = .ok m ∧
      SessionRoundTrip .provided (ofMaterial (fun _ => .hello42) m)
        (ofMaterial (fun _ => .hello42) m) [104, 101, 108, 108, 111] 1 1 ∧
      SessionRoundTrip .provided (ofMaterial (fun _ => .hello42) m)
        (ofMaterial (fun _ => .hello42) m) [104, 101, 108, 108, 111] 1 2 := by
  obtain ⟨m, hm, -⟩ := deriveSessionMaterial_eq_ok replay42 (List.replicate 64 0x42) [97]
  have hsucc : Aes256Gcm.hello42.Succeeds := fun _ _ _ => rfl
  have h := (session_roundTrip (fun _ => .hello42) hm (Aes256Gcm.ideal_ofTag _ _ _) hsucc
    (AeadMethods.encryptAlike_provided _) (AeadMethods.decryptAlike_provided _)).1
    [104, 101, 108, 108, 111] (by decide)
  exact ⟨m, hm, h 1 1, h 1 2⟩

end SmipMwp.Crypto
