import SmipMwp.Foundations.Words

/-!
# The AEAD session

`HybridSession` seals payloads with AES-256-GCM under a nonce made of a fixed 4-byte prefix and
the big-endian word `nonceXor ^ seq`. The cipher itself comes from the `aes-gcm` crate and is a
parameter: an `Aes256Gcm` is the keyed cipher object with the methods the session calls, and
carries the one fact its in-place interface fixes, that encryption keeps the length of the buffer.
What else a result needs of the cipher it states as a hypothesis.
-/

namespace SmipMwp.Crypto

def tagSize : ℕ := 16

/-- A 12-byte AES-GCM nonce. -/
abbrev Nonce := Vector UInt8 12

/-- A 16-byte AES-GCM tag. -/
abbrev Tag := Vector UInt8 16

inductive SessionError
  | bufferTooSmall
  | payloadTooLarge
  | insufficientCapacity
  | ciphertextTooShort
  | aeadError
  | authenticationFailed
  deriving DecidableEq

/-- The keyed cipher of the `aes-gcm` crate, with empty associated data. The detached form
encrypts the buffer in place and returns the tag; on an error the buffer is as it was. -/
structure Aes256Gcm where
  encryptInPlaceDetached : Nonce → Bytes → Option (Bytes × Tag)
  decrypt : Nonce → Bytes → Option Bytes
  length_encrypt : ∀ nonce buf ct tag, encryptInPlaceDetached nonce buf = some (ct, tag) →
    ct.length = buf.length

/-- Decryption inverts detached encryption, the tag appended to the ciphertext. -/
def Aes256Gcm.Inverts (aead : Aes256Gcm) : Prop :=
  ∀ nonce buf ct tag, aead.encryptInPlaceDetached nonce buf = some (ct, tag) →
    aead.decrypt nonce (ct ++ tag.toList) = some buf

/-- Encryption succeeds up to the crate's per-message limit of `2^36` bytes. -/
def Aes256Gcm.Succeeds (aead : Aes256Gcm) : Prop :=
  ∀ nonce buf, buf.length ≤ 2 ^ 36 → (aead.encryptInPlaceDetached nonce buf).isSome

/-- The bytes combined with a key stream. -/
def xorStream (stream : Bytes) (buf : Bytes) : Bytes := buf.mapIdx fun i b => b ^^^ stream.getD i 0

theorem xorStream_xorStream (stream buf : Bytes) :
    xorStream stream (xorStream stream buf) = buf := by
  apply List.ext_getElem
  · simp [xorStream]
  · intro i h₁ h₂
    simp only [xorStream, List.getElem_mapIdx]
    rw [UInt8.xor_assoc, UInt8.xor_self, UInt8.xor_zero]

/-- The cipher with a fixed key stream and tag. -/
def Aes256Gcm.ofStream (stream : Bytes) (tag : Tag) : Aes256Gcm where
  encryptInPlaceDetached := fun _ buf => some (xorStream stream buf, tag)
  decrypt := fun _ buf => some (xorStream stream (buf.take (buf.length - tagSize)))
  length_encrypt := by
    rintro nonce buf ct tag' h
    cases h
    simp [xorStream]

theorem Aes256Gcm.inverts_ofStream (stream : Bytes) (tag : Tag) :
    (ofStream stream tag).Inverts := by
  rintro nonce buf ct tag' h
  cases h
  simp only [ofStream, List.length_append, Vector.length_toList, tagSize, Nat.add_sub_cancel,
    List.take_left', xorStream_xorStream]

/-- On the all-zero nonce and sixteen zero bytes this is AES-256-GCM under the all-zero key. -/
def Aes256Gcm.zeroKey : Aes256Gcm :=
  ofStream [206, 167, 64, 61, 77, 96, 107, 110, 7, 78, 197, 211, 186, 243, 157, 24]
    #v[208, 209, 200, 167, 153, 153, 107, 240, 38, 91, 152, 181, 212, 138, 185, 25]

structure HybridSession where
  aead : Aes256Gcm
  noncePrefix : Vector UInt8 4
  nonceXor : UInt64

namespace HybridSession

/-- The session of the all-zero key, with the all-zero nonce for sequence number zero. -/
def zero : HybridSession := ⟨.zeroKey, Vector.replicate 4 0, 0⟩

variable (s : HybridSession)

/-- The 4-byte prefix, then the big-endian word `nonceXor ^ seq`. -/
def buildNonce (seq : UInt64) : Nonce :=
  ⟨(s.noncePrefix.toList ++ beBytes 8 (s.nonceXor ^^^ seq).toNat).toArray, by simp⟩

/-- `encrypt_into_slice`: the ciphertext that replaces `payload` in place, and the tag. -/
def encryptIntoSlice (payload : Bytes) (seq : UInt64) : Except SessionError (Bytes × Tag) :=
  if payload.length > 2 ^ 24 then .error .payloadTooLarge
  else
    match s.aead.encryptInPlaceDetached (s.buildNonce seq) payload with
    | some r => .ok r
    | none => .error .authenticationFailed

def decrypt (ciphertext : Bytes) (seq : UInt64) : Except SessionError Bytes :=
  if ciphertext.length < tagSize then .error .ciphertextTooShort
  else
    match s.aead.decrypt (s.buildNonce seq) ciphertext with
    | some r => .ok r
    | none => .error .authenticationFailed

/-- The nonce determines the sequence number. -/
theorem buildNonce_injective : Function.Injective s.buildNonce := by
  intro a b h
  have h' : s.noncePrefix.toList ++ beBytes 8 (s.nonceXor ^^^ a).toNat =
      s.noncePrefix.toList ++ beBytes 8 (s.nonceXor ^^^ b).toNat := by
    have := congrArg Vector.toList h
    simpa [buildNonce] using this
  have hlt : ∀ w : UInt64, w.toNat < 256 ^ 8 := fun w => w.toNat_lt
  have hw := beBytes_injective (hlt _) (hlt _) (List.append_cancel_left h')
  exact (UInt64.xor_right_inj _).mp (UInt64.toNat_inj.mp hw)

/-- What is sealed comes from the cipher. -/
theorem encryptInPlaceDetached_of_ok {payload ct : Bytes} {seq : UInt64} {tag : Tag}
    (h : s.encryptIntoSlice payload seq = .ok (ct, tag)) :
    s.aead.encryptInPlaceDetached (s.buildNonce seq) payload = some (ct, tag) := by
  unfold encryptIntoSlice at h
  split at h
  · cases h
  · split at h
    · cases h
      assumption
    · cases h

theorem length_encryptIntoSlice {payload ct : Bytes} {seq : UInt64} {tag : Tag}
    (h : s.encryptIntoSlice payload seq = .ok (ct, tag)) : ct.length = payload.length :=
  s.aead.length_encrypt _ _ _ _ (s.encryptInPlaceDetached_of_ok h)

/-- A sealed payload opens again under the same sequence number. -/
theorem decrypt_encryptIntoSlice (hinv : s.aead.Inverts) {payload ct : Bytes} {seq : UInt64}
    {tag : Tag} (h : s.encryptIntoSlice payload seq = .ok (ct, tag)) :
    s.decrypt (ct ++ tag.toList) seq = .ok payload := by
  have hlen : ¬ (ct ++ tag.toList).length < tagSize := by simp [tagSize]
  rw [decrypt, if_neg hlen, hinv _ _ _ _ (s.encryptInPlaceDetached_of_ok h)]

/-- A payload of at most `2^16` bytes is always sealed by a cipher that succeeds. -/
theorem encryptIntoSlice_isOk (hs : s.aead.Succeeds) {payload : Bytes} (seq : UInt64)
    (h : payload.length ≤ 2 ^ 16) : ∃ ct tag, s.encryptIntoSlice payload seq = .ok (ct, tag) := by
  obtain ⟨⟨ct, tag⟩, hr⟩ := Option.isSome_iff_exists.mp
    (hs (s.buildNonce seq) payload (h.trans (by norm_num)))
  refine ⟨ct, tag, ?_⟩
  rw [encryptIntoSlice, if_neg (by omega), hr]

end HybridSession

end SmipMwp.Crypto
