import SmipMwp.Crypto.Session

/-!
# The entry points of a session

Besides `encrypt_into_slice` a session encrypts with `encrypt`, `encrypt_in_place` and `encrypt_to`,
and it decrypts in place. They call other methods of the cipher object than the detached ones, which
are parameters as well.

Where these methods compute one function, the entry points do too, up to the limit for a packet:
`encrypt_to` does not check it (`entryPoints_agree_iff`).
-/

namespace SmipMwp.Crypto

/-- Detached encryption, with the tag appended to the ciphertext. -/
def Aes256Gcm.seal (aead : Aes256Gcm) (nonce : Nonce) (buf : Bytes) : Option Bytes :=
  (aead.encryptInPlaceDetached nonce buf).map fun (ct, tag) => ct ++ tag.toList

/-- The allocating encryption of the `aes-gcm` crate, and its operations on a vector in place, which
leave the vector as it was if they fail. -/
structure AeadMethods where
  encrypt : Aes256Gcm → Nonce → Bytes → Option Bytes
  encryptInPlace : Aes256Gcm → Nonce → Bytes → Option Bytes
  decryptInPlace : Aes256Gcm → Nonce → Bytes → Option Bytes

namespace AeadMethods

/-- The methods as the traits of the crate provide them from the detached ones. -/
def provided : AeadMethods := ⟨Aes256Gcm.seal, Aes256Gcm.seal, Aes256Gcm.decrypt⟩

/-- Allocating, in-place and detached encryption compute the same function. -/
structure EncryptAlike (methods : AeadMethods) (aead : Aes256Gcm) : Prop where
  encrypt_eq : ∀ nonce buf, methods.encrypt aead nonce buf = aead.seal nonce buf
  encryptInPlace_eq : ∀ nonce buf, methods.encryptInPlace aead nonce buf = aead.seal nonce buf

/-- Allocating and in-place decryption compute the same function. -/
def DecryptAlike (methods : AeadMethods) (aead : Aes256Gcm) : Prop :=
  ∀ nonce buf, methods.decryptInPlace aead nonce buf = aead.decrypt nonce buf

theorem encryptAlike_provided (aead : Aes256Gcm) : provided.EncryptAlike aead :=
  ⟨fun _ _ => rfl, fun _ _ => rfl⟩

theorem decryptAlike_provided (aead : Aes256Gcm) : provided.DecryptAlike aead := fun _ _ => rfl

end AeadMethods

namespace HybridSession

section

variable (methods : AeadMethods) (s : HybridSession)

def encrypt (plaintext : Bytes) (seq : UInt64) : Except SessionError Bytes :=
  if plaintext.length > 2 ^ 24 then .error .payloadTooLarge
  else
    match methods.encrypt s.aead (s.buildNonce seq) plaintext with
    | some r => .ok r
    | none => .error .authenticationFailed

/-- `encrypt_in_place`: the result, and the vector after the call. -/
def encryptInPlace (payload : Bytes) (seq : UInt64) : Except SessionError Unit × Bytes :=
  if payload.length > 2 ^ 24 then (.error .payloadTooLarge, payload)
  else
    match methods.encryptInPlace s.aead (s.buildNonce seq) payload with
    | some r => (.ok (), r)
    | none => (.error .authenticationFailed, payload)

/-- `encrypt_to`: the result, and the vector `dst`, of the given capacity, after the call. -/
def encryptTo (dst : Bytes) (capacity : ℕ) (plaintext : Bytes) (seq : UInt64) :
    Except SessionError Unit × Bytes :=
  if capacity < plaintext.length + tagSize then (.error .insufficientCapacity, dst)
  else
    match methods.encryptInPlace s.aead (s.buildNonce seq) plaintext with
    | some r => (.ok (), r)
    | none => (.error .authenticationFailed, plaintext)

/-- `decrypt_in_place`: the result, and the vector after the call. -/
def decryptInPlace (payload : Bytes) (seq : UInt64) : Except SessionError Unit × Bytes :=
  if payload.length < tagSize then (.error .ciphertextTooShort, payload)
  else
    match methods.decryptInPlace s.aead (s.buildNonce seq) payload with
    | some r => (.ok (), r)
    | none => (.error .authenticationFailed, payload)

end

/-- What a call leaves in its vector, if it succeeds. -/
def written (r : Except SessionError Unit × Bytes) : Except SessionError Bytes :=
  r.1.map fun () => r.2

/-- The ciphertext followed by the tag, if detached encryption succeeds. -/
def appended (r : Except SessionError (Bytes × Tag)) : Except SessionError Bytes :=
  r.map fun (ct, tag) => ct ++ tag.toList

/-! ## One function -/

/-- What all the entry points compute within their limits. -/
def sealed (s : HybridSession) (plaintext : Bytes) (seq : UInt64) : Except SessionError Bytes :=
  match s.aead.seal (s.buildNonce seq) plaintext with
  | some r => .ok r
  | none => .error .authenticationFailed

variable {methods : AeadMethods} {s : HybridSession}

theorem sealed_ne_payloadTooLarge (plaintext : Bytes) (seq : UInt64) :
    s.sealed plaintext seq ≠ .error .payloadTooLarge := by
  unfold sealed
  cases s.aead.seal (s.buildNonce seq) plaintext with
  | none => decide
  | some r => exact fun h => nomatch h

theorem encrypt_eq (h : methods.EncryptAlike s.aead) (plaintext : Bytes) (seq : UInt64) :
    s.encrypt methods plaintext seq =
      if plaintext.length > 2 ^ 24 then .error .payloadTooLarge else s.sealed plaintext seq := by
  rw [encrypt, h.encrypt_eq, sealed]

theorem written_encryptInPlace (h : methods.EncryptAlike s.aead) (payload : Bytes) (seq : UInt64) :
    written (s.encryptInPlace methods payload seq) =
      if payload.length > 2 ^ 24 then .error .payloadTooLarge else s.sealed payload seq := by
  rw [encryptInPlace, h.encryptInPlace_eq, sealed]
  split_ifs
  · rfl
  · cases s.aead.seal (s.buildNonce seq) payload <;> rfl

theorem appended_encryptIntoSlice (payload : Bytes) (seq : UInt64) :
    appended (s.encryptIntoSlice payload seq) =
      if payload.length > 2 ^ 24 then .error .payloadTooLarge else s.sealed payload seq := by
  rw [encryptIntoSlice, sealed, Aes256Gcm.seal]
  split_ifs
  · rfl
  · cases s.aead.encryptInPlaceDetached (s.buildNonce seq) payload <;> rfl

/-- `encrypt_to` has no limit but the capacity. -/
theorem written_encryptTo (h : methods.EncryptAlike s.aead) {plaintext : Bytes} {capacity : ℕ}
    (hcap : plaintext.length + tagSize ≤ capacity) (dst : Bytes) (seq : UInt64) :
    written (s.encryptTo methods dst capacity plaintext seq) = s.sealed plaintext seq := by
  rw [encryptTo, if_neg (not_lt.mpr hcap), h.encryptInPlace_eq, sealed]
  cases s.aead.seal (s.buildNonce seq) plaintext <;> rfl

theorem written_decryptInPlace (h : methods.DecryptAlike s.aead) (payload : Bytes) (seq : UInt64) :
    written (s.decryptInPlace methods payload seq) = s.decrypt payload seq := by
  rw [decryptInPlace, decrypt, h]
  split_ifs
  · rfl
  · cases s.aead.decrypt (s.buildNonce seq) payload <;> rfl

end HybridSession

open HybridSession

/-- The four ways to encrypt all succeed with the same bytes, or all fail with the same error. -/
structure EntryPointsAgree (methods : AeadMethods) (s : HybridSession) (dst : Bytes) (capacity : ℕ)
    (plaintext : Bytes) (seq : UInt64) : Prop where
  inPlace : written (s.encryptInPlace methods plaintext seq) = s.encrypt methods plaintext seq
  intoDst : written (s.encryptTo methods dst capacity plaintext seq) =
    s.encrypt methods plaintext seq
  intoSlice : appended (s.encryptIntoSlice plaintext seq) = s.encrypt methods plaintext seq

theorem entryPoints_agree_of_le {methods : AeadMethods} {s : HybridSession}
    (h : methods.EncryptAlike s.aead) {plaintext : Bytes} {capacity : ℕ}
    (hcap : plaintext.length + tagSize ≤ capacity) (hle : plaintext.length ≤ 2 ^ 24) (dst : Bytes)
    (seq : UInt64) : EntryPointsAgree methods s dst capacity plaintext seq := by
  have hencrypt := encrypt_eq h plaintext seq
  rw [if_neg (not_lt.mpr hle)] at hencrypt
  constructor
  case inPlace => rw [hencrypt, written_encryptInPlace h, if_neg (not_lt.mpr hle)]
  case intoDst => rw [hencrypt, written_encryptTo h hcap]
  case intoSlice => rw [hencrypt, appended_encryptIntoSlice, if_neg (not_lt.mpr hle)]

/-- Above the limit only `encrypt_to` goes on. -/
theorem not_entryPointsAgree {methods : AeadMethods} {s : HybridSession}
    (h : methods.EncryptAlike s.aead) {plaintext : Bytes} {capacity : ℕ}
    (hcap : plaintext.length + tagSize ≤ capacity) (hgt : 2 ^ 24 < plaintext.length) (dst : Bytes)
    (seq : UInt64) : ¬ EntryPointsAgree methods s dst capacity plaintext seq := by
  intro hagree
  have hto := hagree.intoDst
  rw [written_encryptTo h hcap, encrypt_eq h, if_pos hgt] at hto
  exact sealed_ne_payloadTooLarge plaintext seq hto

/-- **The entry points agree** exactly up to the limit for a packet. -/
theorem entryPoints_agree_iff {methods : AeadMethods} {s : HybridSession}
    (h : methods.EncryptAlike s.aead) {plaintext : Bytes} {capacity : ℕ}
    (hcap : plaintext.length + tagSize ≤ capacity) (dst : Bytes) (seq : UInt64) :
    EntryPointsAgree methods s dst capacity plaintext seq ↔ plaintext.length ≤ 2 ^ 24 := by
  constructor
  · intro hagree
    by_contra hgt
    exact not_entryPointsAgree h hcap (not_le.mp hgt) dst seq hagree
  · exact fun hle => entryPoints_agree_of_le h hcap hle dst seq

/-- Sixteen zero bytes under the all-zero key and nonce. -/
theorem entryPoints_agree_zero :
    EntryPointsAgree .provided .zero [] 32 (List.replicate 16 0) 0 :=
  (entryPoints_agree_iff (AeadMethods.encryptAlike_provided _) (by decide) [] 0).mpr (by decide)

/-- One zero byte more than the limit is refused by `encrypt` and encrypted by `encrypt_to`. -/
theorem entryPoints_disagree :
    ¬ ∀ (methods : AeadMethods) (s : HybridSession), methods.EncryptAlike s.aead →
      ∀ (dst : Bytes) (capacity : ℕ) (plaintext : Bytes) (seq : UInt64),
        plaintext.length + tagSize ≤ capacity →
        EntryPointsAgree methods s dst capacity plaintext seq := by
  intro h
  have halike := AeadMethods.encryptAlike_provided HybridSession.zero.aead
  have hlen : (List.replicate (2 ^ 24 + 1) (0 : UInt8)).length = 2 ^ 24 + 1 := List.length_replicate
  have hcap : (List.replicate (2 ^ 24 + 1) (0 : UInt8)).length + tagSize ≤ 2 ^ 24 + 17 := by
    rw [hlen, tagSize]
  exact not_entryPointsAgree halike hcap (by rw [hlen]; exact Nat.lt_succ_self _) [] 0
    (h .provided .zero halike [] _ _ 0 hcap)

end SmipMwp.Crypto
