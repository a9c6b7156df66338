import SmipMwp.Crypto.Session

/-!
# Deriving the material of a session

A session's key is expanded from the shared secret under the info string "label, then session
info", put together in a buffer of 256 bytes; its nonce prefix and nonce word are expanded from the
key. HKDF-SHA256 comes from the `hkdf` crate and is a parameter.

The buffer leaves 237 bytes for the session info and the rest is dropped, so two session infos give
different keys exactly when they differ within their first 237 bytes (`key_ne_iff`).
-/

namespace SmipMwp.Crypto

/-- A pseudo-random key of HKDF-SHA256. -/
abbrev Prk := Vector UInt8 32

/-- HKDF-SHA256: the extraction of a key from keying material, with or without a salt, and the
expansion of a key to `n` bytes, which succeeds up to 255 blocks of 32 bytes. -/
structure HkdfSha256 where
  extract : Option Bytes → Bytes → Prk
  expand : Prk → Bytes → (n : ℕ) → Option (Vector UInt8 n)
  isSome_expand : ∀ prk info n, n ≤ 255 * 32 → (expand prk info n).isSome

/-- HKDF-SHA256 as far as it was recorded: the keys extracted, and the beginnings of the streams
expanded. -/
def HkdfSha256.replay (extracts : List ((Option Bytes × Bytes) × Prk))
    (expands : List ((Prk × Bytes) × Bytes)) : HkdfSha256 where
  extract salt ikm := (extracts.lookup (salt, ikm)).getD (Vector.replicate 32 0)
  expand prk info n := some (readArray ((expands.lookup (prk, info)).getD []) 0 n)
  isSome_expand _ _ _ _ := rfl

/-- The two info strings do not collide: they expand to the same `n` bytes only if they are the
same. -/
def HkdfSha256.SeparatesInfo (hkdf : HkdfSha256) (prk : Prk) (info info' : Bytes) (n : ℕ) : Prop :=
  hkdf.expand prk info n = hkdf.expand prk info' n → info = info'

/-- What the cache keeps of a session. -/
structure CacheEntry where
  key : Vector UInt8 32
  noncePrefix : Vector UInt8 4
  nonceXor : UInt64
  deriving DecidableEq

/-- The bytes of "smip-mwp-session-v1". -/
def sessionLabel : Bytes :=
  [115, 109, 105, 112, 45, 109, 119, 112, 45, 115, 101, 115, 115, 105, 111, 110, 45, 118, 49]

/-- The slice of the 256-byte buffer that holds the label and as much of the session info as
fits. -/
def infoSlice (sessionInfo : Bytes) : Bytes :=
  let info := List.replicate 256 0
  let llen := sessionLabel.length
  let slen := min sessionInfo.length (info.length - llen)
  let info := overwrite info 0 sessionLabel
  let info := overwrite info llen (sessionInfo.take slen)
  info.take (llen + slen)

/-- The bytes of the session info that fit behind the label. -/
def infoCapacity : ℕ := 237

def deriveSessionMaterial (hkdf : HkdfSha256) (combinedSecret sessionInfo : Bytes) :
    Except SessionError CacheEntry :=
  let hk := hkdf.extract none combinedSecret
  match hkdf.expand hk (infoSlice sessionInfo) 32 with
  | none => .error .aeadError
  | some key =>
    let hk2 := hkdf.extract none key.toList
    -- the info strings "nonce" and "mask"
    match hkdf.expand hk2 [110, 111, 110, 99, 101] 12, hkdf.expand hk2 [109, 97, 115, 107] 8 with
    | some nonceBase, some maskBytes =>
      let existing := UInt64.ofNat (beNat (slice nonceBase.toList 4 8))
      let seqMask := UInt64.ofNat (beNat maskBytes.toList)
      .ok
        { key := key
          noncePrefix := readArray nonceBase.toList 0 4
          nonceXor := existing ^^^ seqMask }
    | _, _ => .error .aeadError

/-! ## The info string -/

theorem infoSlice_eq (sessionInfo : Bytes) :
    infoSlice sessionInfo = sessionLabel ++ sessionInfo.take infoCapacity := by
  have hlabel : sessionLabel.length = 19 := rfl
  have hlen : (sessionInfo.take (min sessionInfo.length 237)).length =
      min sessionInfo.length 237 := by
    rw [List.length_take]
    omega
  have hfirst : overwrite (List.replicate 256 0) 0 sessionLabel =
      sessionLabel ++ List.replicate 237 0 := by
    rw [overwrite, List.take_zero, List.nil_append, List.drop_replicate]
    rfl
  have hsecond : overwrite (sessionLabel ++ List.replicate 237 0) 19
      (sessionInfo.take (min sessionInfo.length 237)) = sessionLabel ++
        (sessionInfo.take (min sessionInfo.length 237) ++
          (List.replicate 237 0).drop (min sessionInfo.length 237)) := by
    have hright := overwrite_append_right sessionLabel (List.replicate 237 (0 : UInt8))
      (sessionInfo.take (min sessionInfo.length 237)) 0
    rw [hlabel, Nat.add_zero] at hright
    rw [hright, overwrite, List.take_zero, List.nil_append, Nat.zero_add, hlen]
  simp only [infoSlice, List.length_replicate, hlabel, Nat.reduceSub, hfirst, hsecond]
  rw [← List.append_assoc, List.take_left' (by rw [List.length_append, hlen, hlabel]),
    infoCapacity]
  congr 1
  rw [List.take_eq_take_iff]
  omega

theorem infoSlice_eq_iff {info info' : Bytes} :
    infoSlice info = infoSlice info' ↔ info.take infoCapacity = info'.take infoCapacity := by
  rw [infoSlice_eq, infoSlice_eq, List.append_cancel_left_eq]

/-! ## The key -/

/-- The derivation succeeds, and its key is the expansion of the info string. -/
theorem deriveSessionMaterial_eq_ok (hkdf : HkdfSha256) (combinedSecret sessionInfo : Bytes) :
    ∃ m, deriveSessionMaterial hkdf combinedSecret sessionInfo = .ok m ∧
      hkdf.expand (hkdf.extract none combinedSecret) (infoSlice sessionInfo) 32 = some m.key := by
  obtain ⟨key, hkey⟩ := Option.isSome_iff_exists.mp (hkdf.isSome_expand
    (hkdf.extract none combinedSecret) (infoSlice sessionInfo) 32 (by decide))
  obtain ⟨nonceBase, hnonce⟩ := Option.isSome_iff_exists.mp (hkdf.isSome_expand
    (hkdf.extract none key.toList) [110, 111, 110, 99, 101] 12 (by decide))
  obtain ⟨maskBytes, hmask⟩ := Option.isSome_iff_exists.mp (hkdf.isSome_expand
    (hkdf.extract none key.toList) [109, 97, 115, 107] 8 (by decide))
  simp only [deriveSessionMaterial, hkey, hnonce, hmask]
  exact ⟨_, rfl, rfl⟩

/-- **The keys differ exactly when** the session infos differ within the 237 bytes that fit behind
the label, for every secret, if HKDF-Expand does not collide on the two info strings. -/
theorem key_ne_iff (hkdf : HkdfSha256) (combinedSecret info info' : Bytes)
    (hsep : hkdf.SeparatesInfo (hkdf.extract none combinedSecret) (infoSlice info)
      (infoSlice info') 32) :
    ∃ m m', deriveSessionMaterial hkdf combinedSecret info = .ok m ∧
      deriveSessionMaterial hkdf combinedSecret info' = .ok m' ∧
      (m.key ≠ m'.key ↔ info.take infoCapacity ≠ info'.take infoCapacity) := by
  obtain ⟨m, hm, hkey⟩ := deriveSessionMaterial_eq_ok hkdf combinedSecret info
  obtain ⟨m', hm', hkey'⟩ := deriveSessionMaterial_eq_ok hkdf combinedSecret info'
  refine ⟨m, m', hm, hm', not_congr ?_⟩
  rw [← infoSlice_eq_iff]
  constructor
  · intro heq
    exact hsep (by rw [hkey, hkey', heq])
  · intro heq
    rw [heq, hkey'] at hkey
    exact (Option.some.inj hkey).symm

/-! ## Two infos of one byte, and two of 238 -/

/-- The 32 bytes of a number. -/
def bytes32 (n : ℕ) : Vector UInt8 32 := readArray (beBytes 32 n) 0 32

/-- HKDF-SHA256 on 64 bytes 0x42, with the session infos "a" and "b", and on 32 bytes 0x42 with
"cli-demo". -/
def replay42 : HkdfSha256 :=
  let prk := bytes32 0x55cdd5036603fd201833463c50915066c22d92bf5ec961d79a7580be43e1293c
  let keyA := bytes32 0xb8e61ee619550ca61397ef2053b0b7ec6ddbc2f842dc3382050657e3ad429abc
  let keyB := bytes32 0x7a59481d12f515d63990ca547d438a8d2b69fb7b7b2cdca1ca54b96d67bd02b5
  let prkA := bytes32 0x338c05abf3e12f1909d3a830980d7e0354d25601b3b2f6083c28d9392bd0156f
  let prkB := bytes32 0x18fe35352f01b9673f593e5ac34dfab95df2978ae8e748ede6bf3e1436866629
  let prkShort := bytes32 0xb8f58bb59550f5bd61aa8b38d441bb5b00c05ad8c0fafea9fb82d61e55911e8b
  let keyDemo := bytes32 0xa404a452b1b16a41e513bdfc2152e74d5bef8f09517b6aef6455771cf2729af6
  let prkDemo := bytes32 0xa2eec8801141248fafdaa732f25ea304f3a9907d414e282650e6dc4da43e74cc
  .replay
    [((none, List.replicate 64 0x42), prk), ((none, keyA.toList), prkA),
      ((none, keyB.toList), prkB), ((none, List.replicate 32 0x42), prkShort),
      ((none, keyDemo.toList), prkDemo)]
    [((prk, sessionLabel ++ [97]), keyA.toList), ((prk, sessionLabel ++ [98]), keyB.toList),
      ((prkA, [110, 111, 110, 99, 101]), beBytes 12 0xa43704cecd9f95ccc158d5fa),
      ((prkA, [109, 97, 115, 107]), beBytes 8 0x9c572494dc08b04d),
      ((prkB, [110, 111, 110, 99, 101]), beBytes 12 0x30f6d0c14d67e6f2c3c8176c),
      ((prkB, [109, 97, 115, 107]), beBytes 8 0xad1a0a026081b370),
      ((prkShort, sessionLabel ++ [99, 108, 105, 45, 100, 101, 109, 111]), keyDemo.toList),
      ((prkDemo, [110, 111, 110, 99, 101]), beBytes 12 0x79ca608c03d9aa51a20b77a7),
      ((prkDemo, [109, 97, 115, 107]), beBytes 8 0x32cbc3c775028b0d)]

theorem key_ne_iff_replay42 :
    replay42.SeparatesInfo (replay42.extract none (List.replicate 64 0x42)) (infoSlice [97])
      (infoSlice [98]) 32 ∧
    ∃ m m', deriveSessionMaterial replay42 (List.replicate 64 0x42) [97] = .ok m ∧
      deriveSessionMaterial replay42 (List.replicate 64 0x42) [98] = .ok m' ∧ m.key ≠ m'.key := by
  have hsep : replay42.SeparatesInfo (replay42.extract none (List.replicate 64 0x42))
      (infoSlice [97]) (infoSlice [98]) 32 := fun h => absurd h (by decide +kernel)
  obtain ⟨m, m', hm, hm', hiff⟩ := key_ne_iff replay42 (List.replicate 64 0x42) [97] [98] hsep
  exact ⟨hsep, m, m', hm, hm', hiff.mpr (by decide)⟩

/-- **Infos that differ in their last byte, the 238th, give one key**, whatever HKDF does. -/
theorem keys_not_separate : ∃ info info' : Bytes, info ≠ info' ∧
    ∀ (hkdf : HkdfSha256) (combinedSecret : Bytes),
      deriveSessionMaterial hkdf combinedSecret info =
        deriveSessionMaterial hkdf combinedSecret info' := by
  refine ⟨List.replicate 237 0 ++ [0], List.replicate 237 0 ++ [1], ?_, fun hkdf secret => ?_⟩
  · intro h
    exact absurd (List.append_cancel_left h) (by decide)
  · have hinfo : infoSlice (List.replicate 237 0 ++ [0]) =
        infoSlice (List.replicate 237 0 ++ [1]) := by
      rw [infoSlice_eq_iff, infoCapacity, List.take_left' List.length_replicate,
        List.take_left' List.length_replicate]
    rw [deriveSessionMaterial, deriveSessionMaterial, hinfo]

end SmipMwp.Crypto
