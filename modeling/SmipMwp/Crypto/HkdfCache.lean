import SmipMwp.Crypto.Derivation
import SmipMwp.Foundations.Writers
import Mathlib.Data.Fintype.Pigeonhole
import Std.Data.HashMap.Lemmas

/-!
# The HKDF cache

`prederive_session` and `HybridSession::new` share a process-wide cache of session material. Its key
is a 64-bit hash of secret and info, and a hit is taken without comparing them: a call gets the
material of the first call with its cache key (`fst_sessionMaterial_history`). The hash comes from
the `ahash` crate and is a parameter, as are HKDF and the cipher.

The cache is transparent exactly for a secret and info whose cache key was not taken before by
others that derive to something else (`sessionMaterial_eq_iff`).
-/

namespace SmipMwp.Crypto

abbrev HkdfCache := Std.HashMap UInt64 CacheEntry

section

variable (hkdf : HkdfSha256) (deriveCacheKey : Bytes → Bytes → UInt64)

/-- `prederive_session`. -/
def prederiveSession (cache : HkdfCache) (combinedSecret sessionInfo : Bytes) :
    Except SessionError Unit × HkdfCache :=
  if combinedSecret.isEmpty || sessionInfo.isEmpty then (.error .bufferTooSmall, cache)
  else
    let cacheKey := deriveCacheKey combinedSecret sessionInfo
    if cache.contains cacheKey then (.ok (), cache)
    else
      match deriveSessionMaterial hkdf combinedSecret sessionInfo with
      | .ok entry => (.ok (), cache.insert cacheKey entry)
      | .error e => (.error e, cache)

/-- The key, nonce prefix and nonce word that `HybridSession::new` makes the session of: the cached
entry, or a new one, which is then cached. -/
def sessionMaterial (cache : HkdfCache) (combinedSecret sessionInfo : Bytes) :
    Except SessionError CacheEntry × HkdfCache :=
  let cacheKey := deriveCacheKey combinedSecret sessionInfo
  match cache[cacheKey]? with
  | some entry => (.ok entry, cache)
  | none =>
    match deriveSessionMaterial hkdf combinedSecret sessionInfo with
    | .ok entry => (.ok entry, cache.insert cacheKey entry)
    | .error e => (.error e, cache)

/-- `HybridSession::new`; a key of 32 bytes always makes a cipher. -/
def HybridSession.new (newCipher : Vector UInt8 32 → Aes256Gcm) (cache : HkdfCache)
    (combinedSecret sessionInfo : Bytes) : Except SessionError HybridSession × HkdfCache :=
  let (entry, cache) := sessionMaterial hkdf deriveCacheKey cache combinedSecret sessionInfo
  (entry.map fun entry => ⟨newCipher entry.key, entry.noncePrefix, entry.nonceXor⟩, cache)

/-! ## Histories -/

/-- A call that uses the cache. -/
inductive CacheCall
  | prederive (combinedSecret sessionInfo : Bytes)
  | new (combinedSecret sessionInfo : Bytes)

namespace CacheCall

/-- The cache after the call. -/
def step (cache : HkdfCache) : CacheCall → HkdfCache
  | prederive secret info => (prederiveSession hkdf deriveCacheKey cache secret info).2
  | new secret info => (sessionMaterial hkdf deriveCacheKey cache secret info).2

/-- The cache after the calls of a history, empty at its start. -/
def history (calls : List CacheCall) : HkdfCache :=
  calls.foldl (step hkdf deriveCacheKey) {}

/-- The secret and info that the call looks up: a call to prederive does not accept empty ones. -/
def args : CacheCall → Option (Bytes × Bytes)
  | prederive secret info => if secret.isEmpty || info.isEmpty then none else some (secret, info)
  | new secret info => some (secret, info)

/-- The key and the entry that the call caches, if the key is free. -/
def write (call : CacheCall) : Option (UInt64 × CacheEntry) :=
  call.args.bind fun a =>
    match deriveSessionMaterial hkdf a.1 a.2 with
    | .ok entry => some (deriveCacheKey a.1 a.2, entry)
    | .error _ => none

end CacheCall

end

variable {hkdf : HkdfSha256} {deriveCacheKey : Bytes → Bytes → UInt64} {cache : HkdfCache}

/-- A lookup after a free key was taken. -/
theorem getElem?_insert_of_free {k₀ : UInt64} (hfree : cache[k₀]? = none) (m : CacheEntry)
    (k : UInt64) : (cache.insert k₀ m)[k]? = cache[k]?.or (if k₀ = k then some m else none) := by
  rw [Std.HashMap.getElem?_insert]
  by_cases hk : k₀ = k
  · rw [if_pos (beq_iff_eq.mpr hk), if_pos hk, ← hk, hfree, Option.none_or]
  · rw [if_neg (by simpa using hk), if_neg hk, Option.or_none]

/-- A call to `new` gives a key that has no entry its own, and leaves the others alone. -/
theorem getElem?_sessionMaterial (secret info : Bytes) (k : UInt64) :
    (sessionMaterial hkdf deriveCacheKey cache secret info).2[k]? =
      cache[k]?.or (firstWrite (CacheCall.write hkdf deriveCacheKey) [.new secret info] k) := by
  obtain ⟨m, hm, -⟩ := deriveSessionMaterial_eq_ok hkdf secret info
  have hwrite : CacheCall.write hkdf deriveCacheKey (.new secret info) =
      some (deriveCacheKey secret info, m) := by
    simp only [CacheCall.write, CacheCall.args, Option.bind_some, hm]
  rw [firstWrite_singleton, hwrite, Option.bind_some, sessionMaterial]
  cases hfree : cache[deriveCacheKey secret info]? with
  | some entry =>
    simp only
    split_ifs with hk
    · rw [← hk, hfree, Option.some_or]
    · rw [Option.or_none]
  | none =>
    simp only [hm]
    exact getElem?_insert_of_free hfree m k

/-- A call to prederive does to the cache what a call to `new` does, or nothing. -/
theorem snd_prederiveSession (secret info : Bytes) :
    (prederiveSession hkdf deriveCacheKey cache secret info).2 =
      if secret.isEmpty || info.isEmpty then cache
      else (sessionMaterial hkdf deriveCacheKey cache secret info).2 := by
  obtain ⟨m, hm, -⟩ := deriveSessionMaterial_eq_ok hkdf secret info
  unfold prederiveSession sessionMaterial
  split_ifs with hempty
  · rfl
  · cases hfree : cache[deriveCacheKey secret info]? with
    | some entry =>
      have hhit : cache.contains (deriveCacheKey secret info) = true := by
        rw [Std.HashMap.contains_eq_isSome_getElem?, hfree]
        rfl
      simp only [hfree, if_pos hhit]
    | none =>
      have hmiss : ¬ cache.contains (deriveCacheKey secret info) = true := by
        rw [Std.HashMap.contains_eq_isSome_getElem?, hfree]
        exact Bool.false_ne_true
      simp only [hfree, if_neg hmiss, hm]

theorem CacheCall.getElem?_step (call : CacheCall) (k : UInt64) :
    (call.step hkdf deriveCacheKey cache)[k]? =
      cache[k]?.or (firstWrite (CacheCall.write hkdf deriveCacheKey) [call] k) := by
  cases call with
  | prederive secret info =>
    rw [step, snd_prederiveSession]
    split_ifs with hempty
    · rw [firstWrite_singleton, write, args, if_pos hempty, Option.bind_none, Option.bind_none,
        Option.or_none]
    · rw [getElem?_sessionMaterial, firstWrite_singleton, firstWrite_singleton, write, write, args,
        args, if_neg hempty]
  | new secret info => exact getElem?_sessionMaterial secret info k

/-- **The cache after a history** has for each key what the first call for the key derived. -/
theorem getElem?_history (calls : List CacheCall) (k : UInt64) :
    (CacheCall.history hkdf deriveCacheKey calls)[k]? =
      firstWrite (CacheCall.write hkdf deriveCacheKey) calls k := by
  have hget := foldl_eq_firstWrite (CacheCall.write hkdf deriveCacheKey)
    (fun (cache : HkdfCache) k => cache[k]?)
    (fun _ call k => CacheCall.getElem?_step call k) calls {} k
  rwa [Std.HashMap.getElem?_empty, Option.none_or] at hget

/-- **What a call in a history works with**: the entry of the first call with its cache key, or its
own derivation. -/
theorem fst_sessionMaterial_history (hkdf : HkdfSha256) (deriveCacheKey : Bytes → Bytes → UInt64)
    (calls : List CacheCall) (combinedSecret sessionInfo : Bytes) :
    (sessionMaterial hkdf deriveCacheKey (CacheCall.history hkdf deriveCacheKey calls)
        combinedSecret sessionInfo).1 =
      ((firstWrite (CacheCall.write hkdf deriveCacheKey) calls
        (deriveCacheKey combinedSecret sessionInfo)).map .ok).getD
          (deriveSessionMaterial hkdf combinedSecret sessionInfo) := by
  obtain ⟨m, hm, -⟩ := deriveSessionMaterial_eq_ok hkdf combinedSecret sessionInfo
  simp only [sessionMaterial, getElem?_history]
  cases firstWrite (CacheCall.write hkdf deriveCacheKey) calls
      (deriveCacheKey combinedSecret sessionInfo) with
  | some entry => rfl
  | none => simp only [hm, Option.map_none, Option.getD_none]

/-! ## Transparency -/

/-- **The cache is transparent for a call exactly when** the first call of the history with its
cache key, if there is one, derived the same material. -/
theorem sessionMaterial_eq_iff (hkdf : HkdfSha256) (deriveCacheKey : Bytes → Bytes → UInt64)
    (calls : List CacheCall) (combinedSecret sessionInfo : Bytes) :
    (sessionMaterial hkdf deriveCacheKey (CacheCall.history hkdf deriveCacheKey calls)
        combinedSecret sessionInfo).1 = deriveSessionMaterial hkdf combinedSecret sessionInfo ↔
      ∀ entry, firstWrite (CacheCall.write hkdf deriveCacheKey) calls
          (deriveCacheKey combinedSecret sessionInfo) = some entry →
        deriveSessionMaterial hkdf combinedSecret sessionInfo = .ok entry := by
  rw [fst_sessionMaterial_history]
  cases firstWrite (CacheCall.write hkdf deriveCacheKey) calls
      (deriveCacheKey combinedSecret sessionInfo) with
  | some entry => simp [eq_comm]
  | none => simp

/-! ## Two secrets with one cache key -/

/-- There are more secrets than cache keys: where HKDF tells the first `2 ^ 64 + 1` secrets of 32
bytes apart, two of them share a cache key, and the second to come gets the material of the
first. -/
theorem exists_sessionMaterial_ne (hkdf : HkdfSha256) (deriveCacheKey : Bytes → Bytes → UInt64)
    (info : Bytes) (hsep : ∀ m n, m ≤ 2 ^ 64 → n ≤ 2 ^ 64 →
      deriveSessionMaterial hkdf (beBytes 32 m) info =
        deriveSessionMaterial hkdf (beBytes 32 n) info → m = n) :
    ∃ m n, m ≠ n ∧
      deriveCacheKey (beBytes 32 m) info = deriveCacheKey (beBytes 32 n) info ∧
      (sessionMaterial hkdf deriveCacheKey
          (CacheCall.history hkdf deriveCacheKey [.new (beBytes 32 m) info]) (beBytes 32 n)
          info).1 ≠ deriveSessionMaterial hkdf (beBytes 32 n) info := by
  obtain ⟨m, n, hne, hkey⟩ := Fintype.exists_ne_map_eq_of_card_lt
    (fun n : Fin (2 ^ 64 + 1) => (deriveCacheKey (beBytes 32 n) info).toBitVec.toFin)
    (by rw [Fintype.card_fin, Fintype.card_fin]; exact Nat.lt_succ_self _)
  replace hkey : deriveCacheKey (beBytes 32 m) info = deriveCacheKey (beBytes 32 n) info :=
    UInt64.toBitVec_inj.mp (BitVec.eq_of_toFin_eq hkey)
  refine ⟨m, n, fun h => hne (Fin.ext h), hkey, fun heq => ?_⟩
  obtain ⟨entry, hentry, -⟩ := deriveSessionMaterial_eq_ok hkdf (beBytes 32 m) info
  have hfirst : firstWrite (CacheCall.write hkdf deriveCacheKey)
      [.new (beBytes 32 m) info] (deriveCacheKey (beBytes 32 n) info) = some entry := by
    rw [firstWrite_singleton, CacheCall.write, CacheCall.args, Option.bind_some, hentry]
    simp [hkey]
  rw [fst_sessionMaterial_history, hfirst, Option.map_some, Option.getD_some] at heq
  exact hne (Fin.ext (hsep m n (Nat.le_of_lt_succ m.isLt) (Nat.le_of_lt_succ n.isLt)
    (hentry.trans heq)))

/-- A derivation whose key is the secret itself, for secrets of 32 bytes. -/
def HkdfSha256.identity : HkdfSha256 where
  extract _ ikm := readArray ikm 0 32
  expand prk _ n := some (readArray prk.toList 0 n)
  isSome_expand _ _ _ _ := rfl

theorem deriveSessionMaterial_identity_injective {m n : ℕ} (hm : m ≤ 2 ^ 64) (hn : n ≤ 2 ^ 64)
    {info : Bytes} (h : deriveSessionMaterial .identity (beBytes 32 m) info =
      deriveSessionMaterial .identity (beBytes 32 n) info) : m = n := by
  have hkey : ∀ n, readArray (readArray (beBytes 32 n) 0 32).toList 0 32 =
      readArray (beBytes 32 n) 0 32 := fun n => by
    apply Vector.toList_inj.mp
    rw [toList_readArray (by simp), slice_zero, List.take_of_length_le (by simp)]
  have hread : readArray (beBytes 32 m) 0 32 = readArray (beBytes 32 n) 0 32 := by
    simp only [deriveSessionMaterial, HkdfSha256.identity, hkey, Except.ok.injEq,
      CacheEntry.mk.injEq] at h
    exact h.1
  have hbytes := congrArg Vector.toList hread
  rw [toList_readArray (by simp), toList_readArray (by simp), slice_zero, slice_zero,
    List.take_of_length_le (by simp), List.take_of_length_le (by simp)] at hbytes
  exact beBytes_injective (by omega) (by omega) hbytes

/-- **No 64-bit cache key makes the cache transparent**, not even for a derivation that tells all
secrets of 32 bytes apart. -/
theorem not_transparent : ¬ ∃ deriveCacheKey : Bytes → Bytes → UInt64,
    ∀ (calls : List CacheCall) (combinedSecret sessionInfo : Bytes),
      (sessionMaterial .identity deriveCacheKey
          (CacheCall.history .identity deriveCacheKey calls) combinedSecret sessionInfo).1 =
        deriveSessionMaterial .identity combinedSecret sessionInfo := by
  rintro ⟨deriveCacheKey, h⟩
  obtain ⟨m, n, -, -, hne⟩ := exists_sessionMaterial_ne .identity deriveCacheKey [1]
    fun m n hm hn => deriveSessionMaterial_identity_injective hm hn
  exact hne (h _ _ _)

end SmipMwp.Crypto
