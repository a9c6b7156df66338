import SmipMwp.Crypto.Agreement
import SmipMwp.Crypto.RoundTrip

/-!
# Channels between handshakes

The two ends of a handshake make sessions of their secrets. Over any run of handshakes on an open
network, two sessions have one key exactly if they are those of the two ends, and their session
infos agree as far as they are used; then they are the same session, and what one encrypts the other
opens under the sequence number it was encrypted under, and under no other (`channel_opens`).

Each end runs in a process whose HKDF cache went through any history that did not use up its cache
key.
-/

namespace SmipMwp.Crypto

/-- The secrets and infos of two sessions do not collide in their derivations. -/
structure HkdfSha256.SeparatesSessions (hkdf : HkdfSha256) (secret secret' info info' : Bytes) :
    Prop where
  extract : hkdf.extract none secret = hkdf.extract none secret' → secret = secret'
  expand : hkdf.expand (hkdf.extract none secret) (infoSlice info) 32 =
    hkdf.expand (hkdf.extract none secret') (infoSlice info') 32 →
      hkdf.extract none secret = hkdf.extract none secret' ∧ infoSlice info = infoSlice info'

/-- The material depends on the secret and the info string. -/
theorem deriveSessionMaterial_congr (hkdf : HkdfSha256) (secret : Bytes) {info info' : Bytes}
    (h : infoSlice info = infoSlice info') :
    deriveSessionMaterial hkdf secret info = deriveSessionMaterial hkdf secret info' := by
  unfold deriveSessionMaterial
  rw [h]

/-- Keys that do not collide are the same only for one secret and one info string. -/
theorem key_eq_iff {hkdf : HkdfSha256} {secret secret' info info' : Bytes} {m m' : CacheEntry}
    (hsep : hkdf.SeparatesSessions secret secret' info info')
    (hm : deriveSessionMaterial hkdf secret info = .ok m)
    (hm' : deriveSessionMaterial hkdf secret' info' = .ok m') :
    m.key = m'.key ↔ secret = secret' ∧ infoSlice info = infoSlice info' := by
  obtain ⟨m₁, hm₁, hkey⟩ := deriveSessionMaterial_eq_ok hkdf secret info
  obtain ⟨m₁', hm₁', hkey'⟩ := deriveSessionMaterial_eq_ok hkdf secret' info'
  obtain rfl := Except.ok.inj (hm₁.symm.trans hm)
  obtain rfl := Except.ok.inj (hm₁'.symm.trans hm')
  constructor
  · intro h
    obtain ⟨hextract, hinfo⟩ := hsep.expand (by rw [hkey, hkey', h])
    exact ⟨hsep.extract hextract, hinfo⟩
  · rintro ⟨rfl, hinfo⟩
    rw [deriveSessionMaterial_congr hkdf secret hinfo, hm'] at hm
    rw [Except.ok.inj hm]

/-- Then all of the material is the same. -/
theorem material_eq_of_key_eq {hkdf : HkdfSha256} {secret secret' info info' : Bytes}
    {m m' : CacheEntry} (hsep : hkdf.SeparatesSessions secret secret' info info')
    (hm : deriveSessionMaterial hkdf secret info = .ok m)
    (hm' : deriveSessionMaterial hkdf secret' info' = .ok m') (h : m.key = m'.key) : m = m' := by
  obtain ⟨hsecret, hinfo⟩ := (key_eq_iff hsep hm hm').mp h
  rw [hsecret, deriveSessionMaterial_congr hkdf _ hinfo, hm'] at hm
  exact (Except.ok.inj hm).symm

namespace HybridSession

/-- What `t` opens, under the number `seq'`, of the payload that `s` encrypts under `seq`. -/
def opens (s t : HybridSession) (payload : Bytes) (seq seq' : UInt64) :
    Except SessionError Bytes :=
  (appended (s.encryptIntoSlice payload seq)).bind fun c => t.decrypt c seq'

variable {s t : HybridSession} {payload : Bytes}

/-- A session opens its own ciphertexts under the number they were encrypted under. -/
theorem opens_self (hideal : s.aead.Ideal) (hsucc : s.aead.Succeeds)
    (hle : payload.length ≤ 2 ^ 24) (seq seq' : UInt64) :
    s.opens s payload seq seq' =
      if seq = seq' then .ok payload else .error .authenticationFailed := by
  rw [opens, appended_encryptIntoSlice, if_neg (not_lt.mpr hle), decrypt_sealed hideal hsucc hle]

end HybridSession

open HybridSession

/-- The history of the cache did not use up the cache key of the secret and info: its first call
with this key, if there is one, derived the same material. -/
def KeepsApart (hkdf : HkdfSha256) (deriveCacheKey : Bytes → Bytes → UInt64)
    (calls : List CacheCall) (secret info : Bytes) : Prop :=
  ∀ entry, firstWrite (CacheCall.write hkdf deriveCacheKey) calls (deriveCacheKey secret info) =
    some entry → deriveSessionMaterial hkdf secret info = .ok entry

/-- Such a process makes the session of the derived material. -/
theorem KeepsApart.fst_new {hkdf : HkdfSha256} {deriveCacheKey : Bytes → Bytes → UInt64}
    {calls : List CacheCall} {secret info : Bytes} {m : CacheEntry}
    (h : KeepsApart hkdf deriveCacheKey calls secret info)
    (hm : deriveSessionMaterial hkdf secret info = .ok m)
    (newCipher : Vector UInt8 32 → Aes256Gcm) :
    (HybridSession.new hkdf deriveCacheKey newCipher
      (CacheCall.history hkdf deriveCacheKey calls) secret info).1 =
        .ok (ofMaterial newCipher m) := by
  rw [fst_new_eq, (sessionMaterial_eq_iff hkdf deriveCacheKey calls secret info).mpr h, hm]
  rfl

/-! ## Channels -/

section Channels

variable {P : KexPrimitives} {ι : Type*} [DecidableEq ι]

/-- Two completions of a run have one secret exactly if they are the same, or the two ends of one
handshake. -/
theorem secret_eq_iff_of_mem (hcomm : P.Commutes) (hdecaps : P.Decapsulates)
    {net : ι → HybridKEX P} (hfresh : Function.Injective fun i => (net i).x25519Pub)
    {events : List (ι × KexCall P)} (hsep : SeparatesAll P (completed net events))
    {c d : Completion P ι} (hc : c ∈ completed net events) (hd : d ∈ completed net events) :
    c.secret = d.secret ↔ c = d ∨ c.Partners d := by
  by_cases heq : c = d
  · exact iff_of_true (congrArg Completion.secret heq) (.inl heq)
  · have hsymm : Std.Symm fun c d : Completion P ι => c.secret = d.secret ↔ c.Partners d :=
      ⟨fun c d h => by rw [eq_comm, h, Completion.Partners, Completion.Partners, or_comm]⟩
    rw [(pairwise_secret_eq_iff hcomm hdecaps hfresh hsep).forall hc hd heq, or_iff_right heq]

/-- The keys of two completions are the same for the ends of one handshake with one session info. -/
theorem key_eq_iff_of_mem (hcomm : P.Commutes) (hdecaps : P.Decapsulates)
    {net : ι → HybridKEX P} (hfresh : Function.Injective fun i => (net i).x25519Pub)
    {events : List (ι × KexCall P)} (hsepAll : SeparatesAll P (completed net events))
    {c d : Completion P ι} (hc : c ∈ completed net events) (hd : d ∈ completed net events)
    {hkdf : HkdfSha256} {info info' : Bytes}
    (hsep : hkdf.SeparatesSessions c.secret.toList d.secret.toList info info') {m m' : CacheEntry}
    (hm : deriveSessionMaterial hkdf c.secret.toList info = .ok m)
    (hm' : deriveSessionMaterial hkdf d.secret.toList info' = .ok m') :
    m.key = m'.key ↔
      (c = d ∨ c.Partners d) ∧ info.take infoCapacity = info'.take infoCapacity := by
  rw [key_eq_iff hsep hm hm', Vector.toList_inj, infoSlice_eq_iff,
    secret_eq_iff_of_mem hcomm hdecaps hfresh hsepAll hc hd]

/-- **A channel has two ends**: over any run of handshakes, two of those that completed make their
sessions of one key exactly if they are the ends of one handshake, or the same call, and use the
same session info, up to the bytes that are dropped. The sessions are then the same, and what one
encrypts the other opens under the same sequence number, and under no other. -/
theorem channel_opens (hcomm : P.Commutes) (hdecaps : P.Decapsulates)
    {net : ι → HybridKEX P} (hfresh : Function.Injective fun i => (net i).x25519Pub)
    {events : List (ι × KexCall P)} (hsepAll : SeparatesAll P (completed net events))
    {c d : Completion P ι} (hc : c ∈ completed net events) (hd : d ∈ completed net events)
    {hkdf : HkdfSha256} {deriveCacheKey : Bytes → Bytes → UInt64}
    (newCipher : Vector UInt8 32 → Aes256Gcm) {info info' : Bytes} {calls calls' : List CacheCall}
    (happart : KeepsApart hkdf deriveCacheKey calls c.secret.toList info)
    (happart' : KeepsApart hkdf deriveCacheKey calls' d.secret.toList info')
    {m m' : CacheEntry} (hm : deriveSessionMaterial hkdf c.secret.toList info = .ok m)
    (hm' : deriveSessionMaterial hkdf d.secret.toList info' = .ok m')
    (hsep : hkdf.SeparatesSessions c.secret.toList d.secret.toList info info')
    (hideal : (newCipher m.key).Ideal) (hsucc : (newCipher m.key).Succeeds) :
    ∃ S T,
      (HybridSession.new hkdf deriveCacheKey newCipher
        (CacheCall.history hkdf deriveCacheKey calls) c.secret.toList info).1 = .ok S ∧
      (HybridSession.new hkdf deriveCacheKey newCipher
        (CacheCall.history hkdf deriveCacheKey calls') d.secret.toList info').1 = .ok T ∧
      (m.key = m'.key ↔
        (c = d ∨ c.Partners d) ∧ info.take infoCapacity = info'.take infoCapacity) ∧
      (m.key = m'.key → S = T ∧
        ∀ payload : Bytes, payload.length ≤ 2 ^ 24 → ∀ seq seq' : UInt64,
          S.opens T payload seq seq' =
            if seq = seq' then .ok payload else .error .authenticationFailed) := by
  refine ⟨_, _, happart.fst_new hm newCipher, happart'.fst_new hm' newCipher,
    key_eq_iff_of_mem hcomm hdecaps hfresh hsepAll hc hd hsep hm hm', fun hkey => ?_⟩
  obtain rfl := material_eq_of_key_eq hsep hm hm' hkey
  exact ⟨rfl, fun payload hle => opens_self (s := ofMaterial newCipher m) hideal hsucc hle⟩

end Channels

/-! ## The channel of the recorded handshake -/

section Recorded

open HybridKEX (recordedSecret)

/-- HKDF-SHA256 on the recorded secret, and on the session infos "a" and "b". -/
def recordedSessionHkdf : HkdfSha256 :=
  let prk := bytes32 0xd32838aa1eaf6e4409a1cc5a69e37fab2cd395ee83b7772df899c4d04a1edd85
  let keyA := bytes32 0xef78f67782d66a17ff2c9cdd99222636b9ebc777fbac721b143e510d95f40f01
  let keyB := bytes32 0xa49a41d9826926fc22999088dc28922bc307699a3f7f22e3d34800fb21c1689e
  let prkA := bytes32 0xf06f0c97708e87a9fea2f553d5c34283b7bb050a1c6dd4c8085859dc3de726e6
  let prkB := bytes32 0xe094a0684d7baa41ab3d45b5bd26a926e0728d13b1058f785547ae21165bbd92
  .replay
    [((none, recordedSecret.toList), prk), ((none, keyA.toList), prkA),
      ((none, keyB.toList), prkB)]
    [((prk, sessionLabel ++ [97]), keyA.toList), ((prk, sessionLabel ++ [98]), keyB.toList),
      ((prkA, [110, 111, 110, 99, 101]), beBytes 12 0x4c462369915c3c81366cb51c),
      ((prkA, [109, 97, 115, 107]), beBytes 8 0xa5a80322fa88a918),
      ((prkB, [110, 111, 110, 99, 101]), beBytes 12 0xeec302cec1895dc1aea708a5),
      ((prkB, [109, 97, 115, 107]), beBytes 8 0x0b240b04db7b713d)]

/-- On the bytes of "hello", under the nonce of sequence number 1, this is AES-256-GCM under the key
that `recordedSessionHkdf` expands. -/
def Aes256Gcm.recordedHello : Aes256Gcm :=
  ofTag (beBytes 16 0xb04bb966c4c99288df6183b817585703)
    (readArray (beBytes 12 0x4c46236934f43fa3cce41c05) 0 12)
    (readArray (beBytes 16 0xab0c2500125352aa2b73a61169d7a75e) 0 16)

/-- The initiator opens "hello" from the responder if it uses the same session info and sequence
number. With another info it has another key. -/
theorem channel_opens_recorded :
    (∃ S T,
      (HybridSession.new recordedSessionHkdf (fun _ _ => 0) (fun _ => .recordedHello) {}
        recordedSecret.toList [97]).1 = .ok S ∧
      (HybridSession.new recordedSessionHkdf (fun _ _ => 0) (fun _ => .recordedHello) {}
        recordedSecret.toList [97]).1 = .ok T ∧
      S.opens T [104, 101, 108, 108, 111] 1 1 = .ok [104, 101, 108, 108, 111] ∧
      S.opens T [104, 101, 108, 108, 111] 1 2 = .error .authenticationFailed) ∧
    ∃ m m', deriveSessionMaterial recordedSessionHkdf recordedSecret.toList [97] = .ok m ∧
      deriveSessionMaterial recordedSessionHkdf recordedSecret.toList [98] = .ok m' ∧
      m.key ≠ m'.key := by
  obtain ⟨m, hm, -⟩ := deriveSessionMaterial_eq_ok recordedSessionHkdf recordedSecret.toList [97]
  obtain ⟨m', hm', -⟩ := deriveSessionMaterial_eq_ok recordedSessionHkdf recordedSecret.toList [98]
  have happart : ∀ info, KeepsApart recordedSessionHkdf (fun _ _ => 0) []
      recordedSecret.toList info := by
    rintro info entry ⟨⟩
  have hmem : ∀ responds, recordedCompletion responds ∈ completed recordedNet recordedEvents := by
    rw [completed_recorded]
    rintro (_ | _) <;> simp
  refine ⟨?_, m, m', hm, hm', ?_⟩
  · obtain ⟨S, T, hS, hT, hkey, hopens⟩ := channel_opens commutes_recorded decapsulates_recorded
      fresh_recordedNet separatesAll_recorded (hmem true) (hmem false) (fun _ => .recordedHello)
      (happart [97]) (happart [97]) hm hm ⟨fun _ => rfl, fun _ => ⟨rfl, rfl⟩⟩
      (Aes256Gcm.ideal_ofTag _ _ _) (fun _ _ _ => rfl)
    obtain ⟨-, hopen⟩ := hopens (hkey.mpr ⟨.inr partners_recorded, rfl⟩)
    exact ⟨S, T, hS, hT, hopen [104, 101, 108, 108, 111] (by decide) 1 1,
      hopen [104, 101, 108, 108, 111] (by decide) 1 2⟩
  · have hexpand : recordedSessionHkdf.SeparatesSessions recordedSecret.toList
        recordedSecret.toList [97] [98] := ⟨fun _ => rfl, fun h => absurd h (by decide +kernel)⟩
    obtain ⟨-, -, -, -, hkey, -⟩ := channel_opens commutes_recorded decapsulates_recorded
      fresh_recordedNet separatesAll_recorded (hmem true) (hmem false) (fun _ => .recordedHello)
      (happart [97]) (happart [98]) hm hm' hexpand
      (Aes256Gcm.ideal_ofTag _ _ _) (fun _ _ _ => rfl)
    exact fun h => absurd (hkey.mp h).2 (by decide)

end Recorded

end SmipMwp.Crypto
