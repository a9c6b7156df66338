import SmipMwp.Crypto.Derivation

/-!
# The hybrid key exchange

The initiator sends its X25519 and ML-KEM-768 public keys; the responder answers with its own
X25519 public key and an ML-KEM ciphertext (`respond`), which the initiator opens (`finish`). Each
side hashes the four public values into a transcript, and the session secret comes out of HKDF with
that transcript as salt. X25519, ML-KEM, SHA-256 and HKDF come from their crates and are parameters.

The two sides take the transcript from different places, its own key here and received bytes there.
The secrets agree exactly when both messages arrived unmodified (`handshake_secret_eq_iff`): an
agreement then follows from the two exchanges, and a difference from the hash, since four fields
of fixed lengths can be told apart in their concatenation.
-/

namespace SmipMwp.Crypto

/-- The primitives of the key exchange. A secret is what the crate keeps of it; an encapsulation
draws randomness, and it and the decapsulation can fail. -/
structure KexPrimitives where
  X25519Secret : Type
  publicKey : X25519Secret → Vector UInt8 32
  diffieHellman : X25519Secret → Vector UInt8 32 → Vector UInt8 32
  DecapsulationKey : Type
  encapsulationKey : DecapsulationKey → Vector UInt8 1184
  Randomness : Type
  encapsulate : Vector UInt8 1184 → Randomness → Option (Vector UInt8 1088 × Vector UInt8 32)
  decapsulate : DecapsulationKey → Vector UInt8 1088 → Option (Vector UInt8 32)
  sha256 : Bytes → Vector UInt8 32
  hkdf : HkdfSha256

namespace KexPrimitives

variable (P : KexPrimitives)

/-- The two sides of an X25519 exchange get the same secret. -/
def Commutes : Prop :=
  ∀ s t, P.diffieHellman s (P.publicKey t) = P.diffieHellman t (P.publicKey s)

/-- Decapsulation gives back the secret that was encapsulated to the key. -/
def Decapsulates : Prop :=
  ∀ dk rng ct ss, P.encapsulate (P.encapsulationKey dk) rng = some (ct, ss) →
    P.decapsulate dk ct = some ss

end KexPrimitives

/-- The wire size of the combined public key. -/
abbrev initiatorPubLen : ℕ := 32 + 1184

/-- The wire size of the responder's message. -/
abbrev responderMsgLen : ℕ := 32 + 1088

abbrev sessionSecretLen : ℕ := 64

inductive KexError
  | keyGenFailed
  | badInitiatorPub
  | badResponderMsg
  | encapsulateFailed
  | decapsulateFailed
  | hkdfExpandFailed
  deriving DecidableEq

/-- The bytes of "smip-mwp-kex-v1". -/
def kexLabel : Bytes :=
  [115, 109, 105, 112, 45, 109, 119, 112, 45, 107, 101, 120, 45, 118, 49]

section

variable (P : KexPrimitives)

def buildTranscript (x25519InitPub x25519RespPub mlkemInitPub mlkemCt : Bytes) : Vector UInt8 32 :=
  P.sha256 (x25519InitPub ++ x25519RespPub ++ mlkemInitPub ++ mlkemCt)

/-- The key that the session secret is expanded from. -/
def prkCombined (x25519Ss mlkemSs transcript : Bytes) : Prk :=
  let prkClassical := P.hkdf.extract (some transcript) x25519Ss
  let prkPqc := P.hkdf.extract (some transcript) mlkemSs
  P.hkdf.extract (some transcript) (prkClassical.toList ++ prkPqc.toList)

def deriveSessionSecret (x25519Ss mlkemSs transcript : Bytes) :
    Except KexError (Vector UInt8 sessionSecretLen) :=
  -- `from_prk` takes the key as it is: it has the 32 bytes asked for
  match P.hkdf.expand (prkCombined P x25519Ss mlkemSs transcript) kexLabel sessionSecretLen with
  | none => .error .hkdfExpandFailed
  | some sessionSecret => .ok sessionSecret

/-- The ephemeral keys of one handshake. The X25519 secret is consumed by its first use; the public
keys stay, and belong to the secret ones. -/
structure HybridKEX where
  x25519Priv : Option P.X25519Secret
  x25519Pub : Vector UInt8 32
  mlkemDk : P.DecapsulationKey
  mlkemEk : Vector UInt8 1184
  x25519Pub_eq : ∀ s ∈ x25519Priv, x25519Pub = P.publicKey s
  mlkemEk_eq : mlkemEk = P.encapsulationKey mlkemDk

end

namespace HybridKEX

variable {P : KexPrimitives}

/-- The handshake of two fresh secrets. -/
def new (x25519Priv : P.X25519Secret) (mlkemDk : P.DecapsulationKey) : HybridKEX P where
  x25519Priv := some x25519Priv
  x25519Pub := P.publicKey x25519Priv
  mlkemDk := mlkemDk
  mlkemEk := P.encapsulationKey mlkemDk
  x25519Pub_eq := by
    rintro s hs
    rw [Option.mem_some.mp hs]
  mlkemEk_eq := rfl

def publicKey (kex : HybridKEX P) : Vector UInt8 initiatorPubLen := kex.x25519Pub ++ kex.mlkemEk

/-- The handshake with its X25519 secret taken out. -/
def takePriv (kex : HybridKEX P) : HybridKEX P :=
  { kex with
    x25519Priv := none
    x25519Pub_eq := by simp }

/-- The responder's side. -/
def respond (kex : HybridKEX P) (rng : P.Randomness) (initiatorPub : Bytes) :
    Except KexError (Vector UInt8 responderMsgLen × Vector UInt8 sessionSecretLen) ×
      HybridKEX P :=
  if initiatorPub.length < initiatorPubLen then (.error .badInitiatorPub, kex)
  else
    let peerX25519Bytes := readArray initiatorPub 0 32
    match kex.x25519Priv with
    | none => (.error .keyGenFailed, kex)
    | some x25519Priv =>
      let x25519Ss := P.diffieHellman x25519Priv peerX25519Bytes
      let initMlkemPubBytes := readArray initiatorPub 32 1184
      match P.encapsulate initMlkemPubBytes rng with
      | none => (.error .encapsulateFailed, kex.takePriv)
      | some (ct, mlkemSs) =>
        let msg := kex.x25519Pub ++ ct
        let transcript := buildTranscript P peerX25519Bytes.toList kex.x25519Pub.toList
          initMlkemPubBytes.toList ct.toList
        match deriveSessionSecret P x25519Ss.toList mlkemSs.toList transcript.toList with
        | .error e => (.error e, kex.takePriv)
        | .ok ss => (.ok (msg, ss), kex.takePriv)

/-- The initiator's side. -/
def finish (kex : HybridKEX P) (responderMsg : Bytes) :
    Except KexError (Vector UInt8 sessionSecretLen) × HybridKEX P :=
  if responderMsg.length < responderMsgLen then (.error .badResponderMsg, kex)
  else
    let respX25519Bytes := readArray responderMsg 0 32
    match kex.x25519Priv with
    | none => (.error .keyGenFailed, kex)
    | some x25519Priv =>
      let x25519Ss := P.diffieHellman x25519Priv respX25519Bytes
      let ct := readArray responderMsg 32 1088
      match P.decapsulate kex.mlkemDk ct with
      | none => (.error .decapsulateFailed, kex.takePriv)
      | some mlkemSs =>
        let transcript := buildTranscript P kex.x25519Pub.toList respX25519Bytes.toList
          kex.mlkemEk.toList ct.toList
        (deriveSessionSecret P x25519Ss.toList mlkemSs.toList transcript.toList, kex.takePriv)

end HybridKEX

/-! ## What goes into a secret -/

/-- What one side puts into the session secret: the four fields of its transcript and its two
shared secrets. -/
@[ext]
structure HandshakeInputs where
  x25519InitPub : Vector UInt8 32
  x25519RespPub : Vector UInt8 32
  mlkemInitPub : Vector UInt8 1184
  mlkemCt : Vector UInt8 1088
  x25519Ss : Vector UInt8 32
  mlkemSs : Vector UInt8 32

namespace HandshakeInputs

/-- The bytes that are hashed. -/
def hashed (a : HandshakeInputs) : Bytes :=
  a.x25519InitPub.toList ++ a.x25519RespPub.toList ++ a.mlkemInitPub.toList ++ a.mlkemCt.toList

variable (P : KexPrimitives)

def transcript (a : HandshakeInputs) : Vector UInt8 32 := P.sha256 a.hashed

/-- The keying material of the last extract. -/
def combined (a : HandshakeInputs) : Bytes :=
  (P.hkdf.extract (some (a.transcript P).toList) a.x25519Ss.toList).toList ++
    (P.hkdf.extract (some (a.transcript P).toList) a.mlkemSs.toList).toList

/-- The last extract. -/
def prk (a : HandshakeInputs) : Prk :=
  P.hkdf.extract (some (a.transcript P).toList) (a.combined P)

def sessionSecret (a : HandshakeInputs) : Except KexError (Vector UInt8 sessionSecretLen) :=
  deriveSessionSecret P a.x25519Ss.toList a.mlkemSs.toList (a.transcript P).toList

/-- The four fields of two transcripts are the same. -/
def SameTranscript (a b : HandshakeInputs) : Prop :=
  a.x25519InitPub = b.x25519InitPub ∧ a.x25519RespPub = b.x25519RespPub ∧
    a.mlkemInitPub = b.mlkemInitPub ∧ a.mlkemCt = b.mlkemCt

end HandshakeInputs

/-- The hash, the last extract and the expansion do not collide on what the two sides put in. -/
structure KexPrimitives.Separates (P : KexPrimitives) (a b : HandshakeInputs) : Prop where
  sha256 : P.sha256 a.hashed = P.sha256 b.hashed → a.hashed = b.hashed
  extract : a.prk P = b.prk P →
    (a.transcript P, a.combined P) = (b.transcript P, b.combined P)
  expand : P.hkdf.expand (a.prk P) kexLabel sessionSecretLen =
    P.hkdf.expand (b.prk P) kexLabel sessionSecretLen → a.prk P = b.prk P

namespace HandshakeInputs

variable {P : KexPrimitives} {a b : HandshakeInputs}

/-- Fields of fixed lengths can be told apart in their concatenation. -/
theorem hashed_eq_iff : a.hashed = b.hashed ↔ a.SameTranscript b := by
  constructor
  · intro h
    have hlen : ∀ {n : ℕ} (v w : Vector UInt8 n), v.toList.length = w.toList.length := by
      intro n v w
      rw [Vector.length_toList, Vector.length_toList]
    obtain ⟨h, hct⟩ := List.append_inj' h (hlen _ _)
    obtain ⟨h, hmlkem⟩ := List.append_inj' h (hlen _ _)
    obtain ⟨hinit, hresp⟩ := List.append_inj' h (hlen _ _)
    exact ⟨Vector.toList_inj.mp hinit, Vector.toList_inj.mp hresp, Vector.toList_inj.mp hmlkem,
      Vector.toList_inj.mp hct⟩
  · rintro ⟨hinit, hresp, hmlkem, hct⟩
    rw [hashed, hashed, hinit, hresp, hmlkem, hct]

/-- The session secret is the expansion of the last extract. -/
theorem sessionSecret_eq_ok_iff {ss : Vector UInt8 sessionSecretLen} :
    a.sessionSecret P = .ok ss ↔ P.hkdf.expand (a.prk P) kexLabel sessionSecretLen = some ss := by
  have hprk : prkCombined P a.x25519Ss.toList a.mlkemSs.toList (a.transcript P).toList =
      a.prk P := rfl
  rw [sessionSecret, deriveSessionSecret, hprk]
  cases P.hkdf.expand (a.prk P) kexLabel sessionSecretLen with
  | none => simp only [reduceCtorEq]
  | some sessionSecret => rw [Except.ok.injEq, Option.some.injEq]

/-- 64 bytes are within what HKDF expands to. -/
theorem exists_sessionSecret (a : HandshakeInputs) : ∃ ss, a.sessionSecret P = .ok ss := by
  obtain ⟨ss, hss⟩ := Option.isSome_iff_exists.mp
    (P.hkdf.isSome_expand (a.prk P) kexLabel sessionSecretLen (by decide))
  exact ⟨ss, sessionSecret_eq_ok_iff.mpr hss⟩

/-- One secret comes from one transcript. -/
theorem sameTranscript_of_secret_eq (hsep : P.Separates a b) {ss : Vector UInt8 sessionSecretLen}
    (ha : a.sessionSecret P = .ok ss) (hb : b.sessionSecret P = .ok ss) : a.SameTranscript b := by
  have hprk : a.prk P = b.prk P :=
    hsep.expand
      ((sessionSecret_eq_ok_iff.mp ha).trans (sessionSecret_eq_ok_iff.mp hb).symm)
  have htranscript : a.transcript P = b.transcript P := congrArg Prod.fst (hsep.extract hprk)
  exact hashed_eq_iff.mp (hsep.sha256 htranscript)

end HandshakeInputs

namespace HybridKEX

variable {P : KexPrimitives}

/-- What the responder puts into the secret. -/
def respondInputs (kex : HybridKEX P) (rng : P.Randomness) (initiatorPub : Bytes) :
    Option HandshakeInputs :=
  match kex.x25519Priv, P.encapsulate (readArray initiatorPub 32 1184) rng with
  | some x25519Priv, some (ct, mlkemSs) => some
    { x25519InitPub := readArray initiatorPub 0 32
      x25519RespPub := kex.x25519Pub
      mlkemInitPub := readArray initiatorPub 32 1184
      mlkemCt := ct
      x25519Ss := P.diffieHellman x25519Priv (readArray initiatorPub 0 32)
      mlkemSs := mlkemSs }
  | _, _ => none

/-- What the initiator puts into the secret. -/
def finishInputs (kex : HybridKEX P) (responderMsg : Bytes) : Option HandshakeInputs :=
  match kex.x25519Priv, P.decapsulate kex.mlkemDk (readArray responderMsg 32 1088) with
  | some x25519Priv, some mlkemSs => some
    { x25519InitPub := kex.x25519Pub
      x25519RespPub := readArray responderMsg 0 32
      mlkemInitPub := kex.mlkemEk
      mlkemCt := readArray responderMsg 32 1088
      x25519Ss := P.diffieHellman x25519Priv (readArray responderMsg 0 32)
      mlkemSs := mlkemSs }
  | _, _ => none

/-- `respond` succeeds on a key of full length whose inputs are there and give a secret. -/
theorem respond_eq_ok_iff {kex : HybridKEX P} {rng : P.Randomness} {initiatorPub : Bytes}
    {msg : Vector UInt8 responderMsgLen} {ss : Vector UInt8 sessionSecretLen} :
    (kex.respond rng initiatorPub).1 = .ok (msg, ss) ↔
      initiatorPubLen ≤ initiatorPub.length ∧
        ∃ a ∈ kex.respondInputs rng initiatorPub, a.sessionSecret P = .ok ss ∧
          msg = a.x25519RespPub ++ a.mlkemCt := by
  rw [respond]
  split
  · next hlen => simp [not_le.mpr hlen]
  · next hlen =>
    cases hpriv : kex.x25519Priv with
    | none => simp [respondInputs, hpriv]
    | some x25519Priv =>
      cases hct : P.encapsulate (readArray initiatorPub 32 1184) rng with
      | none => simp [respondInputs, hpriv, hct]
      | some p =>
        obtain ⟨ct, mlkemSs⟩ := p
        simp only [respondInputs, hpriv, hct, Option.mem_some, exists_eq_left',
          HandshakeInputs.sessionSecret, HandshakeInputs.transcript, HandshakeInputs.hashed,
          buildTranscript, not_lt.mp hlen, true_and]
        split
        · next hss => simp only [hss, reduceCtorEq, false_and]
        · next ss' hss =>
          rw [hss, Except.ok.injEq, Except.ok.injEq, Prod.mk.injEq]
          constructor
          · rintro ⟨hmsg, hsecret⟩
            exact ⟨hsecret, hmsg.symm⟩
          · rintro ⟨hsecret, hmsg⟩
            exact ⟨hmsg.symm, hsecret⟩

/-- `finish` succeeds on a message of full length whose inputs are there and give a secret. -/
theorem finish_eq_ok_iff {kex : HybridKEX P} {responderMsg : Bytes}
    {ss : Vector UInt8 sessionSecretLen} :
    (kex.finish responderMsg).1 = .ok ss ↔ responderMsgLen ≤ responderMsg.length ∧
      ∃ b ∈ kex.finishInputs responderMsg, b.sessionSecret P = .ok ss := by
  rw [finish]
  split
  · next hlen => simp [not_le.mpr hlen]
  · next hlen =>
    cases hpriv : kex.x25519Priv with
    | none => simp [finishInputs, hpriv]
    | some x25519Priv =>
      cases hss : P.decapsulate kex.mlkemDk (readArray responderMsg 32 1088) with
      | none => simp [finishInputs, hpriv, hss]
      | some mlkemSs =>
        simp only [finishInputs, hpriv, hss, Option.mem_some, exists_eq_left',
          HandshakeInputs.sessionSecret, HandshakeInputs.transcript, HandshakeInputs.hashed,
          buildTranscript, not_lt.mp hlen, true_and]

/-- The responder's fields come from the bytes received and its own key, its shared secrets from the
two exchanges with them. -/
theorem respondInputs_eq_some {kex : HybridKEX P} {rng : P.Randomness} {initiatorPub : Bytes}
    {a : HandshakeInputs} (h : kex.respondInputs rng initiatorPub = some a) :
    (a.x25519InitPub = readArray initiatorPub 0 32 ∧ a.x25519RespPub = kex.x25519Pub ∧
      a.mlkemInitPub = readArray initiatorPub 32 1184) ∧
    (∃ s ∈ kex.x25519Priv, a.x25519Ss = P.diffieHellman s a.x25519InitPub) ∧
    P.encapsulate a.mlkemInitPub rng = some (a.mlkemCt, a.mlkemSs) := by
  rw [respondInputs] at h
  split at h
  · next s ct mlkemSs hpriv hct =>
    obtain rfl := Option.some.inj h
    exact ⟨⟨rfl, rfl, rfl⟩, ⟨s, hpriv, rfl⟩, hct⟩
  · cases h

/-- The initiator's fields come from its own keys and the bytes received. -/
theorem finishInputs_eq_some {kex : HybridKEX P} {responderMsg : Bytes} {b : HandshakeInputs}
    (h : kex.finishInputs responderMsg = some b) :
    (b.x25519InitPub = kex.x25519Pub ∧ b.x25519RespPub = readArray responderMsg 0 32 ∧
      b.mlkemInitPub = kex.mlkemEk ∧ b.mlkemCt = readArray responderMsg 32 1088) ∧
    (∃ s ∈ kex.x25519Priv, b.x25519Ss = P.diffieHellman s b.x25519RespPub) ∧
    P.decapsulate kex.mlkemDk b.mlkemCt = some b.mlkemSs := by
  rw [finishInputs] at h
  split at h
  · next s mlkemSs hpriv hss =>
    cases h
    exact ⟨⟨rfl, rfl, rfl, rfl⟩, ⟨s, hpriv, rfl⟩, hss⟩
  · cases h

/-! ## Agreement and binding -/

variable {init resp : HybridKEX P} {rng : P.Randomness} {initiatorPub responderMsg : Bytes}
  {a b : HandshakeInputs}

/-- The transcripts are the same exactly when both messages arrived as they were sent. -/
theorem sameTranscript_iff (ha : resp.respondInputs rng initiatorPub = some a)
    (hb : init.finishInputs responderMsg = some b) (hpub : initiatorPubLen ≤ initiatorPub.length)
    (hmsg : responderMsgLen ≤ responderMsg.length) :
    a.SameTranscript b ↔ initiatorPub.take initiatorPubLen = init.publicKey.toList ∧
      responderMsg.take responderMsgLen = (a.x25519RespPub ++ a.mlkemCt).toList := by
  obtain ⟨⟨hainit, -, hamlkem⟩, -⟩ := respondInputs_eq_some ha
  obtain ⟨⟨hbinit, hbresp, hbmlkem, hbct⟩, -⟩ := finishInputs_eq_some hb
  rw [publicKey, Vector.toList_append, Vector.toList_append, take_eq_append_iff hpub,
    take_eq_append_iff hmsg, HandshakeInputs.SameTranscript, hainit, hamlkem, hbinit, hbresp,
    hbmlkem, hbct]
  constructor
  · rintro ⟨hinit, hresp, hmlkem, hct⟩
    exact ⟨⟨hinit, hmlkem⟩, hresp.symm, hct.symm⟩
  · rintro ⟨⟨hinit, hmlkem⟩, hresp, hct⟩
    exact ⟨hinit, hresp.symm, hmlkem, hct.symm⟩

/-- Over one transcript the two exchanges give both sides the same shared secrets. -/
theorem inputs_eq_of_sameTranscript (hcomm : P.Commutes) (hdecaps : P.Decapsulates)
    (ha : resp.respondInputs rng initiatorPub = some a)
    (hb : init.finishInputs responderMsg = some b) (hsame : a.SameTranscript b) : a = b := by
  obtain ⟨⟨-, haresp, -⟩, ⟨t, ht, hat⟩, henc⟩ := respondInputs_eq_some ha
  obtain ⟨⟨hbinit, -, hbmlkem, -⟩, ⟨s, hs, hbs⟩, hdec⟩ := finishInputs_eq_some hb
  obtain ⟨hinit, hresp, hmlkem, hct⟩ := hsame
  have hx25519 : a.x25519Ss = b.x25519Ss := by
    calc a.x25519Ss = P.diffieHellman t (P.publicKey s) := by
          rw [hat, hinit, hbinit, init.x25519Pub_eq s hs]
      _ = P.diffieHellman s (P.publicKey t) := hcomm t s
      _ = b.x25519Ss := by rw [hbs, ← hresp, haresp, resp.x25519Pub_eq t ht]
  have hopened : P.decapsulate init.mlkemDk b.mlkemCt = some a.mlkemSs := by
    rw [hmlkem, hbmlkem, init.mlkemEk_eq] at henc
    rw [← hct]
    exact hdecaps _ _ _ _ henc
  have hmlkemSs : a.mlkemSs = b.mlkemSs := Option.some.inj (hopened.symm.trans hdec)
  exact HandshakeInputs.ext hinit hresp hmlkem hct hx25519 hmlkemSs

/-- What the responder puts in when the public key arrives as it was sent. -/
theorem respondInputs_publicKey {t : P.X25519Secret} {ct : Vector UInt8 1088}
    {mlkemSs : Vector UInt8 32} (ht : resp.x25519Priv = some t)
    (henc : P.encapsulate init.mlkemEk rng = some (ct, mlkemSs)) :
    resp.respondInputs rng init.publicKey.toList =
      some ⟨init.x25519Pub, resp.x25519Pub, init.mlkemEk, ct,
        P.diffieHellman t init.x25519Pub, mlkemSs⟩ := by
  obtain ⟨hx25519, hmlkem⟩ := readArray_append init.x25519Pub init.mlkemEk
  rw [respondInputs, publicKey, Vector.toList_append, ht, hx25519, hmlkem, henc]

/-- What the initiator puts in when the message arrives as it was sent. -/
theorem finishInputs_append {s : P.X25519Secret} {x25519RespPub : Vector UInt8 32}
    {ct : Vector UInt8 1088} {mlkemSs : Vector UInt8 32} (hs : init.x25519Priv = some s)
    (hdec : P.decapsulate init.mlkemDk ct = some mlkemSs) :
    init.finishInputs (x25519RespPub ++ ct).toList =
      some ⟨init.x25519Pub, x25519RespPub, init.mlkemEk, ct,
        P.diffieHellman s x25519RespPub, mlkemSs⟩ := by
  obtain ⟨hx25519, hct⟩ := readArray_append x25519RespPub ct
  rw [finishInputs, Vector.toList_append, hs, hx25519, hct, hdec]

/-- Between two handshakes that still have their X25519 secrets an undisturbed exchange goes
through, if the encapsulation does. -/
theorem exists_handshake {s t : P.X25519Secret} {ct : Vector UInt8 1088}
    {mlkemSs : Vector UInt8 32} (hdecaps : P.Decapsulates) (hs : init.x25519Priv = some s)
    (ht : resp.x25519Priv = some t)
    (henc : P.encapsulate init.mlkemEk rng = some (ct, mlkemSs)) :
    ∃ ssResp ssInit,
      (resp.respond rng init.publicKey.toList).1 = .ok (resp.x25519Pub ++ ct, ssResp) ∧
      (init.finish (resp.x25519Pub ++ ct).toList).1 = .ok ssInit := by
  have hdec : P.decapsulate init.mlkemDk ct = some mlkemSs := by
    exact hdecaps _ _ _ _ (init.mlkemEk_eq ▸ henc)
  obtain ⟨ssResp, hssResp⟩ := HandshakeInputs.exists_sessionSecret (P := P)
    ⟨init.x25519Pub, resp.x25519Pub, init.mlkemEk, ct, P.diffieHellman t init.x25519Pub, mlkemSs⟩
  obtain ⟨ssInit, hssInit⟩ := HandshakeInputs.exists_sessionSecret (P := P)
    ⟨init.x25519Pub, resp.x25519Pub, init.mlkemEk, ct, P.diffieHellman s resp.x25519Pub, mlkemSs⟩
  exact ⟨ssResp, ssInit,
    respond_eq_ok_iff.mpr
      ⟨(Vector.length_toList).ge, _, respondInputs_publicKey ht henc, hssResp, rfl⟩,
    finish_eq_ok_iff.mpr ⟨(Vector.length_toList).ge, _, finishInputs_append hs hdec, hssInit⟩⟩

/-- **The two secrets agree exactly when** the first `initiatorPubLen` and `responderMsgLen` bytes
delivered are the ones that were sent. -/
theorem handshake_secret_eq_iff (hcomm : P.Commutes) (hdecaps : P.Decapsulates)
    {msg : Vector UInt8 responderMsgLen} {ssResp ssInit : Vector UInt8 sessionSecretLen}
    (hsep : ∀ a ∈ resp.respondInputs rng initiatorPub, ∀ b ∈ init.finishInputs responderMsg,
      P.Separates a b)
    (hrespond : (resp.respond rng initiatorPub).1 = .ok (msg, ssResp))
    (hfinish : (init.finish responderMsg).1 = .ok ssInit) :
    ssInit = ssResp ↔ initiatorPub.take initiatorPubLen = init.publicKey.toList ∧
      responderMsg.take responderMsgLen = msg.toList := by
  obtain ⟨hpub, a, ha, hssa, rfl⟩ := respond_eq_ok_iff.mp hrespond
  obtain ⟨hmsg, b, hb, hssb⟩ := finish_eq_ok_iff.mp hfinish
  rw [← sameTranscript_iff ha hb hpub hmsg]
  constructor
  · rintro rfl
    exact HandshakeInputs.sameTranscript_of_secret_eq (hsep a ha b hb) hssa hssb
  · intro hsame
    rw [inputs_eq_of_sameTranscript hcomm hdecaps ha hb hsame, hssb] at hssa
    exact Except.ok.inj hssa

/-! ## A recorded handshake -/

/-- The ML-KEM encapsulation key of the initiator. -/
def recordedEk : Vector UInt8 1184 :=
  readArray ([
    0x2d0889950824230850884828b601aa0bdb9efda876edb329ec312b9f69be1d09508f4a0441,
    0xb55f25fb712c8778b6acb3c7d3ad31e2bf4fb016d38224cd3207ee655cc4e696cd15a93d67,
    0x37edc84c3945be7019944b6228a791203bac7dc388c9e9ec77e315c2fc636d08666e17b454,
    0x1e1848cdecb484968bae7cb3bde902ad27c94bc79dfb5b462f56ba3e8053ba7316d370cb18,
    0x09c27d246bc45b3c36a5461cd033624a9ad4c73a16aacb6087804b6233bbdc3679a40b50a8,
    0x0b2c049de9f47f35d4908a2b88dcda519d10039c52c6ff8bbb5df981a4b368cccaa2983922,
    0x915644df0b0157c11ba9c911cd0bb8fe439f7d23162c83a2d7fbbdde63328a46ba43f5acc2,
    0x347e4000b921f768d1f067697b1f166256c108601b45b32702104cf05032518bd5652b07f5,
    0x094f28a4802997e864111c8793ed163413f19b4fe76f086485f13c66f3378151f2aed0baa0,
    0x63829fc4e605b8522618ba0b27eb94811331f6a4b457373e7b98323400326c904262b62928,
    0xfb4e07294065ea916bd538047033a1967056c8a6bb849ba20b0df8550a102749d7a69758d1,
    0x12c750c681b6630dd66d3c0752445b65f98bc8e0b492368ccc68b51ca6071239f895f37438,
    0xaff27a3faa98b83067ebd63744f3ce8d132e48360dec376d98a88d7c598d7f26470fc89a89,
    0x006ffb5251b41772bd313fd1e7cd2d59b36ec52309a41dce14b80a42282cf13edd11957dc5,
    0xb2295819fd22cd60343f57a56c0dfba438e90622637b5a2b106bb08f10f59422434caafa36,
    0x5e02c1576a5241618ad90870965962ba81573417929eb965c2b061f28bbe0c428d3d46353c,
    0x9109b3c6b5c856c9f83b3b54fa173ff95763e75fc6936ec9c994d1d01a31704eae97bded68,
    0x132730b2dbe52045c67bdfb4c041fbade6191382d93fc1951b887c7e5b5793d95171324814,
    0xb732c306fcc573389e2e792893bb649933b1eb91ad6401ccd9a9553e08c0ad7c83b6643b1a,
    0xd3cdd5fbca5d63147cfc83f4fab6084c46c66141de3c467af49a6c30676548573f76658356,
    0xb678520834a9b39928103c03bcc963a72f6a5ffac6342ab356cc0ca4ce899e5f53b7483503,
    0x64e049ce7a0972695cc1d6033ff43254204080040d32776b0cb871ef8089cab73957e8c7e4,
    0xf8cfdca003303412dc171bdef32f1407a1ba8718a9d5ac5e67a159258245519eb2404e475c,
    0xad2e28af3f8701dad337d1a09338b72818a518f3894a35fb32280865a86cb7c1e62b2eb337,
    0x84f9a07439c1fdf540a776a03b7aa338b111d02554c4994b28ac856a6984ccac29c3e3aa80,
    0x6225fd158de46b2c78d68a065247c2d8a6ede7353f6560c634576bea49a6553cf173590feb,
    0x3a7e42c353436e1d940907d70ed0560dd7a263f1f7c5ef6369c17a7f90f8103dfa62574a7a,
    0x47c1267567478111281fe72f2a225cce3a5126fc9b5d68a93eb79e66028a05156c0bb26563,
    0x794c2d5a60d7f447b059ac7480c2e902b99490c3004c9ac2f82ec0fa8fa141681f16033eeb,
    0x992ae130bb2bcea314c1d73217d3dc92819ccb1cf62a90d16a7d47530b205062a7b0ad9bb6,
    0x75b03c04b655b8c5c659c9554f1605a81459c21756b1678b20815f1609c4ac531b3800396a,
    0x95b281f77ccbd3f6eeba676b21e0f2c47522292482fd830f330c1d84a794bb94728b2d93fe
  ].flatMap (beBytes 37)) 0 1184

/-- The ciphertext that the responder encapsulated to it. -/
def recordedCt : Vector UInt8 1088 :=
  readArray ([
    0x0af178e008e901634e3b207c6597439252592e28b57aa5d8ecd716acf0ed9aaaf01f,
    0x18cb9acfb3f74d39ffa046c9793ecb4219d0f7f789f2ba60223479bda08fe3597622,
    0x06e83ff807f5998ba881ac5f64b9cd6b132f3189cf182520575be99ca0533b162fee,
    0x526d68bdd5d9974949b55453d975354872343e1b71fe25fb5da839f4d07bde1b5375,
    0x972c7d2f39c0d181979a3b7233201ed26adb54d97961117f74915615db9d9c352f99,
    0xa178c0d3f2704757932cbadb0044c3c797d8baf0626bb73b25d7a6a8bd96ae363573,
    0x1a2a44f9682d928bde1a23ac8deae8c06cc91b4ebaa5ecff7fde2f87a58af1ba579c,
    0x41bf78c2c17a5447dd55d78c5e0807376029f1d8839a861bcbe740e562b8a8c4c68b,
    0xe6f6ea1f97a2d09f1b75fd44d1803b5d78c28f5fe21a84b6913e74ddc75089129926,
    0x449b92e9e41cda1ca2d5650bd30e8f6f7681ecec9d206f643b90b671b0524cb6165b,
    0xf8951f85b6077abb774cde4c489ea9127104e1532fb8fa01e417fd38a453ba3afeb5,
    0x23c77e148e7816687e055ac9dd911c0d8fe38e22be8368faedeaa3a594cb9c056ccb,
    0x0e01a18c08eaa711951a5fad1d913d645104ebd42f2ee1bc4c290200cc6f8e9ac047,
    0xe51088c524b1beb53b0aeee04a8813fb0e7499188ac182071d73f7225af78cb0337d,
    0x91c57dba66bf466df60a15f2415bb74f55a6e8118e565c1d95c1b8a877644426258f,
    0x87a98754e9b2e674bc3bdd03d785335bb3b4cc983efd90124cd45607cf30edf7e5ae,
    0x1ccdd7de4b5749e93a84f657f10ad4bc71cf97f50fc3cfacb5172bf850240ef21a8a,
    0x196e8517061b919274b50a18c36b087be1970ac2ea9e5ce69c2191a6a8c27e394d31,
    0x6710bb1d54566fee7bdfffd0f2ce4846765b727cd19241ad6c3a0e32a0994a1ed4ff,
    0xf37db8aeafea2f815b62881dac19db33045babfdee0c887715a12ad7e59f3fa11be6,
    0xac1ac8dd683d014a1d77a88715fabfcf91e214cefc5527d0cfbb8eb62112df05e8bd,
    0xe966a05f7d9b50d89a3165707579256c57dfe5a0d0dafcac65b3d54fc40f72368281,
    0x3df57803b646babae93d0a0bc8df625fd863143af13902cc1430d5baabebce7788f9,
    0x37762345be0bf5bdfec6531ab23950764dc618cedaa2ee27d9db3dc60a73a54a7374,
    0xec33b904b97735eb4cbc8171e58b9ed9c0599048c5c61442b1ee079375339f1d4071,
    0x51108b6211031545f0d5f71342091bd31b9f7b2a566ebd7c2ea3dc838bc2c59d8c38,
    0xe48d7dbca4f1a041124d550e3abd0f7f8da53530402b70ee4d6f50516d52a9a179eb,
    0xa8175afbe7f3fc874ba51d805bff6a8e780984a98d71dcd8e183e615052e6981aa64,
    0x0659f244fe327d2d699e8230ea482fe701cbb9f772cf5f7f0fb8432c82dd9c165d82,
    0x5048ffee6216479bc206e7576f9691866f6e35c29f3ba598c7c851570bab9f6accc1,
    0xc83182557fc3dad5f192000714809bdeda9ec7eec54dfac0c1629f1c332f9d36b4ec,
    0x8d6275509b4abf00bbaa5089813e5d3e1fe24d5f337ae5214dda7b5ce2b95c0f6f21
  ].flatMap (beBytes 34)) 0 1088

/-- The X25519 shared secret. -/
def recordedX25519Ss : Vector UInt8 32 :=
  bytes32 0xd609c74c44674446da1faa2d2b269d1b5137af5a1bcfa72530ce2121b1b52166

/-- The ML-KEM shared secret. -/
def recordedMlkemSs : Vector UInt8 32 :=
  bytes32 0xdfff76f217545b57ef0dc1d3e5bf6de909ff428349f6065c0208625a978c1f50

def recordedTranscript : Vector UInt8 32 :=
  bytes32 0x632acefbf226212bdfc7a0b8554590a5c8653b5de69cd8a6a575cfe2f4af4de9

def recordedSecret : Vector UInt8 sessionSecretLen := readArray
  (beBytes 32 0xc592d70afa9f5c2679ea172d0658121b5b4d035cae315bf2350874f988240dce ++
    beBytes 32 0x5d134d78ad94570eacbb1ac1a0c375b3a497399b339ad9eec3e5c42aa8aa6089) 0 64

/-- HKDF-SHA256 on the handshake. -/
def recordedHkdf : HkdfSha256 :=
  let prkClassical := bytes32 0xb798aa6eaaed158ac934e9b68fa5882478c8a346b526efe6d9f0f3f5972044b9
  let prkPqc := bytes32 0x7c6c6a6ca59076e4acb3498f14687e109771f8e1e924e75940c90dbb1ed8b41a
  let prkCombined := bytes32 0xb68e8badf83ea630ceedab14f688d1f1dc447c02e33ac5b64c960002b0266a45
  .replay
    [((some recordedTranscript.toList, recordedX25519Ss.toList), prkClassical),
      ((some recordedTranscript.toList, recordedMlkemSs.toList), prkPqc),
      ((some recordedTranscript.toList, prkClassical.toList ++ prkPqc.toList), prkCombined)]
    [((prkCombined, kexLabel), recordedSecret.toList)]

/-- The primitives as far as one handshake was recorded, between the X25519 secrets `false` of the
initiator and `true` of the responder. -/
def recorded : KexPrimitives where
  X25519Secret := Bool
  publicKey
    | false => bytes32 0xe64aa62d48f3616cd55387fbc482906f553765f45a54eb8de27ffaf9b7666344
    | true => bytes32 0xaa06d590115f342d1c4cf1a7a010e4ece85422ccd389540c830046153485dd3a
  diffieHellman _ _ := recordedX25519Ss
  DecapsulationKey := Unit
  encapsulationKey _ := recordedEk
  Randomness := Unit
  encapsulate _ _ := some (recordedCt, recordedMlkemSs)
  decapsulate _ _ := some recordedMlkemSs
  sha256 _ := recordedTranscript
  hkdf := recordedHkdf

/-- What both sides put in. -/
def recordedInputs : HandshakeInputs where
  x25519InitPub := recorded.publicKey false
  x25519RespPub := recorded.publicKey true
  mlkemInitPub := recordedEk
  mlkemCt := recordedCt
  x25519Ss := recordedX25519Ss
  mlkemSs := recordedMlkemSs

theorem handshake_secret_eq_iff_recorded :
    ((new true () : HybridKEX recorded).respond ()
      (new false () : HybridKEX recorded).publicKey.toList).1 =
        .ok (recorded.publicKey true ++ recordedCt, recordedSecret) ∧
    ∃ ssInit, ((new false () : HybridKEX recorded).finish
        (recorded.publicKey true ++ recordedCt).toList).1 = .ok ssInit ∧
      ssInit = recordedSecret := by
  have hrespondInputs : (new true () : HybridKEX recorded).respondInputs ()
      (new false () : HybridKEX recorded).publicKey.toList = some recordedInputs :=
    respondInputs_publicKey rfl rfl
  have hfinishInputs : (new false () : HybridKEX recorded).finishInputs
      (recorded.publicKey true ++ recordedCt).toList = some recordedInputs :=
    finishInputs_append rfl rfl
  have hsecret : recordedInputs.sessionSecret recorded = .ok recordedSecret := by
    decide +kernel
  have hrespond := respond_eq_ok_iff.mpr
    ⟨(Vector.length_toList).ge, recordedInputs, hrespondInputs, hsecret, rfl⟩
  have hfinish := finish_eq_ok_iff.mpr
    ⟨(Vector.length_toList).ge, recordedInputs, hfinishInputs, hsecret⟩
  refine ⟨hrespond, recordedSecret, hfinish, ?_⟩
  refine (handshake_secret_eq_iff (fun _ _ => rfl) ?_ ?_ hrespond hfinish).mpr ?_
  · intro dk rng ct ss h
    exact congrArg some (congrArg Prod.snd (Option.some.inj h))
  · rw [hrespondInputs, hfinishInputs]
    rintro a ha b hb
    cases ha
    cases hb
    exact ⟨fun _ => rfl, fun _ => rfl, fun _ => rfl⟩
  · constructor
    · exact List.take_of_length_le (Vector.length_toList).le
    · exact List.take_of_length_le (Vector.length_toList).le

end HybridKEX

end SmipMwp.Crypto
