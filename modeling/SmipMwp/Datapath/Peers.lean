import SmipMwp.Crypto.Channel
import SmipMwp.Datapath.Hops
import SmipMwp.Wire.Codec

/-!
# From the handshake to the wire

A node makes its session of the secret of a handshake, and a peer makes one of the secret of its
own. The two have one key exactly if they are the ends of one handshake that nobody interfered with,
and use the same session info up to the bytes that are dropped; then the peer opens what the node's
kernel takes off the TX ring (`peers_open`).

This puts together what holds of the handshakes among each other, of the sessions made of their
secrets, of the batches of a forwarder, and of the frames between `send` and the kernel.
-/

namespace SmipMwp.Datapath

open AfXdp Crypto Routing Wire

/-- One layer is opened by a single call. -/
theorem peelPacket_singleton (T : HybridSession) {q : Bytes} :
    peelPacket [T] q =
      T.decrypt (slice q headerSize (Packet.payloadLen q + tagSize)) (Packet.seqNum q) := by
  have hslice : slice q headerSize (Packet.payloadLen q + tagSize) =
      Packet.payload q ++ (behind q).take tagSize := by
    rw [slice, List.take_add, List.drop_drop]
    rfl
  rw [peelPacket, peel, hslice]
  cases T.decrypt (Packet.payload q ++ (behind q).take tagSize) (Packet.seqNum q) with
  | ok inner => rfl
  | error e => rfl

/-- What decodes has been opened from the bytes that every receiver finds by the header. -/
theorem DecodesTo.decrypt_eq {S : HybridSession} {out p : Bytes} (h : DecodesTo S out p) :
    S.decrypt (slice out headerSize (Packet.payloadLen out + tagSize)) (Packet.seqNum out) =
      .ok (Packet.payload p) := by
  obtain ⟨header, header', hparse, hparse', hdst, hlen, hopen⟩ := h
  have hp : headerSize ≤ p.length := by
    by_contra hlt
    rw [Header.parse_of_lt (Nat.not_le.mp hlt)] at hparse
    cases hparse
  rw [Packet.parse_eq hp] at hparse
  rw [Packet.parse_eq (by omega)] at hparse'
  obtain rfl := Except.ok.inj hparse
  obtain rfl := Except.ok.inj hparse'
  have hpayloadLen : Packet.payloadLen out = Packet.payloadLen p :=
    congrArg (fun h : Header => h.length.toNat) hdst
  rw [hpayloadLen]
  exact hopen

/-! ## Peers -/

section Peers

variable {P : KexPrimitives} {ι : Type*} [DecidableEq ι]

/-- **From the handshake to the wire**: a node makes its session of the secret of a completed
handshake, a peer of its own. They have one key exactly if the two completed calls are the ends of
one handshake, or the same call, and the session infos agree in the bytes that are used. Then, in
every run of the node whose steps fit, the peer opens each encrypted output that fits into a frame
from what the kernel takes off the TX ring. -/
theorem peers_open (hcomm : P.Commutes) (hdecaps : P.Decapsulates)
    {net : ι → HybridKEX P} (hfresh : Function.Injective fun i => (net i).x25519Pub)
    {kexEvents : List (ι × KexCall P)} (hsepAll : SeparatesAll P (completed net kexEvents))
    {c d : Completion P ι} (hc : c ∈ completed net kexEvents) (hd : d ∈ completed net kexEvents)
    {hkdf : HkdfSha256} {deriveCacheKey : Bytes → Bytes → UInt64}
    (newCipher : Vector UInt8 32 → Aes256Gcm) {info info' : Bytes} {calls calls' : List CacheCall}
    (happart : KeepsApart hkdf deriveCacheKey calls c.secret.toList info)
    (happart' : KeepsApart hkdf deriveCacheKey calls' d.secret.toList info')
    {m m' : CacheEntry} (hm : deriveSessionMaterial hkdf c.secret.toList info = .ok m)
    (hm' : deriveSessionMaterial hkdf d.secret.toList info' = .ok m')
    (hsep : hkdf.SeparatesSessions c.secret.toList d.secret.toList info info')
    (hinv : (newCipher m.key).Inverts) {S T : HybridSession}
    (hS : (HybridSession.new hkdf deriveCacheKey newCipher
      (CacheCall.history hkdf deriveCacheKey calls) c.secret.toList info).1 = .ok S)
    (hT : (HybridSession.new hkdf deriveCacheKey newCipher
      (CacheCall.history hkdf deriveCacheKey calls') d.secret.toList info').1 = .ok T)
    {f : Forwarder} (hf : f.session = some S) (g : Telemetry) (cfg : Config)
    (hqueues : cfg.Queues) (events : List NodeEvent)
    (hfits : Along Node.step Node.Fits (Node.new f g cfg) events) :
    let n := events.foldl Node.step (Node.new f g cfg)
    (m.key = m'.key ↔
      (c = d ∨ c.Partners d) ∧ info.take infoCapacity = info'.take infoCapacity) ∧
    (m.key = m'.key →
      List.Forall₂ (fun out bytes => out.encrypted → out.bytes.length ≤ cfg.umemFrameSize →
          peelPacket [T] bytes = .ok (Packet.payload out.frame))
        (runLog Node.step Node.deliveredBy (Node.new f g cfg) events)
        ((runLog Node.step Node.takenBy (Node.new f g cfg) events).map Prod.snd ++
          n.system.socket.ring.tx.contents.map n.system.socket.umem)) := by
  refine ⟨key_eq_iff_of_mem hcomm hdecaps hfresh hsepAll hc hd hsep hm hm', fun hkey => ?_⟩
  obtain rfl := material_eq_of_key_eq hsep hm hm' hkey
  obtain rfl := Except.ok.inj ((happart.fst_new hm newCipher).symm.trans hS)
  obtain rfl := Except.ok.inj ((happart'.fst_new hm' newCipher).symm.trans hT)
  have harrives := Node.inv_run f g cfg hqueues
    (fun S hS => Option.some.inj (hf.symm.trans hS) ▸ hinv) hfits
  refine harrives.arrives.imp fun out bytes harrive henc hle => ?_
  obtain ⟨S, hS, hdecodes⟩ := harrive.decodes henc hle
  obtain rfl := Option.some.inj (hf.symm.trans hS)
  rw [peelPacket_singleton]
  exact hdecodes.decrypt_eq

end Peers

/-! ## The recorded handshake -/

open HybridKEX (recordedSecret)

/-- The material of the recorded secret and the session info "a". -/
def recordedMaterial : CacheEntry :=
  match deriveSessionMaterial recordedSessionHkdf recordedSecret.toList [97] with
  | .ok m => m
  | .error _ => ⟨Vector.replicate 32 0, Vector.replicate 4 0, 0⟩

theorem deriveSessionMaterial_recorded :
    deriveSessionMaterial recordedSessionHkdf recordedSecret.toList [97] =
      .ok recordedMaterial := by
  obtain ⟨m, hm, -⟩ := deriveSessionMaterial_eq_ok recordedSessionHkdf recordedSecret.toList [97]
  rw [recordedMaterial, hm]

/-- A node with the session of the responder. -/
def recordedNode : Forwarder :=
  { zeroForwarder [] false "primary" with
    session := some (HybridSession.ofMaterial (fun _ => .recordedHello) recordedMaterial) }

/-- The initiator opens the packet that the responder's kernel has taken. -/
theorem peers_open_recorded :
    List.Forall₂ (fun out bytes => out.encrypted → out.bytes.length ≤ smallConfig.umemFrameSize →
        peelPacket [HybridSession.ofMaterial (fun _ => .recordedHello) recordedMaterial] bytes =
          .ok (Packet.payload out.frame))
      (runLog Node.step Node.deliveredBy (Node.new recordedNode {} smallConfig) zeroNodeEvents)
      ((runLog Node.step Node.takenBy (Node.new recordedNode {} smallConfig)
          zeroNodeEvents).map Prod.snd ++
        (zeroNodeEvents.foldl Node.step (Node.new recordedNode {}
          smallConfig)).system.socket.ring.tx.contents.map
          (zeroNodeEvents.foldl Node.step (Node.new recordedNode {}
            smallConfig)).system.socket.umem) := by
  have hm := deriveSessionMaterial_recorded
  have happart : KeepsApart recordedSessionHkdf (fun _ _ => 0) [] recordedSecret.toList [97] := by
    rintro entry ⟨⟩
  have hmem : ∀ responds, recordedCompletion responds ∈ completed recordedNet recordedEvents := by
    rw [completed_recorded]
    rintro (_ | _) <;> simp
  have hopen := peers_open commutes_recorded decapsulates_recorded fresh_recordedNet
    separatesAll_recorded (hmem true) (hmem false) (fun _ => .recordedHello) happart happart hm hm
    ⟨fun _ => rfl, fun _ => ⟨rfl, rfl⟩⟩ (Aes256Gcm.ideal_ofTag _ _ _).inverts
    (happart.fst_new hm fun _ => .recordedHello) (happart.fst_new hm fun _ => .recordedHello)
    (f := recordedNode) rfl {} smallConfig ⟨⟨1, by decide, by decide⟩, ⟨1, by decide, by decide⟩⟩
    zeroNodeEvents (by decide +kernel)
  exact hopen.2 (hopen.1.mpr ⟨.inr partners_recorded, rfl⟩)

end SmipMwp.Datapath
