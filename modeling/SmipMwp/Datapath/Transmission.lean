import SmipMwp.AfXdp.Delivery
import SmipMwp.Datapath.Bounds
import SmipMwp.Datapath.Decodable
import SmipMwp.Datapath.Integrity

/-!
# From the forwarder to the wire

`process_batch` hands its outputs to `send` and waits for it to return, while the kernel goes on
taking and completing frames. A `Node` is a forwarder with its socket; what `poll` returned is the
argument of a batch.

A descriptor has no length, so the kernel finds an output with the bytes of older packets behind it.
The receiver needs no more: the length field of the header says where the payload and its tag end.
In every run whose steps fit the socket and the arena, the frames that the kernel takes are, in
order, the outputs of the batches whose `send` returned `Ok`, and each encrypted output that fits
into a frame decodes from its frame to the packet that it was made of (`node_delivers`).
-/

namespace SmipMwp.Datapath

open AfXdp Crypto Routing Wire

/-! ## What a batch sends, on any path -/

namespace Forwarder

variable (f : Forwarder) (g : Telemetry)

/-- The emissions of `process_batch` for frames, by the path that it takes. -/
def batchEmissions (threads : ℕ) (frames : List Bytes) : List Emission :=
  if f.mcrEnabled then
    if f.mcrSprayMode ≠ "full" then frames.flatMap (primaryEmissions f.routes f.session)
    else if frames.length < parallelBatchThreshold ∨ threads ≤ 1 then
      frames.flatMap (sprayEmissions f.routes f.session)
    else frames.flatMap (sprayOwnedEmissions f.routes f.session)
  else if frames.length < parallelBatchThreshold ∨ threads ≤ 1 then
    frames.flatMap (serialEmissions f.routes f.session)
  else frames.flatMap (ownedEmissions f.routes f.session)

theorem sends_processBatch (threads : ℕ) {frames : List Bytes} (hne : frames ≠ []) :
    ∃ cap, (f.processBatch g threads frames).Sends frames.length cap
      (f.batchEmissions threads frames) := by
  have hempty : ¬ frames.isEmpty = true := by simpa using hne
  unfold processBatch processBatchMcr batchEmissions
  rw [if_neg hempty, if_neg hempty]
  split_ifs
  · exact ⟨_, f.sends_processPrimary g (f.fresh_startMcr frames) frames⟩
  · exact ⟨_, f.sends_processSpraySerial g (f.fresh_startMcr frames) frames⟩
  · exact ⟨_, f.sends_processSprayParallel g (f.fresh_startMcr frames) frames⟩
  · exact ⟨_, f.sends_processSerial g frames⟩
  · exact ⟨_, f.sends_processParallel g frames⟩

/-- On every path the emissions decode to frames of the batch. -/
theorem decodes_batchEmissions (hinv : ∀ S, f.session = some S → S.aead.Inverts) (threads : ℕ)
    {frames : List Bytes} {e : Emission} (he : e ∈ f.batchEmissions threads frames) :
    e.Decodes f.session frames := by
  unfold batchEmissions at he
  split_ifs at he
  · rw [flatMap_primaryEmissions] at he
    obtain ⟨p, hp, rfl⟩ := List.mem_map.mp he
    exact decodes_primaryEmission hinv hp
  · obtain ⟨p, hp, he⟩ := List.mem_flatMap.mp he
    obtain ⟨q, hq, rfl⟩ := List.mem_map.mp he
    exact decodes_emission hinv hp .spray (eq_or_redirected_of_mem_duplicate hq)
  · obtain ⟨p, hp, he⟩ := List.mem_flatMap.mp he
    obtain ⟨q, hq, rfl⟩ := List.mem_map.mp he
    exact decodes_emission hinv hp .owned (eq_or_redirected_of_mem_duplicate hq)
  · rw [flatMap_serialEmissions] at he
    exact decodes_of_mem_map hinv .serial he
  · rw [flatMap_ownedEmissions] at he
    exact decodes_of_mem_map hinv .owned he

/-- A batch leaves the session as it is. -/
theorem session_processBatch (threads : ℕ) (frames : List Bytes) :
    (f.processBatch g threads frames).forwarder.session = f.session := by
  unfold processBatch processBatchMcr
  split_ifs <;> rfl

end Forwarder

/-! ## A node -/

/-- The call of `send` that a batch ends with; its offsets lie in its buffer. -/
def BatchRun.request (r : BatchRun) : Option Request :=
  match r.sent with
  | some (buf, offsets) =>
    if h : ∀ p ∈ offsets, p.1 + p.2 ≤ buf.length then some ⟨buf, offsets, h⟩ else none
  | none => none

structure Node where
  forwarder : Forwarder
  telemetry : Telemetry
  system : System
  /-- The outputs of the last batch. -/
  outputs : List Delivery

/-- A batch of what `poll` returned, or a step of the socket. -/
inductive NodeEvent
  | batch (threads : ℕ) (frames : List Bytes)
  | socket (e : Event)

namespace Node

def new (f : Forwarder) (g : Telemetry) (cfg : Config) : Node := ⟨f, g, System.new cfg, []⟩

/-- The next state: a batch waits for the last `send` to return, and only a batch calls `send`. -/
def step (n : Node) : NodeEvent → Node
  | .batch threads frames =>
    match n.system.sender with
    | .idle _ =>
      let r := n.forwarder.processBatch n.telemetry threads frames
      let n := { n with forwarder := r.forwarder, telemetry := r.telemetry }
      match r.request with
      | some req => { n with system := n.system.step (.send req), outputs := r.deliveries }
      | none => n
    | _ => n
  | .socket (.send _) => n
  | .socket e => { n with system := n.system.step e }

/-- The outputs of the batch whose `send` the step ends with `Ok`. -/
def deliveredBy (n : Node) : NodeEvent → List Delivery
  | .socket .advance =>
    match n.system.sender with
    | .allocating _ _ [] addrs =>
      if (n.system.socket.ring.txPush addrs).1 = addrs.length then n.outputs else []
    | _ => []
  | _ => []

/-- The frame that the kernel takes off the TX ring. -/
def takenBy (n : Node) : NodeEvent → List (UInt64 × Bytes)
  | .socket e => n.system.takenBy e
  | _ => []

/-- The frame that the kernel completes. -/
def finishedBy (n : Node) : NodeEvent → List (UInt64 × Bytes)
  | .socket e => n.system.finishedBy e
  | _ => []

/-- No call of `send` is under way. -/
def idle (n : Node) : Bool :=
  match n.system.sender with
  | .idle _ => true
  | _ => false

/-- A step of the socket fits, and a batch that is run stays in the arena. -/
def Fits (n : Node) : NodeEvent → Prop
  | .socket e => n.system.Fits e
  | .batch threads frames =>
    n.idle → (n.forwarder.processBatch n.telemetry threads frames).Defined

instance decidableFits (n : Node) : (e : NodeEvent) → Decidable (n.Fits e)
  | .socket e => inferInstanceAs (Decidable (n.system.Fits e))
  | .batch threads frames => inferInstanceAs (Decidable (n.idle →
      (n.forwarder.processBatch n.telemetry threads frames).Defined))

end Node

/-! ## Outputs in frames -/

/-- An encrypted output decodes to the frame that it was made of. -/
def Delivery.Decodes (session : Option HybridSession) (d : Delivery) : Prop :=
  d.encrypted → ∃ S, session = some S ∧ DecodesTo S d.bytes d.frame

/-- The output has arrived in a frame with these bytes: they start with it, as much of it as fits,
and if all of it does and it is encrypted, they decode. -/
structure Delivery.Arrives (session : Option HybridSession) (frameSize : ℕ) (d : Delivery)
    (bytes : Bytes) : Prop where
  starts : d.bytes.take frameSize <+: bytes
  decodes : d.encrypted → d.bytes.length ≤ frameSize →
    ∃ S, session = some S ∧ DecodesTo S bytes d.frame

/-- What lies behind a packet does not matter to a receiver. -/
theorem DecodesTo.of_prefix {S : HybridSession} {out bytes p : Bytes} (h : DecodesTo S out p)
    (hbytes : out <+: bytes) : DecodesTo S bytes p := by
  obtain ⟨rest, rfl⟩ := hbytes
  obtain ⟨header, header', hparse, hparse', hdst, hlen, hopen⟩ := h
  have hout : headerSize ≤ out.length := by omega
  refine ⟨header, header', hparse, ?_, hdst, ?_, ?_⟩
  · rw [Packet.parse_eq (by rw [List.length_append]; omega), ← Packet.header_take,
      List.take_append_of_le_length hout, Packet.header_take, ← Packet.parse_eq hout, hparse']
  · rw [List.length_append]
    omega
  · rwa [slice_append_left (by omega)]

theorem Delivery.Decodes.arrives {session : Option HybridSession} {frameSize : ℕ} {d : Delivery}
    {bytes : Bytes} (h : d.Decodes session) (hstarts : d.bytes.take frameSize <+: bytes) :
    d.Arrives session frameSize bytes := by
  refine ⟨hstarts, fun henc hfits => ?_⟩
  obtain ⟨S, hS, hdec⟩ := h henc
  rw [List.take_of_length_le hfits] at hstarts
  exact ⟨S, hS, hdec.of_prefix hstarts⟩

/-- The call that a batch ends with has its outputs for packets. -/
theorem BatchRun.Sends.request_eq {r : BatchRun} {received cap : ℕ} {es : List Emission}
    (h : r.Sends received cap es) (frameSize : ℕ) :
    ∃ req, r.request = some req ∧
      req.packets frameSize = r.deliveries.map fun d => d.bytes.take frameSize := by
  have hbounds : ∀ p ∈ offsetsOf 0 es, p.1 + p.2 ≤ (payloadsOf es).length := by
    have hcontiguous := contiguous_offsetsFrom 0 (es.map Emission.bytes)
    rw [Nat.zero_add] at hcontiguous
    exact hcontiguous.inBounds
  have hcut := cut_offsetsFrom [] (es.map Emission.bytes)
  refine ⟨⟨payloadsOf es, offsetsOf 0 es, hbounds⟩, ?_, ?_⟩
  · simp only [request, h.sent]
    exact dif_pos hbounds
  · have hpackets : Request.packets ⟨payloadsOf es, offsetsOf 0 es, hbounds⟩ frameSize =
        (cut (payloadsOf es) (offsetsOf 0 es)).map (List.take frameSize) := by
      rw [cut, List.map_map]
      rfl
    rw [hpackets, h.deliveries_eq, List.map_map]
    change (cut ([] ++ (es.map Emission.bytes).flatten) _).map _ = _
    rw [show offsetsOf 0 es = offsetsFrom ([] : Bytes).length (es.map Emission.bytes) from rfl,
      hcut, List.map_map]
    rfl

end SmipMwp.Datapath

/-! ## What a step of the socket leaves alone -/

namespace SmipMwp.AfXdp

/-- The request of the call in progress. -/
def Sender.request : Sender → Option Request
  | .idle _ => none
  | .reclaiming req _ | .allocating req _ _ _ => some req

namespace System

variable {s : System}

theorem frameSize_transmit (socket : RealSocket) (addrs : List UInt64) :
    (socket.transmit addrs).2.frameSize = socket.frameSize := by
  simp only [RealSocket.transmit]
  split_ifs <;> rfl

theorem frameSize_advance (s : System) : s.advance.socket.frameSize = s.socket.frameSize := by
  rcases hs : s.sender with result | ⟨req, attempt⟩ |
    ⟨req, attempt, _ | ⟨⟨off, len⟩, rest⟩, addrs⟩
  · rw [advance_idle hs]
  · rw [advance_reclaim hs]
    rfl
  · rw [(advance_transmit hs).1, frameSize_transmit]
  · rw [advance_alloc hs]
    exact frameSize_alloc s.socket

/-- The sender goes on with its request, or is done with it. -/
theorem request_advance (s : System) :
    s.advance.sender.request = none ∨ s.advance.sender.request = s.sender.request := by
  rcases hs : s.sender with result | ⟨req, attempt⟩ |
    ⟨req, attempt, _ | ⟨⟨off, len⟩, rest⟩, addrs⟩
  · rw [advance_idle hs, hs]
    exact .inl rfl
  · rw [advance_reclaim hs]
    exact .inr rfl
  · rw [sender_transmit hs]
    split_ifs
    · exact .inl rfl
    · exact .inl rfl
    · exact .inr rfl
  · rw [advance_alloc hs]
    exact .inr rfl

/-- A step that is no call: the frame size stays, and so does the request until it is done. -/
theorem step_of_ne_send {e : Event} (hsend : ∀ req, e ≠ .send req) :
    (s.step e).socket.frameSize = s.socket.frameSize ∧
      ((s.step e).sender.request = none ∨ (s.step e).sender.request = s.sender.request) := by
  by_cases hadv : e = .advance
  · subst hadv
    exact ⟨s.frameSize_advance, s.request_advance⟩
  · refine ⟨?_, .inr (congrArg Sender.request (sender_step_of_ne_advance hadv hsend))⟩
    cases e with
    | send req => exact absurd rfl (hsend req)
    | advance => exact absurd rfl hadv
    | consume =>
      simp only [step]
      cases s.socket.ring.kernelConsume <;> rfl
    | complete i =>
      simp only [step]
      cases s.kernel[i]? with
      | none => rfl
      | some d =>
        simp only
        cases s.socket.ring.kernelComplete d <;> rfl

end System

end SmipMwp.AfXdp

namespace SmipMwp.Datapath

open AfXdp Crypto Routing Wire

namespace Node

/-! ## What a step keeps -/

/-- The socket delivers the outputs of the batches whose `send` returned `Ok`, the call in progress
has those of the last batch for packets, and all of these decode. -/
structure Inv (session : Option HybridSession) (frames : List UInt64) (frameSize : ℕ)
    (delivered : List Delivery) (taken finished : List (UInt64 × Bytes)) (n : Node) : Prop where
  session_eq : n.forwarder.session = session
  frameSize_eq : n.system.socket.frameSize = frameSize
  conserved : n.system.Conserved frames
  delivers : n.system.Delivers (delivered.map fun d => d.bytes.take frameSize) taken finished
  request : ∀ req, n.system.sender.request = some req →
    req.packets frameSize = n.outputs.map fun d => d.bytes.take frameSize
  decodes : ∀ d ∈ delivered ++ n.outputs, d.Decodes session

namespace Inv

variable {session : Option HybridSession} {frames : List UInt64} {frameSize : ℕ}
  {delivered : List Delivery} {taken finished : List (UInt64 × Bytes)} {n : Node}

/-- A batch hands its outputs over, if there is anything to hand over and the last call is done. -/
theorem batch (h : n.Inv session frames frameSize delivered taken finished)
    (hinv : ∀ S, session = some S → S.aead.Inverts) (threads : ℕ) (received : List Bytes) :
    (n.step (.batch threads received)).Inv session frames frameSize delivered taken finished := by
  have hsession := (n.forwarder.session_processBatch n.telemetry threads received).trans
    h.session_eq
  simp only [step]
  cases hs : n.system.sender with
  | reclaiming req attempt => exact h
  | allocating req attempt rest addrs => exact h
  | idle result =>
    simp only
    rcases eq_or_ne received [] with rfl | hne
    · have hnone : (n.forwarder.processBatch n.telemetry threads []).request = none := by
        unfold Forwarder.processBatch Forwarder.processBatchMcr
        simp only [List.isEmpty_nil, if_true, ite_self]
        rfl
      simp only [hnone]
      exact ⟨hsession, h.frameSize_eq, h.conserved, h.delivers, h.request, h.decodes⟩
    · obtain ⟨cap, hsends⟩ := n.forwarder.sends_processBatch n.telemetry threads hne
      obtain ⟨req, hreq, hpackets⟩ := hsends.request_eq frameSize
      have hstep : n.system.step (.send req) =
          { n.system with sender := .reclaiming req 0 } := by
        simp only [System.step, hs]
      simp only [hreq, hstep]
      refine ⟨hsession, h.frameSize_eq, ?_, ?_, ?_, ?_⟩
      · rw [← hstep]
        exact h.conserved.step (e := .send req) trivial
      · rw [← hstep]
        exact h.delivers.send req
      · rintro req' hreq'
        obtain rfl : req = req' := Option.some.inj hreq'
        exact hpackets
      · refine List.forall_mem_append.mpr
          ⟨fun d hd => h.decodes d (List.mem_append_left _ hd), ?_⟩
        rw [hsends.deliveries_eq]
        refine List.forall_mem_map.mpr fun e he => ?_
        rw [← h.session_eq] at hinv ⊢
        exact (n.forwarder.decodes_batchEmissions hinv threads he).2

/-- What the step sends are the outputs of the last batch. -/
theorem sentBy_eq (h : n.Inv session frames frameSize delivered taken finished) (e : Event) :
    n.system.sentBy e = (n.deliveredBy (.socket e)).map fun d => d.bytes.take frameSize := by
  cases e with
  | advance =>
    rcases hs : n.system.sender with result | ⟨req, attempt⟩ |
      ⟨req, attempt, _ | ⟨packet, rest⟩, addrs⟩
    · simp only [System.sentBy, deliveredBy, hs, List.map_nil]
    · simp only [System.sentBy, deliveredBy, hs, List.map_nil]
    · have hreq := h.request req (by rw [hs]; rfl)
      simp only [System.sentBy, deliveredBy, hs, h.frameSize_eq]
      split_ifs
      · exact hreq
      · rfl
    · simp only [System.sentBy, deliveredBy, hs, List.map_nil]
  | _ => rfl

theorem socket (h : n.Inv session frames frameSize delivered taken finished)
    (hnodup : frames.Nodup) {e : Event} (hsend : ∀ req, e ≠ .send req) (hfits : n.system.Fits e) :
    Inv session frames frameSize (delivered ++ n.deliveredBy (.socket e))
      (taken ++ n.system.takenBy e) (finished ++ n.system.finishedBy e)
      { n with system := n.system.step e } := by
  obtain ⟨hframeSize, hrequest⟩ := n.system.step_of_ne_send hsend
  have hdelivers := h.delivers.step (h.conserved.inv hnodup) hfits
  rw [h.sentBy_eq, ← List.map_append] at hdelivers
  refine ⟨h.session_eq, hframeSize.trans h.frameSize_eq, h.conserved.step hfits, hdelivers,
    fun req hreq => ?_, ?_⟩
  · rcases hrequest with hnone | hsame
    · rw [hnone] at hreq
      cases hreq
    · exact h.request req (hsame.symm.trans hreq)
  · -- What is delivered was an output before.
    have hmem : ∀ d ∈ n.deliveredBy (.socket e), d ∈ n.outputs := by
      intro d hd
      cases e with
      | advance =>
        simp only [deliveredBy] at hd
        split at hd
        · split_ifs at hd
          · exact hd
          · cases hd
        · cases hd
      | _ => cases hd
    intro d hd
    refine h.decodes d ?_
    rcases List.mem_append.mp hd with hd | hd
    · rcases List.mem_append.mp hd with hd | hd
      · exact List.mem_append_left _ hd
      · exact List.mem_append_right _ (hmem d hd)
    · exact List.mem_append_right _ hd

theorem step (h : n.Inv session frames frameSize delivered taken finished)
    (hinv : ∀ S, session = some S → S.aead.Inverts) (hnodup : frames.Nodup) {e : NodeEvent}
    (hfits : n.Fits e) :
    (n.step e).Inv session frames frameSize (delivered ++ n.deliveredBy e) (taken ++ n.takenBy e)
      (finished ++ n.finishedBy e) := by
  cases e with
  | batch threads received =>
    simp only [deliveredBy, takenBy, finishedBy, List.append_nil]
    exact h.batch hinv threads received
  | socket e =>
    cases e with
    | send req =>
      simp only [deliveredBy, takenBy, finishedBy, System.takenBy, System.consumedBy,
        System.finishedBy, List.map_nil, List.append_nil]
      exact h
    | advance => exact h.socket hnodup (by rintro req ⟨⟩) hfits
    | consume => exact h.socket hnodup (by rintro req ⟨⟩) hfits
    | complete i => exact h.socket hnodup (by rintro req ⟨⟩) hfits

theorem run (h : n.Inv session frames frameSize delivered taken finished)
    (hinv : ∀ S, session = some S → S.aead.Inverts) (hnodup : frames.Nodup)
    {events : List NodeEvent} (hfits : Along Node.step Fits n events) :
    (events.foldl Node.step n).Inv session frames frameSize
      (delivered ++ runLog Node.step deliveredBy n events)
      (taken ++ runLog Node.step takenBy n events)
      (finished ++ runLog Node.step finishedBy n events) := by
  induction events generalizing n delivered taken finished with
  | nil => simpa only [runLog_nil, List.append_nil, List.foldl_nil] using h
  | cons e events ih =>
    have hstep := h.step hinv hnodup hfits.1
    simpa only [runLog, List.foldl_cons, ← List.append_assoc] using ih hstep hfits.2

/-- Each output delivered has arrived in the frame that took its place in the order. -/
theorem arrives (h : n.Inv session frames frameSize delivered taken finished) :
    List.Forall₂ (Delivery.Arrives session frameSize) delivered
      (taken.map Prod.snd ++ n.system.socket.ring.tx.contents.map n.system.socket.umem) := by
  have hqueued := List.forall₂_map_left_iff.mp h.delivers.queued
  have hdecodes : ∀ d ∈ delivered, d.Decodes session := fun d hd =>
    h.decodes d (List.mem_append_left _ hd)
  exact ((List.forall₂_and_left _ _).mpr ⟨hdecodes, hqueued⟩).imp
    fun d bytes hd => hd.1.arrives hd.2

end Inv

end Node

/-- What holds along a run that starts with a new node. -/
theorem Node.inv_run (f : Forwarder) (g : Telemetry) (cfg : Config) (hqueues : cfg.Queues)
    (hinv : ∀ S, f.session = some S → S.aead.Inverts) {events : List NodeEvent}
    (hfits : Along Node.step Node.Fits (Node.new f g cfg) events) :
    (events.foldl Node.step (Node.new f g cfg)).Inv f.session cfg.frames cfg.umemFrameSize
      (runLog Node.step Node.deliveredBy (Node.new f g cfg) events)
      (runLog Node.step Node.takenBy (Node.new f g cfg) events)
      (runLog Node.step Node.finishedBy (Node.new f g cfg) events) := by
  have hcons := System.conserved_new hqueues
  have hempty : (System.new cfg).socket.ring.tx.contents = [] :=
    RingBuffer.contents_of_used_eq_zero hcons.wf.ring.tx (RingBuffer.used_eq_zero_iff.mpr rfl)
  have hdelivers : (System.new cfg).Delivers [] [] [] := by
    refine ⟨?_, List.Perm.refl [], trivial⟩
    rw [hempty]
    exact .nil
  have hnew : (Node.new f g cfg).Inv f.session cfg.frames cfg.umemFrameSize [] [] [] :=
    ⟨rfl, rfl, hcons, hdelivers, nofun, nofun⟩
  exact hnew.run hinv cfg.nodup_frames hfits

/-- **From the forwarder to the wire**: in every run whose steps fit, the frames taken by the kernel
and then those on the TX ring are, in order, those of the outputs of the batches whose `send`
returned `Ok`. Each starts with its output, and a receiver that opens it by its header gets the
payload of the packet that the output was made of, if it was encrypted and fits into a frame. -/
theorem node_delivers (f : Forwarder) (g : Telemetry) (cfg : Config) (hqueues : cfg.Queues)
    (hinv : ∀ S, f.session = some S → S.aead.Inverts) (events : List NodeEvent)
    (hfits : Along Node.step Node.Fits (Node.new f g cfg) events) :
    let n := events.foldl Node.step (Node.new f g cfg)
    List.Forall₂ (Delivery.Arrives f.session cfg.umemFrameSize)
      (runLog Node.step Node.deliveredBy (Node.new f g cfg) events)
      ((runLog Node.step Node.takenBy (Node.new f g cfg) events).map Prod.snd ++
        n.system.socket.ring.tx.contents.map n.system.socket.umem) :=
  (Node.inv_run f g cfg hqueues hinv hfits).arrives

/-- A batch of one packet that is encrypted, sent, and taken by the kernel. -/
def zeroNodeEvents : List NodeEvent :=
  [.batch 1 [zeroPacket [7]], .socket .advance, .socket .advance, .socket .advance,
    .socket .consume]

theorem node_delivers_zeroPacket :
    List.Forall₂ (Delivery.Arrives (zeroForwarder [] false "primary").session 2048)
      (runLog Node.step Node.deliveredBy (Node.new (zeroForwarder [] false "primary") {} smallConfig)
        zeroNodeEvents)
      ((runLog Node.step Node.takenBy (Node.new (zeroForwarder [] false "primary") {} smallConfig)
          zeroNodeEvents).map Prod.snd ++
        (zeroNodeEvents.foldl Node.step (Node.new (zeroForwarder [] false "primary") {}
          smallConfig)).system.socket.ring.tx.contents.map
          (zeroNodeEvents.foldl Node.step (Node.new (zeroForwarder [] false "primary") {}
            smallConfig)).system.socket.umem) := by
  refine node_delivers (zeroForwarder [] false "primary") {} smallConfig
    ⟨⟨1, by decide, by decide⟩, ⟨1, by decide, by decide⟩⟩ ?_ zeroNodeEvents (by decide +kernel)
  rintro S hS
  cases hS
  exact Aes256Gcm.inverts_ofStream _ _

end SmipMwp.Datapath
