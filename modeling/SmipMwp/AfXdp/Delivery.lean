import SmipMwp.AfXdp.Conservation
import Mathlib.Data.List.Forall2

/-!
# The transmit path is an ordered channel

What `send` is for: the packets of the calls that return `Ok` reach the kernel, each of them once,
in order and unchanged. A packet is copied into a frame, the offset of the frame waits in the hand
of the sender and on the TX ring, and the kernel reads the frame when it has taken the descriptor,
while the sender goes on allocating and copying. `Delivers` relates the three logs of a run, what
was sent, what the kernel has found and what it has completed, to the places where the rest is on
its way, and every step that fits keeps it (`tx_delivers`).

A descriptor is an offset without a length, so what the kernel finds is a whole frame that starts
with the packet; a packet longer than a frame is cut off.
-/

namespace SmipMwp.AfXdp

/-- A packet of a request, as much of it as a frame holds. -/
def Request.packet (req : Request) (frameSize : ℕ) (p : ℕ × ℕ) : Bytes :=
  (slice req.buf p.1 p.2).take frameSize

def Request.packets (req : Request) (frameSize : ℕ) : List Bytes :=
  req.offsets.map (req.packet frameSize)

namespace System

/-! ## The logs -/

/-- An offset with the bytes of its frame. -/
def frame (s : System) (a : UInt64) : UInt64 × Bytes := (a, s.socket.umem a)

/-- The packets of the call that the step ends with `Ok`. -/
def sentBy (s : System) : Event → List Bytes
  | .advance =>
    match s.sender with
    | .allocating req _ [] addrs =>
      if (s.socket.ring.txPush addrs).1 = addrs.length then req.packets s.socket.frameSize else []
    | _ => []
  | _ => []

/-- The frame that the kernel takes off the TX ring, as it finds it. -/
def takenBy (s : System) (e : Event) : List (UInt64 × Bytes) := (s.consumedBy e).map s.frame

/-- The frame that the kernel completes, as it is then. -/
def finishedBy (s : System) : Event → List (UInt64 × Bytes)
  | .complete i =>
    match s.kernel[i]? with
    | some d => if (s.socket.ring.kernelComplete d).isSome then [s.frame d] else []
    | none => []
  | _ => []

/-! ## Where the packets are -/

/-- The frames in the hand start with the packets copied so far. -/
def Carries (frameSize : ℕ) (umem : UInt64 → Bytes) : Sender → Prop
  | .allocating req _ rest addrs =>
    ∃ copied, copied ++ rest = req.offsets ∧
      List.Forall₂ (· <+: ·) (copied.map (req.packet frameSize)) (addrs.map umem)
  | _ => True

/-- What was sent has been taken by the kernel or is on the TX ring, in this order, and the kernel
has completed what it took or holds it unchanged. -/
structure Delivers (sent : List Bytes) (taken finished : List (UInt64 × Bytes)) (s : System) :
    Prop where
  queued : List.Forall₂ (· <+: ·) sent
    (taken.map Prod.snd ++ s.socket.ring.tx.contents.map s.socket.umem)
  held : taken.Perm (finished ++ s.kernel.map s.frame)
  carries : Carries s.socket.frameSize s.socket.umem s.sender

variable {frames : List UInt64} {s : System} {sent : List Bytes}
  {taken finished : List (UInt64 × Bytes)}

/-- A free frame is not in the hand of the sender. -/
theorem Inv.not_mem_inHand (h : s.Inv) {a : UInt64} (ha : a ∈ s.socket.freeList.contents) :
    a ∉ s.inHand := by
  have hcount := List.count_pos_iff.mpr ha
  have hle := h.owners_le a
  simp only [owners, occurrences] at hle
  rw [← List.count_eq_zero]
  omega

theorem frameSize_alloc (socket : RealSocket) : socket.alloc.2.frameSize = socket.frameSize := by
  unfold RealSocket.alloc
  split <;> rfl

/-- What is copied to the start of a frame is found there. -/
theorem packet_prefix_copy (socket : RealSocket) (a : UInt64) (packet : Bytes) :
    packet.take socket.frameSize <+: (socket.copy a packet).umem a := by
  have hcopy : (socket.copy a packet).umem a =
      overwrite (socket.umem a) 0 (packet.take socket.frameSize) :=
    Function.update_self a _ socket.umem
  rw [hcopy, overwrite, List.take_zero, List.nil_append]
  exact List.prefix_append _ _

/-- A copy leaves the other frames. -/
theorem umem_copy_of_ne (socket : RealSocket) {a b : UInt64} (hne : b ≠ a) (packet : Bytes) :
    (socket.copy a packet).umem b = socket.umem b :=
  Function.update_of_ne hne _ socket.umem

namespace Delivers

/-! ## What a step keeps -/

/-- A step after which all that is on its way is where it was, and as it was. -/
theorem of_same {s' : System} (h : s.Delivers sent taken finished)
    (htx : s'.socket.ring.tx.contents = s.socket.ring.tx.contents) (hkernel : s'.kernel = s.kernel)
    (humem : ∀ a ∈ s.inFlight, s'.socket.umem a = s.socket.umem a)
    (hcarries : Carries s'.socket.frameSize s'.socket.umem s'.sender) :
    s'.Delivers sent taken finished := by
  have hqueued : s'.socket.ring.tx.contents.map s'.socket.umem =
      s.socket.ring.tx.contents.map s.socket.umem := by
    rw [htx]
    exact List.map_congr_left fun a ha => humem a (List.mem_append_left _ ha)
  have hheld : s'.kernel.map s'.frame = s.kernel.map s.frame := by
    rw [hkernel]
    refine List.map_congr_left fun a ha => ?_
    rw [frame, frame, humem a (List.mem_append_right _ ha)]
  exact ⟨by rw [hqueued]; exact h.queued, by rw [hheld]; exact h.held, hcarries⟩

theorem send (h : s.Delivers sent taken finished) (req : Request) :
    (s.step (.send req)).Delivers sent taken finished := by
  simp only [step]
  cases s.sender with
  | idle result => exact ⟨h.queued, h.held, trivial⟩
  | _ => exact h

theorem reclaim (h : s.Delivers sent taken finished) (hring : s.socket.ring.Wf) {req : Request}
    {attempt : ℕ} (hs : s.sender = .reclaiming req attempt) :
    s.advance.Delivers sent taken finished := by
  obtain ⟨-, htx, -⟩ := RingMmap.comp_compPop hring 64
  rw [advance_reclaim hs]
  exact h.of_same (congrArg RingBuffer.contents htx) rfl (fun _ _ => rfl) ⟨[], rfl, .nil⟩

/-- The frame that a packet is copied to is neither in flight nor in the hand. -/
theorem alloc (h : s.Delivers sent taken finished) (hinv : s.Inv) {req : Request}
    {attempt off len : ℕ} {rest : List (ℕ × ℕ)} {addrs : List UInt64}
    (hs : s.sender = .allocating req attempt ((off, len) :: rest) addrs)
    (hfree : s.socket.freeList.contents ≠ []) : s.advance.Delivers sent taken finished := by
  obtain ⟨-, hring, humem, hcons⟩ := RealSocket.alloc_spec hinv.wf hfree
  have hmem : s.socket.alloc.1 ∈ s.socket.freeList.contents := by
    rw [hcons]
    exact List.mem_cons_self
  have hother : ∀ a ≠ s.socket.alloc.1,
      s.advance.socket.umem a = s.socket.umem a := by
    intro a hne
    rw [advance_alloc hs]
    exact (umem_copy_of_ne _ hne _).trans (congrFun humem a)
  have hframeSize : s.advance.socket.frameSize = s.socket.frameSize := by
    rw [advance_alloc hs]
    exact frameSize_alloc s.socket
  have hcarries := h.carries
  have hhand : s.inHand = addrs := by simp only [inHand, hs]
  rw [hs] at hcarries
  obtain ⟨copied, hcopied, hframes⟩ := hcarries
  refine h.of_same ?_ ?_ (fun a ha => hother a ?_) ?_
  · rw [advance_alloc hs]
    exact congrArg (fun ring => ring.tx.contents) hring
  · rw [advance_alloc hs]
  · rintro rfl
    exact hinv.not_mem_inFlight hmem ha
  · rw [hframeSize]
    have hearlier : addrs.map s.advance.socket.umem = addrs.map s.socket.umem := by
      refine List.map_congr_left fun a ha => hother a ?_
      rintro rfl
      exact hinv.not_mem_inHand hmem (hhand ▸ ha)
    have hcopy := packet_prefix_copy s.socket.alloc.2 s.socket.alloc.1 (slice req.buf off len)
    rw [frameSize_alloc] at hcopy
    rw [advance_alloc hs] at hearlier ⊢
    refine ⟨copied ++ [(off, len)], ?_, ?_⟩
    · rw [List.append_assoc]
      exact hcopied
    · rw [List.map_append, List.map_append, hearlier]
      exact List.rel_append hframes (.cons hcopy .nil)

/-- The end of an attempt puts the frames of all its packets on the TX ring, or none. -/
theorem transmit (h : s.Delivers sent taken finished) (hring : s.socket.ring.Wf) {req : Request}
    {attempt : ℕ} {addrs : List UInt64} (hs : s.sender = .allocating req attempt [] addrs)
    (hfits : addrs.length ≤ s.socket.ring.txFree ∨ s.socket.ring.txFree = 0) :
    s.advance.Delivers (sent ++ s.sentBy .advance) taken finished := by
  obtain ⟨-, -, htx⟩ := RingMmap.tx_txPush hring addrs
  obtain ⟨hsocket, hkernel, hhand⟩ := advance_transmit hs
  have hring' : s.advance.socket.ring = (s.socket.ring.txPush addrs).2 := by
    rw [hsocket, ring_transmit]
  have humem : s.advance.socket.umem = s.socket.umem := by
    rw [hsocket]
    simp only [RealSocket.transmit]
    split_ifs <;> rfl
  have hcarries : Carries s.advance.socket.frameSize s.advance.socket.umem s.advance.sender := by
    rw [sender_transmit hs]
    split_ifs <;> trivial
  have hheld : s.advance.kernel.map s.advance.frame = s.kernel.map s.frame := by
    rw [hkernel]
    refine List.map_congr_left fun a _ => ?_
    rw [frame, frame, humem]
  rw [fst_txPush] at htx
  by_cases hall : min s.socket.ring.txFree addrs.length = addrs.length
  · -- The packets sent are those whose frames were in the hand.
    have hsent : s.sentBy .advance = req.packets s.socket.frameSize := by
      simp only [sentBy, hs, fst_txPush, if_pos hall]
    have hcopied := h.carries
    rw [hs] at hcopied
    obtain ⟨copied, hcopied, hframes⟩ := hcopied
    rw [List.append_nil] at hcopied
    rw [hcopied] at hframes
    rw [hall, List.take_length] at htx
    refine ⟨?_, by rw [hheld]; exact h.held, hcarries⟩
    rw [hsent, hring', htx, humem, List.map_append, ← List.append_assoc]
    exact List.rel_append h.queued hframes
  · have hsent : s.sentBy .advance = [] := by
      simp only [sentBy, hs, fst_txPush, if_neg hall]
    have hnone : min s.socket.ring.txFree addrs.length = 0 := by omega
    rw [hnone, List.take_zero, List.append_nil] at htx
    refine ⟨?_, by rw [hheld]; exact h.held, hcarries⟩
    rw [hsent, List.append_nil, hring', htx, humem]
    exact h.queued

theorem advance (h : s.Delivers sent taken finished) (hinv : s.Inv) (hfits : s.Fits .advance) :
    s.advance.Delivers (sent ++ s.sentBy .advance) taken finished := by
  rcases hs : s.sender with result | ⟨req, attempt⟩ |
    ⟨req, attempt, _ | ⟨⟨off, len⟩, rest⟩, addrs⟩
  · rw [advance_idle hs]
    simpa only [sentBy, hs, List.append_nil] using h
  · simpa only [sentBy, hs, List.append_nil] using h.reclaim hinv.wf.ring hs
  · simp only [Fits, hs] at hfits
    exact h.transmit hinv.wf.ring hs hfits
  · simp only [Fits, hs] at hfits
    simpa only [sentBy, hs, List.append_nil] using h.alloc hinv hs hfits

/-- The kernel finds the packet that is first on the ring. -/
theorem consume (h : s.Delivers sent taken finished) (hring : s.socket.ring.Wf) :
    (s.step .consume).Delivers sent (taken ++ s.takenBy .consume) finished := by
  simp only [step, takenBy, consumedBy]
  cases hc : s.socket.ring.kernelConsume with
  | none =>
    simp only [Option.map_none, Option.toList_none, List.map_nil, List.append_nil]
    exact h
  | some p =>
    obtain ⟨d, ring⟩ := p
    obtain ⟨-, -, htx⟩ := RingMmap.kernelConsume_eq_some hring hc
    simp only [Option.map_some, Option.toList_some, List.map_singleton]
    refine ⟨?_, ?_, h.carries⟩
    · have hqueued := h.queued
      rw [htx, List.map_cons] at hqueued
      rw [List.map_append, List.map_singleton, List.append_assoc]
      exact hqueued
    · have hheld := h.held.append_right [s.frame d]
      rw [List.append_assoc] at hheld
      rw [List.map_append]
      exact hheld

/-- The kernel completes a frame that is as it was found. -/
theorem complete (h : s.Delivers sent taken finished) (hring : s.socket.ring.Wf) (i : ℕ) :
    (s.step (.complete i)).Delivers sent taken (finished ++ s.finishedBy (.complete i)) := by
  simp only [step, finishedBy]
  cases hk : s.kernel[i]? with
  | none =>
    simp only [List.append_nil]
    exact h
  | some d =>
    simp only
    cases hc : s.socket.ring.kernelComplete d with
    | none =>
      simp only [Option.isSome_none, Bool.false_eq_true, if_false, List.append_nil]
      exact h
    | some ring =>
      obtain ⟨-, htx, -⟩ := RingMmap.kernelComplete_eq_some hring hc
      simp only [Option.isSome_some, if_true]
      have hkernel : (d :: s.kernel.eraseIdx i).Perm s.kernel := by
        obtain ⟨hi, rfl⟩ := List.getElem?_eq_some_iff.mp hk
        exact List.getElem_cons_eraseIdx_perm hi
      refine ⟨?_, ?_, h.carries⟩
      · rw [htx]
        exact h.queued
      · have hheld := (hkernel.map s.frame).symm
        rw [List.map_cons] at hheld
        rw [List.append_assoc]
        exact h.held.trans (hheld.append_left finished)

/-- **No step that fits loses, changes or reorders a packet.** -/
theorem step (h : s.Delivers sent taken finished) (hinv : s.Inv) {e : Event} (hfits : s.Fits e) :
    (s.step e).Delivers (sent ++ s.sentBy e) (taken ++ s.takenBy e)
      (finished ++ s.finishedBy e) := by
  cases e with
  | send req =>
    simp only [sentBy, takenBy, consumedBy, finishedBy, List.map_nil, List.append_nil]
    exact h.send req
  | advance =>
    simp only [takenBy, consumedBy, finishedBy, List.map_nil, List.append_nil]
    exact h.advance hinv hfits
  | consume =>
    simp only [sentBy, finishedBy, List.append_nil]
    exact h.consume hinv.wf.ring
  | complete i =>
    simp only [sentBy, takenBy, consumedBy, List.map_nil, List.append_nil]
    exact h.complete hinv.wf.ring i

theorem run (h : s.Delivers sent taken finished) (hcons : s.Conserved frames)
    (hnodup : frames.Nodup) {events : List Event} (hfits : Along System.step Fits s events) :
    (events.foldl System.step s).Delivers (sent ++ runLog System.step sentBy s events)
      (taken ++ runLog System.step takenBy s events)
      (finished ++ runLog System.step finishedBy s events) := by
  induction events generalizing s sent taken finished with
  | nil => simpa only [runLog_nil, List.append_nil, List.foldl_nil] using h
  | cons e events ih =>
    have hstep := h.step (hcons.inv hnodup) hfits.1
    simpa only [runLog, List.foldl_cons, ← List.append_assoc] using
      ih hstep (hcons.step hfits.1) hfits.2

end Delivers

end System

/-- **The transmit path is an ordered channel**: in every run whose steps fit, the packets of the
calls that returned `Ok` are, in order, what the frames taken by the kernel started with when it
took them and what the frames on the TX ring start with; and every frame that the kernel took it has
completed, or holds, with the bytes that it found. -/
theorem tx_delivers (cfg : Config) (hqueues : cfg.Queues) (events : List Event)
    (hfits : Along System.step System.Fits (System.new cfg) events) :
    (System.run cfg events).Delivers
      (runLog System.step System.sentBy (System.new cfg) events)
      (runLog System.step System.takenBy (System.new cfg) events)
      (runLog System.step System.finishedBy (System.new cfg) events) := by
  have hcons := System.conserved_new hqueues
  have hempty : (System.new cfg).socket.ring.tx.contents = [] :=
    RingBuffer.contents_of_used_eq_zero hcons.wf.ring.tx (RingBuffer.used_eq_zero_iff.mpr rfl)
  have hnew : (System.new cfg).Delivers [] [] [] := by
    refine ⟨?_, List.Perm.refl [], trivial⟩
    rw [hempty]
    exact .nil
  exact hnew.run hcons cfg.nodup_frames hfits

/-- A packet is sent and completed, and another is on its way in the same frame or the next. -/
theorem tx_delivers_twoPackets :
    (System.run smallConfig (onePacket ++ onePacket.take 4)).Delivers
      (runLog System.step System.sentBy (System.new smallConfig) (onePacket ++ onePacket.take 4))
      (runLog System.step System.takenBy (System.new smallConfig) (onePacket ++ onePacket.take 4))
      (runLog System.step System.finishedBy (System.new smallConfig)
        (onePacket ++ onePacket.take 4)) :=
  tx_delivers smallConfig ⟨⟨1, by decide, by decide⟩, ⟨1, by decide, by decide⟩⟩ _
    (by decide +kernel)

end SmipMwp.AfXdp
