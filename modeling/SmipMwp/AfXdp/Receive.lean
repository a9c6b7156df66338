import SmipMwp.AfXdp.Conservation
import Mathlib.Data.List.Forall2

/-!
# The receive path

The kernel takes the oldest buffer off the fill ring, writes a packet into its frame and posts the
frame on the RX ring, and `poll` returns the frames that it pops there. With buffers lent that are
not out already this is an ordered channel, and buffers come back in the order they were lent
(`rx_delivers`).

But nothing lends any: `fill_push` has no caller beside the tests. Over all runs of `send`, `poll`
and the kernel, from a new socket, `poll` returns nothing (`poll_eq_nil`).
-/

namespace SmipMwp.AfXdp

/-! ## The operations -/

/-- The kernel moves the oldest buffer of the fill ring to the RX ring, if that has room. -/
def RingMmap.kernelReceive (r : RingMmap) : Option (UInt64 × RingMmap) :=
  match r.fill.contents with
  | [] => none
  | d :: _ =>
    if r.rx.used < r.rx.capacity then
      some (d, { r with fill := (r.fill.pop 1).2, rx := r.rx.push [d] })
    else none

namespace RealSocket

/-- `poll`: the frames, whole, at the offsets that `rx_pop` returns. -/
def poll (s : RealSocket) (max : ℕ) : List Bytes × RealSocket :=
  let (descs, ring) := s.ring.rxPop max
  (descs.map s.umem, { s with ring := ring })

/-- A packet arrives: the kernel writes it into the frame it moves, or drops it. -/
def receive (s : RealSocket) (packet : Bytes) : RealSocket :=
  match s.ring.kernelReceive with
  | some (d, ring) => { s with ring := ring }.copy d packet
  | none => s

/-- `fill_push`. -/
def refill (s : RealSocket) (addrs : List UInt64) : RealSocket :=
  { s with ring := (s.ring.fillPush addrs).2 }

end RealSocket

/-! ## Receiving alone -/

inductive ReceiveEvent
  | refill (addrs : List UInt64)
  | receive (packet : Bytes)
  | poll (max : ℕ)

namespace ReceiveEvent

def step (s : RealSocket) : ReceiveEvent → RealSocket
  | refill addrs => s.refill addrs
  | receive packet => s.receive packet
  | poll max => (s.poll max).2

/-- The buffers that the step lends. -/
def lent (s : RealSocket) : ReceiveEvent → List UInt64
  | refill addrs => addrs.take (s.ring.fillPush addrs).1
  | _ => []

/-- The packet that the kernel takes in, as much of it as a frame holds. -/
def received (s : RealSocket) : ReceiveEvent → List Bytes
  | receive packet => if s.ring.kernelReceive.isSome then [packet.take s.frameSize] else []
  | _ => []

/-- The frames that `poll` returns. -/
def polled (s : RealSocket) : ReceiveEvent → List Bytes
  | poll max => (s.poll max).1
  | _ => []

/-- The offsets of the frames that `poll` returns. -/
def returned (s : RealSocket) : ReceiveEvent → List UInt64
  | poll max => (s.ring.rxPop max).1
  | _ => []

/-- A buffer is lent only while it is not out. -/
def Lends (s : RealSocket) : ReceiveEvent → Prop
  | refill addrs => (s.ring.rx.contents ++ s.ring.fill.contents ++ addrs).Nodup
  | _ => True

instance decidableLends (s : RealSocket) : (e : ReceiveEvent) → Decidable (e.Lends s)
  | refill addrs =>
    inferInstanceAs (Decidable (s.ring.rx.contents ++ s.ring.fill.contents ++ addrs).Nodup)
  | receive _ | poll _ => inferInstanceAs (Decidable True)

end ReceiveEvent

/-- The rings of the receive path are well-formed, and no buffer is on them twice. -/
structure RealSocket.ReceiveWf (s : RealSocket) : Prop where
  rx : s.ring.rx.Wf
  fill : s.ring.fill.Wf
  nodup : (s.ring.rx.contents ++ s.ring.fill.contents).Nodup

namespace RealSocket.ReceiveWf

variable {s : RealSocket}

/-- Buffers are lent at the end of the fill ring. -/
theorem refill (h : s.ReceiveWf) {addrs : List UInt64}
    (hlends : (s.ring.rx.contents ++ s.ring.fill.contents ++ addrs).Nodup) :
    (s.refill addrs).ReceiveWf ∧ (s.refill addrs).ring.rx = s.ring.rx ∧
      (s.refill addrs).ring.fill.contents =
        s.ring.fill.contents ++ addrs.take (s.ring.fillPush addrs).1 := by
  obtain ⟨hfill, -, -, hcontents⟩ := contents_ringPush h.fill addrs
  refine ⟨⟨h.rx, hfill, ?_⟩, rfl, hcontents⟩
  change (s.ring.rx.contents ++ (ringPush s.ring.fill addrs).2.contents).Nodup
  rw [hcontents, ← List.append_assoc]
  exact hlends.sublist ((List.Sublist.refl _).append (List.take_sublist _ _))

/-- A packet that is taken in is written to the frame that was first on the fill ring. -/
theorem kernelReceive (h : s.ReceiveWf) {d : UInt64} {ring : RingMmap}
    (hr : s.ring.kernelReceive = some (d, ring)) :
    ring.rx.Wf ∧ ring.fill.Wf ∧ s.ring.fill.contents = d :: ring.fill.contents ∧
      ring.rx.contents = s.ring.rx.contents ++ [d] := by
  unfold RingMmap.kernelReceive at hr
  split at hr
  · cases hr
  · next d' rest hcons =>
    split_ifs at hr with hroom
    have hpos : 1 ≤ s.ring.fill.used := by
      rw [← RingBuffer.length_contents h.fill, hcons]
      exact Nat.succ_pos _
    cases hr
    refine ⟨h.rx.push hroom, h.fill.pop hpos, ?_, RingBuffer.contents_push h.rx hroom⟩
    rw [RingBuffer.contents_pop h.fill hpos, hcons, List.drop_one, List.tail_cons]

end RealSocket.ReceiveWf

/-- What was received has been returned by `poll` or is on the RX ring, in this order; and the
buffers lent have been returned, or are on the RX ring or on the fill ring, in this order. -/
structure Receives (lent returned : List UInt64) (received polled : List Bytes) (s : RealSocket) :
    Prop where
  wf : s.ReceiveWf
  buffers : lent = returned ++ s.ring.rx.contents ++ s.ring.fill.contents
  packets : List.Forall₂ (· <+: ·) received (polled ++ s.ring.rx.contents.map s.umem)

namespace Receives

variable {lent returned : List UInt64} {received polled : List Bytes} {s : RealSocket}

theorem refill (h : Receives lent returned received polled s) {addrs : List UInt64}
    (hlends : (s.ring.rx.contents ++ s.ring.fill.contents ++ addrs).Nodup) :
    Receives (lent ++ addrs.take (s.ring.fillPush addrs).1) returned received polled
      (s.refill addrs) := by
  obtain ⟨hwf, hrx, hfill⟩ := h.wf.refill hlends
  refine ⟨hwf, ?_, ?_⟩
  · rw [hrx, hfill, h.buffers]
    simp only [List.append_assoc]
  · rw [hrx]
    exact h.packets

/-- The frame written to is on neither ring any more. -/
theorem receive (h : Receives lent returned received polled s) (packet : Bytes) :
    Receives lent returned (received ++ (ReceiveEvent.receive packet).received s) polled
      (s.receive packet) := by
  simp only [ReceiveEvent.received, RealSocket.receive]
  cases hr : s.ring.kernelReceive with
  | none =>
    simp only [Option.isSome_none, Bool.false_eq_true, if_false, List.append_nil]
    exact h
  | some p =>
    obtain ⟨d, ring⟩ := p
    obtain ⟨hrx, hfill, hcons, hpost⟩ := h.wf.kernelReceive hr
    have hnodup := h.wf.nodup
    rw [hcons] at hnodup
    have hfresh : d ∉ s.ring.rx.contents := fun hmem =>
      (List.disjoint_of_nodup_append hnodup) hmem List.mem_cons_self
    have hbytes : ring.rx.contents.map (Function.update s.umem d
        (overwrite (s.umem d) 0 (packet.take s.frameSize))) =
          s.ring.rx.contents.map s.umem ++
            [overwrite (s.umem d) 0 (packet.take s.frameSize)] := by
      rw [hpost, List.map_append, List.map_singleton, Function.update_self]
      congr 1
      refine List.map_congr_left fun a ha => Function.update_of_ne ?_ _ _
      rintro rfl
      exact hfresh ha
    simp only [Option.isSome_some, if_true]
    refine ⟨⟨hrx, hfill, ?_⟩, ?_, ?_⟩
    · change (ring.rx.contents ++ ring.fill.contents).Nodup
      rw [hpost, List.append_assoc]
      exact hnodup
    · change lent = returned ++ ring.rx.contents ++ ring.fill.contents
      rw [h.buffers, hpost, hcons]
      simp only [List.append_assoc, List.singleton_append]
    · change List.Forall₂ _ _ (polled ++ ring.rx.contents.map (Function.update s.umem d
        (overwrite (s.umem d) 0 (packet.take s.frameSize))))
      rw [hbytes, ← List.append_assoc]
      refine List.rel_append h.packets (.cons ?_ .nil)
      rw [overwrite, List.take_zero, List.nil_append]
      exact List.prefix_append _ _

theorem poll (h : Receives lent returned received polled s) (max : ℕ) :
    Receives lent (returned ++ (s.ring.rxPop max).1) received (polled ++ (s.poll max).1)
      (s.poll max).2 := by
  obtain ⟨hrx, -, -, hcontents⟩ := contents_ringPop h.wf.rx max
  have hnodup := h.wf.nodup
  have hbuffers := h.buffers
  have hpackets := h.packets
  rw [hcontents] at hnodup hbuffers hpackets
  refine ⟨⟨hrx, h.wf.fill, ?_⟩, ?_, ?_⟩
  · change ((ringPop s.ring.rx max).2.contents ++ s.ring.fill.contents).Nodup
    rw [List.append_assoc] at hnodup
    exact hnodup.of_append_right
  · simp only [List.append_assoc] at hbuffers ⊢
    exact hbuffers
  · rw [List.map_append] at hpackets
    rw [List.append_assoc]
    exact hpackets

/-- **No step that lends only what is not out loses, changes or reorders a packet.** -/
theorem step (h : Receives lent returned received polled s) {e : ReceiveEvent}
    (hlends : e.Lends s) :
    Receives (lent ++ e.lent s) (returned ++ e.returned s) (received ++ e.received s)
      (polled ++ e.polled s) (e.step s) := by
  cases e with
  | refill addrs =>
    simp only [ReceiveEvent.returned, ReceiveEvent.received, ReceiveEvent.polled, List.append_nil]
    exact h.refill hlends
  | receive packet =>
    simp only [ReceiveEvent.lent, ReceiveEvent.returned, ReceiveEvent.polled, List.append_nil]
    exact h.receive packet
  | poll max =>
    simp only [ReceiveEvent.lent, ReceiveEvent.received, List.append_nil]
    exact h.poll max

theorem run (h : Receives lent returned received polled s) {events : List ReceiveEvent}
    (hlends : Along ReceiveEvent.step (fun s e => e.Lends s) s events) :
    Receives (lent ++ runLog ReceiveEvent.step ReceiveEvent.lent s events)
      (returned ++ runLog ReceiveEvent.step ReceiveEvent.returned s events)
      (received ++ runLog ReceiveEvent.step ReceiveEvent.received s events)
      (polled ++ runLog ReceiveEvent.step ReceiveEvent.polled s events)
      (events.foldl ReceiveEvent.step s) := by
  induction events generalizing s lent returned received polled with
  | nil => simpa only [runLog_nil, List.append_nil, List.foldl_nil] using h
  | cons e events ih =>
    simpa only [runLog, List.foldl_cons, ← List.append_assoc] using ih (h.step hlends.1) hlends.2

end Receives

/-- **The receive path is an ordered channel**: over ring capacities that are powers of two, in
every run that lends no buffer that is out, the packets taken in are, in order, what the frames
returned by `poll` and those on the RX ring start with, and the buffers come back in the order they
were lent. -/
theorem rx_delivers (cfg : Config) (hrx : ∃ k < 32, cfg.offs.rxCap = 2 ^ k)
    (hfill : ∃ k < 32, cfg.offs.fillCap = 2 ^ k) (events : List ReceiveEvent)
    (hlends : Along ReceiveEvent.step (fun s e => e.Lends s) (RealSocket.new cfg) events) :
    Receives (runLog ReceiveEvent.step ReceiveEvent.lent (RealSocket.new cfg) events)
      (runLog ReceiveEvent.step ReceiveEvent.returned (RealSocket.new cfg) events)
      (runLog ReceiveEvent.step ReceiveEvent.received (RealSocket.new cfg) events)
      (runLog ReceiveEvent.step ReceiveEvent.polled (RealSocket.new cfg) events)
      (events.foldl ReceiveEvent.step (RealSocket.new cfg)) := by
  obtain ⟨k, hk, hrx⟩ := hrx
  obtain ⟨l, hl, hfill⟩ := hfill
  have hrxWf : (RealSocket.new cfg).ring.rx.Wf :=
    .of_cons_eq_prod ⟨k, hk, List.length_replicate.trans hrx⟩ rfl
  have hfillWf : (RealSocket.new cfg).ring.fill.Wf :=
    .of_cons_eq_prod ⟨l, hl, List.length_replicate.trans hfill⟩ rfl
  have hrx0 : (RealSocket.new cfg).ring.rx.contents = [] :=
    RingBuffer.contents_of_used_eq_zero hrxWf (RingBuffer.used_eq_zero_iff.mpr rfl)
  have hfill0 : (RealSocket.new cfg).ring.fill.contents = [] :=
    RingBuffer.contents_of_used_eq_zero hfillWf (RingBuffer.used_eq_zero_iff.mpr rfl)
  have hnew : Receives [] [] [] [] (RealSocket.new cfg) := by
    refine ⟨⟨hrxWf, hfillWf, ?_⟩, ?_, ?_⟩
    · rw [hrx0, hfill0]
      exact List.nodup_nil
    · rw [hrx0, hfill0]
      rfl
    · rw [hrx0]
      exact .nil
  exact hnew.run hlends

/-- Two descriptors on each of three rings. -/
def receiveConfig : Config :=
  { smallConfig with offs := { rxDesc := 0, txDesc := 16, fillDesc := 32, compDesc := 48 } }

/-- Two buffers are lent, one packet is received and polled, and its buffer is lent again. -/
def receiveEvents : List ReceiveEvent :=
  [.refill [0, 2048], .receive [1, 2], .poll 64, .refill [0], .receive [3]]

theorem rx_delivers_two :
    Receives (runLog ReceiveEvent.step ReceiveEvent.lent (RealSocket.new receiveConfig)
        receiveEvents)
      (runLog ReceiveEvent.step ReceiveEvent.returned (RealSocket.new receiveConfig) receiveEvents)
      (runLog ReceiveEvent.step ReceiveEvent.received (RealSocket.new receiveConfig) receiveEvents)
      (runLog ReceiveEvent.step ReceiveEvent.polled (RealSocket.new receiveConfig) receiveEvents)
      (receiveEvents.foldl ReceiveEvent.step (RealSocket.new receiveConfig)) :=
  rx_delivers receiveConfig ⟨1, by decide, by decide⟩ ⟨1, by decide, by decide⟩ receiveEvents
    (by decide +kernel)

/-! ## The socket as it is -/

/-- The calls of the socket's two methods and the steps of the kernel on both paths. -/
inductive DuplexEvent
  | transmit (e : Event)
  | receive (packet : Bytes)
  | poll (max : ℕ)

namespace DuplexEvent

def step (s : System) : DuplexEvent → System
  | transmit e => s.step e
  | receive packet => { s with socket := s.socket.receive packet }
  | poll max => { s with socket := (s.socket.poll max).2 }

/-- The frames that `poll` returns. -/
def polled (s : System) : DuplexEvent → List Bytes
  | poll max => (s.socket.poll max).1
  | _ => []

end DuplexEvent

/-- Nothing has moved on the fill ring or on the RX ring. -/
structure System.Starved (s : System) : Prop where
  fill : s.socket.ring.fill.cons = s.socket.ring.fill.prod
  rx : s.socket.ring.rx.cons = s.socket.ring.rx.prod

namespace System

variable {s : System}

/-- The sender and the kernel's side of its rings leave the fill ring and the RX ring alone. -/
theorem receiveRings_step (s : System) (e : Event) :
    (s.step e).socket.ring.fill = s.socket.ring.fill ∧
      (s.step e).socket.ring.rx = s.socket.ring.rx := by
  cases e with
  | send req =>
    simp only [step]
    cases s.sender <;> exact ⟨rfl, rfl⟩
  | advance =>
    change s.advance.socket.ring.fill = _ ∧ s.advance.socket.ring.rx = _
    rcases hs : s.sender with result | ⟨req, attempt⟩ |
      ⟨req, attempt, _ | ⟨⟨off, len⟩, rest⟩, addrs⟩
    · rw [advance_idle hs]
      exact ⟨rfl, rfl⟩
    · rw [advance_reclaim hs]
      simp only [RealSocket.reclaim, RingMmap.compPop_eq, and_self]
    · rw [(advance_transmit hs).1, ring_transmit, RingMmap.txPush_eq]
      exact ⟨rfl, rfl⟩
    · rw [advance_alloc hs]
      exact ⟨congrArg RingMmap.fill (ring_alloc s.socket),
        congrArg RingMmap.rx (ring_alloc s.socket)⟩
  | consume =>
    simp only [step, RingMmap.kernelConsume]
    cases s.socket.ring.tx.contents <;> exact ⟨rfl, rfl⟩
  | complete i =>
    simp only [step]
    cases s.kernel[i]? with
    | none => exact ⟨rfl, rfl⟩
    | some d =>
      simp only
      cases hc : s.socket.ring.kernelComplete d with
      | none => exact ⟨rfl, rfl⟩
      | some ring =>
        unfold RingMmap.kernelComplete at hc
        split_ifs at hc
        cases hc
        exact ⟨rfl, rfl⟩

theorem contents_eq_nil {r : RingBuffer UInt64 32} (h : r.cons = r.prod) : r.contents = [] := by
  have hused := RingBuffer.used_eq_zero_iff.mpr h
  rw [RingBuffer.contents, hused, RingBuffer.read, Nat.zero_min, Nat.zero_sub]
  rfl

theorem ringPop_of_cons_eq_prod {r : RingBuffer UInt64 32} (h : r.cons = r.prod) (max : ℕ) :
    ringPop r max = ([], r) := by
  simp only [ringPop, RingBuffer.used_eq_zero_iff.mpr h, if_true]

/-- **No step feeds a starved socket**, and a starved socket returns nothing. -/
theorem Starved.step (h : s.Starved) (e : DuplexEvent) : (e.step s).Starved ∧ e.polled s = [] := by
  cases e with
  | transmit e =>
    obtain ⟨hfill, hrx⟩ := s.receiveRings_step e
    refine ⟨⟨?_, ?_⟩, rfl⟩
    · simp only [DuplexEvent.step, hfill, h.fill]
    · simp only [DuplexEvent.step, hrx, h.rx]
  | receive packet =>
    have hreceive : s.socket.receive packet = s.socket := by
      simp only [RealSocket.receive, RingMmap.kernelReceive, contents_eq_nil h.fill]
    refine ⟨⟨?_, ?_⟩, rfl⟩
    · simp only [DuplexEvent.step, hreceive, h.fill]
    · simp only [DuplexEvent.step, hreceive, h.rx]
  | poll max =>
    have hpop := ringPop_of_cons_eq_prod h.rx max
    refine ⟨⟨h.fill, ?_⟩, ?_⟩
    · simp only [DuplexEvent.step, RealSocket.poll, RingMmap.rxPop, hpop, h.rx]
    · simp only [DuplexEvent.polled, RealSocket.poll, RingMmap.rxPop, hpop, List.map_nil]

end System

/-- **The socket never receives**: in every run of its methods and the kernel, over rings of any
capacity, whatever packets arrive, every `poll` returns nothing. -/
theorem poll_eq_nil (cfg : Config) (events : List DuplexEvent) :
    runLog DuplexEvent.step DuplexEvent.polled (System.new cfg) events = [] := by
  have hnew : (System.new cfg).Starved := ⟨rfl, rfl⟩
  have hstep : ∀ (s : System) (e : DuplexEvent), s.Starved →
      (e.step s).Starved ∧ ∀ p ∈ e.polled s, False := by
    intro s e h
    obtain ⟨hstarved, hnone⟩ := h.step e
    rw [hnone]
    exact ⟨hstarved, fun _ hp => List.not_mem_nil hp⟩
  exact List.eq_nil_iff_forall_not_mem.mpr
    (forall_mem_runLog System.Starved hstep hnew events).2

end SmipMwp.AfXdp
