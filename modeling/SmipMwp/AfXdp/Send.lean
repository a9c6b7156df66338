import SmipMwp.AfXdp.Ownership
import SmipMwp.Foundations.Runs
import Mathlib.Data.List.Induction

/-!
# What a send enqueues

One call of `send` makes up to nine attempts, each of which pushes its frames on the TX ring. A push
may take only the first few of them; the attempt is then made again from the start, and what was
pushed stays on the ring. `wasted` is what the attempts so far have left there: the call is
all-or-nothing exactly when nothing is wasted, and that is when every push finds room for all
packets or for none (`send_allOrNothing_iff`).

The state before the call and the steps of the kernel during it are arbitrary. The three logs
record what the steps of the sender do; on a well-formed ring `enqueuedBy` is what is added to its
contents (`contents_tx_run`).
-/

namespace SmipMwp.AfXdp

/-- The result of the last call, unless one is in progress. -/
def Sender.result : Sender → Option Bool
  | .idle result => result
  | _ => none

theorem Sender.result_eq_some {sender : Sender} {ok : Bool} (h : sender.result = some ok) :
    sender = .idle (some ok) := by
  cases sender with
  | idle result => rw [show result = some ok from h]
  | _ => cases h

namespace System

/-! ## The logs of a call -/

/-- The descriptors that the step puts on the TX ring: as many of the frames as `tx_push` says. -/
def enqueuedBy (s : System) : Event → List UInt64
  | .advance =>
    match s.sender with
    | .allocating _ _ [] addrs => addrs.take (s.socket.ring.txPush addrs).1
    | _ => []
  | _ => []

/-- The packet that the step copies, with the frame it is copied to. -/
def copiedBy (s : System) : Event → List ((ℕ × ℕ) × UInt64)
  | .advance =>
    match s.sender with
    | .allocating _ _ (packet :: _) _ => [(packet, s.socket.alloc.1)]
    | _ => []
  | _ => []

/-- The free slots of the TX ring that a push finds. -/
def roomAt (s : System) : Event → List ℕ
  | .advance =>
    match s.sender with
    | .allocating _ _ [] _ => [s.socket.ring.txFree]
    | _ => []
  | _ => []

/-- The descriptor that the kernel takes off the TX ring. -/
def consumedBy (s : System) : Event → List UInt64
  | .consume => (s.socket.ring.kernelConsume.map Prod.fst).toList
  | _ => []

/-! ## The steps -/

variable {s : System}

theorem fst_txPush (r : RingMmap) (addrs : List UInt64) :
    (r.txPush addrs).1 = min r.txFree addrs.length := by
  unfold RingMmap.txPush
  split_ifs with h0
  · rw [h0, Nat.zero_min]
  · rfl

/-- The end of an attempt, by what `tx_push` says. -/
theorem sender_transmit {req : Request} {attempt : ℕ} {addrs : List UInt64}
    (hs : s.sender = .allocating req attempt [] addrs) :
    s.advance.sender =
      if min s.socket.ring.txFree addrs.length = addrs.length then .idle (some true)
      else if attempt = maxRetries then .idle (some false)
      else .reclaiming req (attempt + 1) := by
  simp only [advance, hs, RealSocket.transmit, fst_txPush]
  by_cases hall : min s.socket.ring.txFree addrs.length = addrs.length
  · rw [if_pos hall, if_pos hall]
  · rw [if_neg hall, if_neg hall]

/-- The kernel leaves the sender where it is. -/
theorem sender_step_of_ne_advance {e : Event} (hadv : e ≠ .advance) (hsend : ∀ req, e ≠ .send req) :
    (s.step e).sender = s.sender := by
  cases e with
  | send req => exact absurd rfl (hsend req)
  | advance => exact absurd rfl hadv
  | consume =>
    simp only [step]
    cases s.socket.ring.kernelConsume <;> rfl
  | complete i =>
    simp only [step]
    cases s.kernel[i]? with
    | none => rfl
    | some d =>
      simp only
      cases s.socket.ring.kernelComplete d <;> rfl

/-! ## Where a call is -/

/-- What the sender has done in a call for `req`, by where it is, when all attempts before this one
have left the frames `wasted` on the TX ring. -/
def Progress (req : Request) (wasted enqueued : List UInt64)
    (copied : List ((ℕ × ℕ) × UInt64)) : Sender → Prop
  | .idle none => False
  | .idle (some true) =>
    ∃ last, last <:+ copied ∧ last.map Prod.fst = req.offsets ∧
      enqueued = wasted ++ last.map Prod.snd
  | .idle (some false) => enqueued = wasted
  | .reclaiming req' _ => req' = req ∧ enqueued = wasted
  | .allocating req' _ rest addrs =>
    req' = req ∧ enqueued = wasted ∧
      ∃ cur, cur <:+ copied ∧ cur.map Prod.fst ++ rest = req.offsets ∧ cur.map Prod.snd = addrs

/-- A push has room for all packets of the request, or for none. -/
def Roomy (req : Request) (free : ℕ) : Prop := free = 0 ∨ req.offsets.length ≤ free

variable {req : Request} {wasted enqueued : List UInt64} {copied : List ((ℕ × ℕ) × UInt64)}

/-- **The end of an attempt**: all frames are enqueued, or some are wasted, or there was no room. -/
theorem Progress.transmit {attempt : ℕ} {addrs : List UInt64}
    (hs : s.sender = .allocating req attempt [] addrs)
    (h : Progress req wasted enqueued copied s.sender) :
    ∃ w, Progress req (wasted ++ w) (enqueued ++ addrs.take (s.socket.ring.txPush addrs).1) copied
        s.advance.sender ∧
      (w = [] ↔ Roomy req s.socket.ring.txFree) := by
  rw [hs] at h
  obtain ⟨-, rfl, cur, hsuffix, hpackets, haddrs⟩ := h
  rw [List.append_nil] at hpackets
  have hlen : addrs.length = req.offsets.length := by
    rw [← haddrs, ← hpackets, List.length_map, List.length_map]
  rw [sender_transmit hs, fst_txPush]
  by_cases hall : min s.socket.ring.txFree addrs.length = addrs.length
  · refine ⟨[], ?_, iff_of_true rfl (.inr (by omega))⟩
    rw [if_pos hall, hall, List.take_length]
    exact ⟨cur, hsuffix, hpackets, by rw [List.append_nil, haddrs]⟩
  · refine ⟨addrs.take (min s.socket.ring.txFree addrs.length), ?_, ?_⟩
    · rw [if_neg hall]
      split_ifs
      · rfl
      · exact ⟨rfl, rfl⟩
    · rw [← List.length_eq_zero_iff, List.length_take, Roomy]
      omega

/-- **One step of a call.** -/
theorem Progress.step {e : Event} (hsend : ∀ req', e ≠ .send req')
    (h : Progress req wasted enqueued copied s.sender) :
    ∃ w, Progress req (wasted ++ w) (enqueued ++ s.enqueuedBy e) (copied ++ s.copiedBy e)
        (s.step e).sender ∧
      (w = [] ↔ ∀ free ∈ s.roomAt e, Roomy req free) := by
  by_cases hadv : e = .advance
  · subst hadv
    change ∃ w, Progress req _ _ _ s.advance.sender ∧ _
    rcases hs : s.sender with result | ⟨req', attempt⟩ |
      ⟨req', attempt, _ | ⟨⟨off, len⟩, rest⟩, addrs⟩
    · refine ⟨[], ?_, by simp [roomAt, hs]⟩
      rw [advance_idle hs]
      simpa [enqueuedBy, copiedBy, hs] using h
    · rw [hs] at h
      obtain ⟨rfl, henq⟩ := h
      rw [advance_reclaim hs]
      refine ⟨[], ⟨rfl, ?_, [], List.nil_suffix, rfl, rfl⟩, by simp [roomAt, hs]⟩
      simp [enqueuedBy, hs, henq]
    · obtain rfl : req' = req := by
        rw [hs] at h
        exact h.1
      obtain ⟨w, hprogress, hw⟩ := h.transmit hs
      exact ⟨w, by simpa [enqueuedBy, copiedBy, hs] using hprogress, by simpa [roomAt, hs] using hw⟩
    · rw [hs] at h
      obtain ⟨rfl, henq, cur, ⟨earlier, rfl⟩, hpackets, haddrs⟩ := h
      rw [advance_alloc hs]
      refine ⟨[], ⟨rfl, ?_, cur ++ [((off, len), s.socket.alloc.1)], ⟨earlier, ?_⟩, ?_, ?_⟩,
        by simp [roomAt, hs]⟩
      · simp [enqueuedBy, hs, henq]
      · simp [copiedBy, hs]
      · simpa using hpackets
      · simp [haddrs]
  · refine ⟨[], ?_, ?_⟩
    · rw [sender_step_of_ne_advance hadv hsend]
      cases e with
      | advance => exact absurd rfl hadv
      | _ => simpa [enqueuedBy, copiedBy] using h
    · cases e with
      | advance => exact absurd rfl hadv
      | _ => simp [roomAt]

/-! ## The logs and the ring -/

theorem ring_alloc (s : RealSocket) : s.alloc.2.ring = s.ring := by
  unfold RealSocket.alloc
  split <;> rfl

theorem ring_transmit (s : RealSocket) (addrs : List UInt64) :
    (s.transmit addrs).2.ring = (s.ring.txPush addrs).2 := by
  unfold RealSocket.transmit
  rcases s.ring.txPush addrs with ⟨pushed, ring⟩
  simp only
  split_ifs <;> rfl

/-- A step takes from the front of a well-formed TX ring what the kernel consumes, and adds at its
end what the sender enqueues. -/
theorem contents_tx_step (h : s.socket.ring.Wf) (e : Event) :
    (s.step e).socket.ring.Wf ∧ s.socket.ring.tx.contents ++ s.enqueuedBy e =
      s.consumedBy e ++ (s.step e).socket.ring.tx.contents := by
  cases e with
  | send req =>
    simp only [step]
    cases s.sender <;> exact ⟨h, List.append_nil _⟩
  | advance =>
    change s.advance.socket.ring.Wf ∧ _ = s.advance.socket.ring.tx.contents
    rcases hs : s.sender with result | ⟨req, attempt⟩ |
      ⟨req, attempt, _ | ⟨⟨off, len⟩, rest⟩, addrs⟩
    · rw [advance_idle hs]
      exact ⟨h, by simp [enqueuedBy, hs]⟩
    · obtain ⟨hwf, htx, -⟩ := RingMmap.comp_compPop h 64
      rw [advance_reclaim hs]
      refine ⟨hwf, ?_⟩
      simp only [enqueuedBy, hs, List.append_nil]
      exact (congrArg RingBuffer.contents htx).symm
    · obtain ⟨hwf, -, htx⟩ := RingMmap.tx_txPush h addrs
      rw [(advance_transmit hs).1, ring_transmit]
      exact ⟨hwf, by simp only [enqueuedBy, hs, htx]⟩
    · rw [advance_alloc hs]
      simp only [RealSocket.copy, ring_alloc]
      exact ⟨h, by simp [enqueuedBy, hs]⟩
  | consume =>
    simp only [step, consumedBy, enqueuedBy, List.append_nil]
    cases hc : s.socket.ring.kernelConsume with
    | none => exact ⟨h, rfl⟩
    | some p =>
      obtain ⟨d, ring⟩ := p
      obtain ⟨hwf, -, htx⟩ := RingMmap.kernelConsume_eq_some h hc
      exact ⟨hwf, htx⟩
  | complete i =>
    simp only [step, consumedBy, enqueuedBy, List.append_nil, List.nil_append]
    cases s.kernel[i]? with
    | none => exact ⟨h, rfl⟩
    | some d =>
      simp only
      cases hc : s.socket.ring.kernelComplete d with
      | none => exact ⟨h, rfl⟩
      | some ring =>
        obtain ⟨hwf, htx, -⟩ := RingMmap.kernelComplete_eq_some h hc
        exact ⟨hwf, congrArg RingBuffer.contents htx.symm⟩

/-- **The log of a run is what its sender adds to the TX ring.** -/
theorem contents_tx_run (h : s.socket.ring.Wf) (events : List Event) :
    (events.foldl step s).socket.ring.Wf ∧
      s.socket.ring.tx.contents ++ runLog step enqueuedBy s events =
        runLog step consumedBy s events ++ (events.foldl step s).socket.ring.tx.contents :=
  runLog_balance (fun s : System => s.socket.ring.Wf) (·.socket.ring.tx.contents)
    (fun _ e h => contents_tx_step h e) h events

/-! ## A call -/

/-- What a call of `send` in the state `s` logs, with the steps `events` after the call. -/
def callLog {ε : Type*} (emit : System → Event → List ε) (s : System) (req : Request)
    (events : List Event) : List ε :=
  runLog step emit (s.step (.send req)) events

/-- **A call of `send`** that has returned: the sender was idle, the steps are its own and those of
the kernel, and it is idle again, with the result `ok`. -/
structure Call (s : System) (req : Request) (events : List Event) (ok : Bool) : Prop where
  idle : ∃ result, s.sender = .idle result
  alone : ∀ req', .send req' ∉ events
  returned : (events.foldl step (s.step (.send req))).sender.result = some ok

/-- **All or nothing.** A call that returns `Ok` enqueued one descriptor for each packet, in packet
order: the frames to which its last attempt copied the packets. A call that returns `Err`
enqueued none. -/
def AllOrNothing (req : Request) (enqueued : List UInt64)
    (copied : List ((ℕ × ℕ) × UInt64)) : Bool → Prop
  | true =>
    ∃ last, last <:+ copied ∧ last.map Prod.fst = req.offsets ∧ enqueued = last.map Prod.snd
  | false => enqueued = []

theorem progress_call (req : Request) {events : List Event}
    (hidle : ∃ result, s.sender = .idle result) (halone : ∀ req', .send req' ∉ events) :
    ∃ w, Progress req w (callLog enqueuedBy s req events) (callLog copiedBy s req events)
        (events.foldl step (s.step (.send req))).sender ∧
      (w = [] ↔ ∀ free ∈ callLog roomAt s req events, Roomy req free) := by
  obtain ⟨result, hidle⟩ := hidle
  induction events using List.reverseRecOn with
  | nil =>
    refine ⟨[], ?_, by simp [callLog]⟩
    simp only [List.foldl_nil, step, hidle]
    exact ⟨rfl, rfl⟩
  | append_singleton events e ih =>
    obtain ⟨w, hprogress, hw⟩ := ih fun req' h => halone req' (List.mem_append_left _ h)
    have hsend : ∀ req', e ≠ .send req' := fun req' he =>
      halone req' (List.mem_append_right _ (he ▸ List.mem_singleton_self e))
    obtain ⟨w', hprogress', hw'⟩ := hprogress.step hsend
    refine ⟨w ++ w', ?_, ?_⟩
    · simpa only [callLog, runLog_append_singleton, List.foldl_append, List.foldl_cons,
        List.foldl_nil] using hprogress'
    · simp only [callLog, runLog_append_singleton, List.forall_mem_append,
        List.append_eq_nil_iff] at hw hw' ⊢
      rw [hw, hw']

end System

/-- **A call of `send` is all-or-nothing exactly when** every `tx_push` it makes finds room on the
TX ring for all its packets or for none, from any state of the socket, with any steps of the
kernel in between. -/
theorem send_allOrNothing_iff {s : System} {req : Request} {events : List Event} {ok : Bool}
    (h : s.Call req events ok) :
    System.AllOrNothing req (System.callLog System.enqueuedBy s req events)
        (System.callLog System.copiedBy s req events) ok ↔
      ∀ free ∈ System.callLog System.roomAt s req events,
        free = 0 ∨ req.offsets.length ≤ free := by
  obtain ⟨w, hprogress, hw⟩ := System.progress_call req h.idle h.alone
  rw [Sender.result_eq_some h.returned] at hprogress
  refine Iff.trans ?_ hw
  cases ok with
  | false => rw [System.AllOrNothing, show _ = w from hprogress]
  | true =>
    obtain ⟨last, hsuffix, hpackets, henq⟩ := hprogress
    constructor
    · rintro ⟨last', -, hpackets', henq'⟩
      -- both attempts have a descriptor for every packet
      have hlen := congrArg List.length (henq.symm.trans henq')
      have hsame := congrArg List.length (hpackets.trans hpackets'.symm)
      simp only [List.length_append, List.length_map] at hlen hsame
      exact List.length_eq_zero_iff.mp (by omega)
    · rintro rfl
      exact ⟨last, hsuffix, hpackets, henq⟩

/-- Two packets, and a ring of two descriptors that are taken: the first attempt finds no room, and
the second, after the kernel has taken two frames, room for both. -/
theorem send_allOrNothing_retried :
    let s := System.run smallConfig
      [.send (bytePackets 2), .advance, .advance, .advance, .advance]
    let events : List Event :=
      [.advance, .advance, .advance, .advance, .consume, .consume, .advance, .advance, .advance,
        .advance]
    s.Call (bytePackets 2) events true ∧
      System.AllOrNothing (bytePackets 2)
        (System.callLog System.enqueuedBy s (bytePackets 2) events)
        (System.callLog System.copiedBy s (bytePackets 2) events) true := by
  intro s events
  have hcall : s.Call (bytePackets 2) events true :=
    ⟨⟨_, Sender.result_eq_some (by decide +kernel : s.sender.result = some true)⟩,
      fun req' h => by simp [events] at h, by decide +kernel⟩
  refine ⟨hcall, (send_allOrNothing_iff hcall).mpr ?_⟩
  decide +kernel

/-- Three packets find two free descriptors. The first attempt pushes two frames, the other eight
find the ring full, and the call returns `Err` with two descriptors enqueued. -/
theorem send_not_allOrNothing : ¬ ∀ (s : System) (req : Request) (events : List Event) (ok : Bool),
    s.Call req events ok → System.AllOrNothing req
      (System.callLog System.enqueuedBy s req events)
      (System.callLog System.copiedBy s req events) ok := by
  intro h
  have hcall : (System.new smallConfig).Call (bytePackets 3) (List.replicate 45 .advance) false :=
    ⟨⟨none, rfl⟩, fun req' h => by simpa using List.eq_of_mem_replicate h, by decide +kernel⟩
  have hnone := h _ _ _ _ hcall
  have htwo : System.callLog System.enqueuedBy (.new smallConfig) (bytePackets 3)
      (List.replicate 45 .advance) = [0, 2048] := by decide +kernel
  rw [System.AllOrNothing, htwo] at hnone
  cases hnone

end SmipMwp.AfXdp
