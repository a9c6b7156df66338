import SmipMwp.AfXdp.Send
import Mathlib.Data.List.Perm.Subperm

/-!
# No frame is lost

`owners_le` says that no frame is in two places. In the same runs none is lost either: the free list
is made with room for all frames, so what comes back to it is never dropped, and the places together
hold every frame of UMEM exactly once (`frames_conserved`).

Counting the frames then gives more. If the TX ring has a descriptor for each of them, what is on
the ring and what the sender has in its hand are different frames, so a push always finds room: no
call of `send` ever fails, or needs a second attempt, as long as the free list can serve it
(`send_ok_of_frames_le`).
-/

namespace SmipMwp.AfXdp

/-! ## The free list keeps its limit -/

namespace FreeList

variable {f : FreeList}

theorem limit_tryPush (h : f.Wf) (v : UInt64) : (f.tryPush v).2.limit = f.limit := by
  by_cases hlt : f.ring.used < f.limit
  · rw [(h.tryPush v).limit_eq, h.limit_eq, tryPush_of_lt h v hlt,
      RingBuffer.capacity_push h.ring (h.room v hlt)]
  · rw [tryPush_of_le v (Nat.le_of_not_lt hlt)]

theorem limit_pushAll (h : f.Wf) (vs : List UInt64) : (f.pushAll vs).limit = f.limit := by
  unfold FreeList.pushAll
  induction vs generalizing f with
  | nil => rfl
  | cons v vs ih => rw [List.foldl_cons, ih (h.tryPush v), limit_tryPush h]

theorem limit_tryPop (f : FreeList) : f.tryPop.2.limit = f.limit := by
  rw [tryPop]
  split_ifs <;> rfl

end FreeList

namespace System

instance decidableFits (s : System) : (e : Event) → Decidable (s.Fits e)
  | .advance =>
    match s with
    | ⟨_, _, .idle _⟩ => inferInstanceAs (Decidable True)
    | ⟨_, _, .reclaiming _ _⟩ => inferInstanceAs (Decidable True)
    | ⟨socket, _, .allocating _ _ (_ :: _) _⟩ =>
      inferInstanceAs (Decidable (socket.freeList.contents ≠ []))
    | ⟨socket, _, .allocating _ _ [] addrs⟩ =>
      inferInstanceAs (Decidable (addrs.length ≤ socket.ring.txFree ∨ socket.ring.txFree = 0))
  | .send _ | .consume | .complete _ => inferInstanceAs (Decidable True)

/-! ## The places together -/

/-- The offsets in the free list, on the TX ring, with the kernel, on the completion ring and in the
hand of the sender. -/
def places (s : System) : List UInt64 :=
  s.socket.freeList.contents ++ s.socket.ring.tx.contents ++ s.kernel ++
    s.socket.ring.comp.contents ++ s.inHand

theorem count_places (s : System) (a : UInt64) : s.places.count a = s.owners a := by
  simp only [places, owners, occurrences, List.count_append]

/-- Every one of these frames is in one place, and the free list has room for them all. -/
structure Conserved (frames : List UInt64) (s : System) : Prop where
  wf : s.socket.Wf
  perm : s.places.Perm frames
  room : frames.length ≤ s.socket.freeList.limit

variable {frames : List UInt64} {s : System}

namespace Conserved

theorem inv (h : s.Conserved frames) (hnodup : frames.Nodup) : s.Inv where
  wf := h.wf
  owners_le a := by
    rw [← count_places, h.perm.count_eq]
    exact List.nodup_iff_count_le_one.mp hnodup a

theorem length_places (h : s.Conserved frames) :
    s.socket.freeList.ring.used + s.socket.ring.tx.used + s.kernel.length +
      s.socket.ring.comp.used + s.inHand.length = frames.length := by
  have hlen := h.perm.length_eq
  simp only [places, List.length_append, FreeList.contents,
    RingBuffer.length_contents h.wf.freeList.ring, RingBuffer.length_contents h.wf.ring.tx,
    RingBuffer.length_contents h.wf.ring.comp] at hlen
  exact hlen

/-! ## What a step keeps -/

/-- Completed frames all find room in the free list. -/
theorem reclaim (h : s.Conserved frames) {req : Request} {attempt : ℕ}
    (hs : s.sender = .reclaiming req attempt) : s.advance.Conserved frames := by
  obtain ⟨hring, htx, hcomp⟩ := RingMmap.comp_compPop h.wf.ring 64
  have hroom : s.socket.freeList.ring.used + (s.socket.ring.compPop 64).1.length ≤
      s.socket.freeList.limit := by
    have hlen := h.length_places
    have hcompLen := congrArg List.length hcomp
    rw [RingBuffer.length_contents h.wf.ring.comp, List.length_append] at hcompLen
    have := h.room
    omega
  have hfree := FreeList.contents_pushAll h.wf.freeList hroom
  have hplaces : s.advance.places.Perm s.places := by
    have hinHand : s.inHand = [] := by simp only [inHand, hs]
    have hhand : s.advance.inHand = [] := by simp only [advance_reclaim hs, inHand]
    rw [List.perm_iff_count]
    intro a
    have hcount := congrArg (List.count a) hcomp
    simp only [places, hhand, hinHand]
    simp only [advance_reclaim hs, RealSocket.reclaim, hfree, htx, List.count_append,
      List.count_nil] at hcount ⊢
    omega
  have hwf : s.advance.socket.Wf := by
    rw [advance_reclaim hs]
    exact ⟨h.wf.freeList.pushAll _, hring⟩
  refine ⟨hwf, hplaces.trans h.perm, ?_⟩
  rw [advance_reclaim hs]
  exact h.room.trans (FreeList.limit_pushAll h.wf.freeList _).ge

/-- An allocation takes a frame out of the free list into the hand. -/
theorem alloc (h : s.Conserved frames) {req : Request} {attempt off len : ℕ}
    {rest : List (ℕ × ℕ)} {addrs : List UInt64}
    (hs : s.sender = .allocating req attempt ((off, len) :: rest) addrs)
    (hfree : s.socket.freeList.contents ≠ []) : s.advance.Conserved frames := by
  obtain ⟨hwf, hring, -, hcons⟩ := RealSocket.alloc_spec h.wf hfree
  have hplaces : s.advance.places.Perm s.places := by
    rw [advance_alloc hs, List.perm_iff_count]
    intro a
    simp only [places, inHand, hs, RealSocket.copy, hring, hcons, List.count_append,
      List.count_cons, List.count_nil]
    omega
  have hlimit : s.socket.alloc.2.freeList.limit = s.socket.freeList.limit := by
    rw [RealSocket.alloc]
    split
    · next f freeList hpop =>
      have hlim := FreeList.limit_tryPop s.socket.freeList
      rwa [hpop] at hlim
    · rfl
  rw [advance_alloc hs] at hplaces ⊢
  exact ⟨⟨hwf.freeList, hwf.ring⟩, hplaces.trans h.perm, h.room.trans hlimit.ge⟩

/-- The frames of an attempt go to the TX ring, or back to the free list. -/
theorem transmit (h : s.Conserved frames) {req : Request} {attempt : ℕ} {addrs : List UInt64}
    (hs : s.sender = .allocating req attempt [] addrs)
    (hfits : addrs.length ≤ s.socket.ring.txFree ∨ s.socket.ring.txFree = 0) :
    s.advance.Conserved frames := by
  obtain ⟨hring, hcomp, htx⟩ := RingMmap.tx_txPush h.wf.ring addrs
  obtain ⟨hsocket, hkernel, hhand⟩ := advance_transmit hs
  have hinHand : s.inHand = addrs := by simp only [inHand, hs]
  have hroom : s.socket.freeList.ring.used + addrs.length ≤ s.socket.freeList.limit := by
    have hlen := h.length_places
    rw [hinHand] at hlen
    have := h.room
    omega
  have hback := FreeList.contents_pushAll h.wf.freeList hroom
  rw [fst_txPush] at htx
  by_cases hall : min s.socket.ring.txFree addrs.length = addrs.length
  · have hpush : s.advance.socket = { s.socket with ring := (s.socket.ring.txPush addrs).2 } := by
      rw [hsocket]
      simp only [RealSocket.transmit, fst_txPush, if_pos hall]
    rw [hall, List.take_length] at htx
    have hplaces : s.advance.places.Perm s.places := by
      rw [List.perm_iff_count]
      intro a
      simp only [places, hpush, hkernel, hhand, hinHand, hcomp, htx, List.count_append,
        List.count_nil]
      omega
    refine ⟨?_, hplaces.trans h.perm, ?_⟩
    · rw [hpush]
      exact ⟨h.wf.freeList, hring⟩
    · rw [hpush]
      exact h.room
  · have hnone : min s.socket.ring.txFree addrs.length = 0 := by omega
    have hpush : s.advance.socket =
        { s.socket with
          ring := (s.socket.ring.txPush addrs).2
          freeList := s.socket.freeList.pushAll addrs } := by
      rw [hsocket]
      simp only [RealSocket.transmit, fst_txPush, if_neg hall]
    rw [hnone, List.take_zero, List.append_nil] at htx
    have hplaces : s.advance.places.Perm s.places := by
      rw [List.perm_iff_count]
      intro a
      simp only [places, hpush, hkernel, hhand, hinHand, hcomp, htx, hback, List.count_append,
        List.count_nil]
      omega
    refine ⟨?_, hplaces.trans h.perm, ?_⟩
    · rw [hpush]
      exact ⟨h.wf.freeList.pushAll _, hring⟩
    · rw [hpush]
      exact h.room.trans (FreeList.limit_pushAll h.wf.freeList _).ge

theorem advance (h : s.Conserved frames) (hfits : s.Fits .advance) :
    s.advance.Conserved frames := by
  rcases hs : s.sender with result | ⟨req, attempt⟩ | ⟨req, attempt, _ | ⟨⟨off, len⟩, rest⟩, addrs⟩
  · rwa [advance_idle hs]
  · exact h.reclaim hs
  · simp only [Fits, hs] at hfits
    exact h.transmit hs hfits
  · simp only [Fits, hs] at hfits
    exact h.alloc hs hfits

/-- The kernel takes a descriptor off the TX ring. -/
theorem consume (h : s.Conserved frames) : (s.step .consume).Conserved frames := by
  simp only [step]
  cases hc : s.socket.ring.kernelConsume with
  | none => exact h
  | some p =>
    obtain ⟨d, ring⟩ := p
    obtain ⟨hring, hcomp, htx⟩ := RingMmap.kernelConsume_eq_some h.wf.ring hc
    refine ⟨⟨h.wf.freeList, hring⟩, List.Perm.trans ?_ h.perm, h.room⟩
    rw [List.perm_iff_count]
    intro a
    simp only [places, inHand, hcomp, htx, List.count_append, List.count_cons, List.count_nil]
    omega

/-- The kernel completes a frame. -/
theorem complete (h : s.Conserved frames) (i : ℕ) : (s.step (.complete i)).Conserved frames := by
  simp only [step]
  cases hk : s.kernel[i]? with
  | none => exact h
  | some d =>
    simp only
    cases hc : s.socket.ring.kernelComplete d with
    | none => exact h
    | some ring =>
      obtain ⟨hring, htx, hcomp⟩ := RingMmap.kernelComplete_eq_some h.wf.ring hc
      refine ⟨⟨h.wf.freeList, hring⟩, List.Perm.trans ?_ h.perm, h.room⟩
      have hkernel : (d :: s.kernel.eraseIdx i).Perm s.kernel := by
        obtain ⟨hi, rfl⟩ := List.getElem?_eq_some_iff.mp hk
        exact List.getElem_cons_eraseIdx_perm hi
      rw [List.perm_iff_count]
      intro a
      have hcount := hkernel.count_eq a
      simp only [places, inHand, htx, hcomp, List.count_append, List.count_cons,
        List.count_nil] at hcount ⊢
      omega

/-- **No step that fits loses a frame.** -/
theorem step (h : s.Conserved frames) {e : Event} (hfits : s.Fits e) :
    (s.step e).Conserved frames := by
  cases e with
  | send req =>
    simp only [System.step]
    cases hs : s.sender with
    | idle result =>
      refine ⟨h.wf, ?_, h.room⟩
      have hperm := h.perm
      simpa only [places, inHand, hs] using hperm
    | _ => exact h
  | advance => exact h.advance hfits
  | consume => exact h.consume
  | complete i => exact h.complete i

end Conserved

end System

/-! ## Runs -/

/-- The offsets of all frames of the UMEM of a socket. -/
def Config.frames (cfg : Config) : List UInt64 :=
  RealSocket.frameOffsets cfg.umemFrameSize (cfg.umemFrameSize * cfg.umemPages / cfg.umemFrameSize)

theorem Config.nodup_frames (cfg : Config) : cfg.frames.Nodup :=
  System.nodup_frameOffsets cfg.frameSize_pos ((Nat.div_mul_le_self _ _).trans_lt cfg.umem_lt)

theorem Config.length_frames (cfg : Config) : cfg.frames.length = cfg.umemPages := by
  rw [frames, RealSocket.frameOffsets, List.length_map, List.length_range,
    Nat.mul_div_cancel_left _ cfg.frameSize_pos]

/-- The rings of the configuration are queues: their capacities are powers of two. -/
structure Config.Queues (cfg : Config) : Prop where
  tx : ∃ k < 32, cfg.offs.txCap = 2 ^ k
  comp : ∃ k < 32, cfg.offs.compCap cfg.mapSize = 2 ^ k

namespace System

theorem conserved_new {cfg : Config} (h : cfg.Queues) : (new cfg).Conserved cfg.frames := by
  have hinv := inv_new h.tx h.comp
  have hslots := cfg.freeList_lt.trans (show 2 ^ 60 < 2 ^ 64 by decide)
  have htx : (new cfg).socket.ring.tx.contents = [] :=
    RingBuffer.contents_of_used_eq_zero hinv.wf.ring.tx (RingBuffer.used_eq_zero_iff.mpr rfl)
  have hcomp : (new cfg).socket.ring.comp.contents = [] :=
    RingBuffer.contents_of_used_eq_zero hinv.wf.ring.comp (RingBuffer.used_eq_zero_iff.mpr rfl)
  have hfree : (new cfg).socket.freeList.contents = cfg.frames := contents_freeList_new cfg
  refine ⟨hinv.wf, ?_, ?_⟩
  · have hplaces : (new cfg).places = cfg.frames ++ [] ++ [] ++ [] ++ [] := by
      rw [places, htx, hcomp, hfree]
      rfl
    rw [hplaces]
    simp only [List.append_nil]
    exact List.Perm.refl _
  · rw [cfg.length_frames]
    have hroom := FreeList.le_limit_withCapacity hslots
    rw [Nat.mul_div_cancel_left _ cfg.frameSize_pos] at hroom
    refine hroom.trans (le_of_eq ?_)
    change _ = ((FreeList.withCapacity _ cfg.freelistHeadroom).pushAll _).limit
    rw [FreeList.limit_pushAll (FreeList.withCapacity_wf hslots),
      Nat.mul_div_cancel_left _ cfg.frameSize_pos]

/-- Frames are conserved in every run all of whose steps fit. -/
theorem conserved_run {cfg : Config} (h : cfg.Queues) {events : List Event}
    (hfits : Along step Fits (new cfg) events) : (run cfg events).Conserved cfg.frames :=
  inv_along (Conserved cfg.frames) (fun _ _ h hfits => h.step hfits) (conserved_new h) hfits

end System

/-- **Frame conservation**: in every run whose steps fit, the free list, the TX ring, the kernel,
the completion ring and the hand of the sender together hold each frame of UMEM exactly once. -/
theorem frames_conserved (cfg : Config) (hqueues : cfg.Queues) (events : List Event)
    (hfits : Along System.step System.Fits (System.new cfg) events) :
    (System.run cfg events).places.Perm cfg.frames :=
  (System.conserved_run hqueues hfits).perm

/-- A packet is sent and completed, and another reclaims its frame. -/
theorem frames_conserved_twoPackets :
    (System.run smallConfig (onePacket ++ [.send (bytePackets 1), .advance, .advance])).places.Perm
      smallConfig.frames :=
  frames_conserved smallConfig ⟨⟨1, by decide, by decide⟩, ⟨1, by decide, by decide⟩⟩ _
    (by decide +kernel)

/-! ## A TX ring with a descriptor for each frame -/

/-- The call in progress is in its first attempt, and the last one did not fail. -/
def Sender.FirstAttempt : Sender → Prop
  | .idle result => result ≠ some false
  | .reclaiming _ attempt | .allocating _ attempt _ _ => attempt = 0

namespace System

/-- The free list has a frame when one is allocated. -/
def Stocked (s : System) : Event → Prop
  | .advance =>
    match s.sender with
    | .allocating _ _ (_ :: _) _ => s.socket.freeList.contents ≠ []
    | _ => True
  | _ => True

instance decidableStocked (s : System) : (e : Event) → Decidable (s.Stocked e)
  | .advance =>
    match s with
    | ⟨_, _, .idle _⟩ => inferInstanceAs (Decidable True)
    | ⟨_, _, .reclaiming _ _⟩ => inferInstanceAs (Decidable True)
    | ⟨socket, _, .allocating _ _ (_ :: _) _⟩ =>
      inferInstanceAs (Decidable (socket.freeList.contents ≠ []))
    | ⟨_, _, .allocating _ _ [] _⟩ => inferInstanceAs (Decidable True)
  | .send _ | .consume | .complete _ => inferInstanceAs (Decidable True)

/-- Frames are conserved, the TX ring has so many descriptors, and no attempt has failed. -/
structure Smooth (frames : List UInt64) (cap : ℕ) (s : System) : Prop where
  conserved : s.Conserved frames
  capacity : s.socket.ring.tx.capacity = cap
  sender : s.sender.FirstAttempt

variable {frames : List UInt64} {cap : ℕ} {s : System}

/-- What is on the TX ring and what is in the hand are different frames. -/
theorem Smooth.length_le_txFree (h : s.Smooth frames cap) (hcap : frames.length ≤ cap)
    {req : Request} {attempt : ℕ} {addrs : List UInt64}
    (hs : s.sender = .allocating req attempt [] addrs) :
    addrs.length ≤ s.socket.ring.txFree := by
  have hlen := h.conserved.length_places
  have hinHand : s.inHand = addrs := by simp only [inHand, hs]
  rw [hinHand] at hlen
  rw [RingMmap.txFree, h.capacity]
  omega

theorem Smooth.fits (h : s.Smooth frames cap) (hcap : frames.length ≤ cap) {e : Event}
    (hstocked : s.Stocked e) : s.Fits e := by
  cases e with
  | advance =>
    rcases hs : s.sender with result | ⟨req, attempt⟩ | ⟨req, attempt, _ | ⟨packet, rest⟩, addrs⟩
    · simp only [Fits, hs]
    · simp only [Fits, hs]
    · simp only [Fits, hs]
      exact .inl (h.length_le_txFree hcap hs)
    · simpa only [Fits, Stocked, hs] using hstocked
  | _ => trivial

/-- The end of an attempt is the end of the call. -/
theorem Smooth.firstAttempt_advance (h : s.Smooth frames cap) (hcap : frames.length ≤ cap) :
    s.advance.sender.FirstAttempt := by
  have hfirst := h.sender
  rcases hs : s.sender with result | ⟨req, attempt⟩ |
    ⟨req, attempt, _ | ⟨⟨off, len⟩, rest⟩, addrs⟩
  · rwa [advance_idle hs]
  · rw [hs] at hfirst
    rw [advance_reclaim hs]
    exact hfirst
  · rw [sender_transmit hs, if_pos (Nat.min_eq_right (h.length_le_txFree hcap hs))]
    exact fun hfailed => by cases hfailed
  · rw [hs] at hfirst
    rw [advance_alloc hs]
    exact hfirst

theorem capacity_tx_advance (h : s.socket.ring.Wf) :
    s.advance.socket.ring.tx.capacity = s.socket.ring.tx.capacity := by
  rcases hs : s.sender with result | ⟨req, attempt⟩ |
    ⟨req, attempt, _ | ⟨⟨off, len⟩, rest⟩, addrs⟩
  · rw [advance_idle hs]
  · obtain ⟨-, htx, -⟩ := RingMmap.comp_compPop h 64
    rw [advance_reclaim hs]
    exact congrArg RingBuffer.capacity htx
  · rw [(advance_transmit hs).1, ring_transmit, RingMmap.txPush_eq]
    exact (contents_ringPush h.tx addrs).2.1
  · rw [advance_alloc hs]
    exact congrArg (fun ring => ring.tx.capacity) (ring_alloc s.socket)

theorem capacity_tx_step (h : s.socket.ring.Wf) (e : Event) :
    (s.step e).socket.ring.tx.capacity = s.socket.ring.tx.capacity := by
  cases e with
  | send req =>
    simp only [step]
    cases s.sender <;> rfl
  | advance => exact capacity_tx_advance h
  | consume =>
    simp only [step, RingMmap.kernelConsume]
    cases s.socket.ring.tx.contents <;> rfl
  | complete i =>
    simp only [step]
    cases s.kernel[i]? with
    | none => rfl
    | some d =>
      simp only [RingMmap.kernelComplete]
      split_ifs <;> rfl

theorem Smooth.step (h : s.Smooth frames cap) (hcap : frames.length ≤ cap) {e : Event}
    (hstocked : s.Stocked e) : (s.step e).Smooth frames cap := by
  refine ⟨h.conserved.step (h.fits hcap hstocked),
    (capacity_tx_step h.conserved.wf.ring e).trans h.capacity, ?_⟩
  have hfirst := h.sender
  by_cases hadv : e = .advance
  · rw [hadv]
    exact h.firstAttempt_advance hcap
  · by_cases hsend : ∃ req, e = .send req
    · obtain ⟨req, rfl⟩ := hsend
      simp only [System.step]
      cases hs : s.sender with
      | idle result => exact rfl
      | _ => rwa [hs] at hfirst ⊢
    · rwa [sender_step_of_ne_advance hadv fun req he => hsend ⟨req, he⟩]

end System

/-- **A TX ring with a descriptor for each frame never pushes back**: in every run in which the free
list has a frame whenever one is allocated, no call of `send` fails or makes a second attempt, and
frames are conserved. -/
theorem send_ok_of_frames_le (cfg : Config) (hqueues : cfg.Queues)
    (hcap : cfg.umemPages ≤ cfg.offs.txCap) (events : List Event)
    (hstocked : Along System.step System.Stocked (System.new cfg) events) :
    (System.run cfg events).sender.FirstAttempt ∧
      (System.run cfg events).places.Perm cfg.frames := by
  have hframes : cfg.frames.length ≤ cfg.offs.txCap := cfg.length_frames.le.trans hcap
  have hnew : (System.new cfg).Smooth cfg.frames cfg.offs.txCap :=
    ⟨System.conserved_new hqueues, List.length_replicate, fun hfailed => by cases hfailed⟩
  have hrun := inv_along (System.Smooth cfg.frames cfg.offs.txCap)
    (fun _ _ h hstocked => h.step hframes hstocked) hnew hstocked
  exact ⟨hrun.sender, hrun.conserved.perm⟩

/-- Two frames, and two descriptors on each ring. -/
def twoFrames : Config :=
  { smallConfig with
    umemPages := 2
    umem_lt := by decide
    freeList_lt := by decide +kernel }

/-- Two packets fill the TX ring, and the call returns. -/
theorem send_ok_of_frames_le_two :
    (System.run twoFrames (.send (bytePackets 2) :: List.replicate 4 .advance)).sender.FirstAttempt ∧
      (System.run twoFrames (.send (bytePackets 2) :: List.replicate 4 .advance)).places.Perm
        twoFrames.frames :=
  send_ok_of_frames_le twoFrames ⟨⟨1, by decide, by decide⟩, ⟨1, by decide, by decide⟩⟩
    (by decide) _ (by decide +kernel)

end SmipMwp.AfXdp
