import SmipMwp.AfXdp.Socket
import Mathlib.Data.List.Nodup
import Mathlib.Data.List.Perm.Basic

/-!
# Frame ownership

Every frame of UMEM is meant to be in one place: in the free list, on the TX ring, with the kernel,
on the completion ring, or in the hand of the sender. `owners` counts the places an offset is in.
A step of the kernel moves a frame; a step of the sender moves frames too, except in two branches
of `send`. The bump allocator hands out a frame without regard to where it is, and after a partial
push the sender gives back the frames that it did push along with the others.

In a run that takes neither branch (`Fits`) no step increases `owners` (`step_spec`), so no
offset ever occurs twice and no packet is copied into a frame in flight (`run_owned`).
-/

namespace SmipMwp.AfXdp

/-! ## The steps of the sender on the places -/

namespace RealSocket

variable {s : RealSocket}

/-- The free list and the rings are well-formed. -/
structure Wf (s : RealSocket) : Prop where
  freeList : s.freeList.Wf
  ring : s.ring.Wf

theorem reclaim_spec (h : s.Wf) (a : UInt64) :
    s.reclaim.Wf ∧ s.reclaim.ring.tx = s.ring.tx ∧ s.reclaim.umem = s.umem ∧
      s.reclaim.freeList.contents.count a + s.reclaim.ring.comp.contents.count a ≤
        s.freeList.contents.count a + s.ring.comp.contents.count a := by
  obtain ⟨hring, htx, hcomp⟩ := RingMmap.comp_compPop h.ring 64
  have hpush := FreeList.count_pushAll_le h.freeList (s.ring.compPop 64).1 a
  refine ⟨⟨h.freeList.pushAll _, hring⟩, htx, rfl, ?_⟩
  rw [hcomp, List.count_append]
  change (s.freeList.pushAll (s.ring.compPop 64).1).contents.count a +
    (s.ring.compPop 64).2.comp.contents.count a ≤ _
  omega

/-- An allocation from the free list takes its first entry. -/
theorem alloc_spec (h : s.Wf) (hfree : s.freeList.contents ≠ []) :
    s.alloc.2.Wf ∧ s.alloc.2.ring = s.ring ∧ s.alloc.2.umem = s.umem ∧
      s.freeList.contents = s.alloc.1 :: s.alloc.2.freeList.contents := by
  obtain ⟨v, rest, hcons⟩ := List.exists_cons_of_ne_nil hfree
  obtain ⟨hsome, hwf, hrest⟩ := FreeList.tryPop_of_cons h.freeList hcons
  have halloc : s.alloc = (v, { s with freeList := s.freeList.tryPop.2 }) := by
    rw [alloc, ← Prod.mk.eta (p := s.freeList.tryPop), hsome]
  rw [halloc]
  exact ⟨⟨hwf, h.ring⟩, rfl, rfl, by rw [hcons, hrest]⟩

/-- An attempt that pushes all its frames or none moves them: to the TX ring, or back. -/
theorem transmit_spec (h : s.Wf) {addrs : List UInt64}
    (hfits : addrs.length ≤ s.ring.txFree ∨ s.ring.txFree = 0) (a : UInt64) :
    (s.transmit addrs).2.Wf ∧ (s.transmit addrs).2.ring.comp = s.ring.comp ∧
      (s.transmit addrs).2.umem = s.umem ∧
      (s.transmit addrs).2.freeList.contents.count a +
          (s.transmit addrs).2.ring.tx.contents.count a ≤
        s.freeList.contents.count a + addrs.count a + s.ring.tx.contents.count a := by
  obtain ⟨hring, hcomp, htx⟩ := RingMmap.tx_txPush h.ring addrs
  have heq : s.transmit addrs =
      if (s.ring.txPush addrs).1 = addrs.length then
        (true, { s with ring := (s.ring.txPush addrs).2 })
      else
        (false,
          { s with
            ring := (s.ring.txPush addrs).2
            freeList := s.freeList.pushAll addrs }) := rfl
  rw [heq]
  split_ifs with hall
  · refine ⟨⟨h.freeList, hring⟩, hcomp, rfl, ?_⟩
    rw [hall, List.take_length] at htx
    simp only [htx, List.count_append]
    omega
  · have hnone : (s.ring.txPush addrs).1 = 0 := by
      rcases hfits with hle | h0
      · refine absurd ?_ hall
        unfold RingMmap.txPush
        split_ifs with h0
        · simp only
          omega
        · exact Nat.min_eq_right hle
      · rw [RingMmap.txPush, if_pos h0]
    refine ⟨⟨h.freeList.pushAll _, hring⟩, hcomp, rfl, ?_⟩
    have hpush := FreeList.count_pushAll_le h.freeList addrs a
    rw [hnone, List.take_zero, List.append_nil] at htx
    simp only [htx]
    omega

end RealSocket

namespace System

/-! ## What a step keeps -/

/-- The number of places an offset is in, the sender's hand included. -/
def owners (s : System) (a : UInt64) : ℕ := s.occurrences a + s.inHand.count a

/-- **The step stays out of the two branches**: a frame is allocated only while the free list has
one, and a push finds room on the TX ring for all the frames of the attempt or for none. -/
def Fits (s : System) : Event → Prop
  | .advance =>
    match s.sender with
    | .allocating _ _ (_ :: _) _ => s.socket.freeList.contents ≠ []
    | .allocating _ _ [] addrs =>
      addrs.length ≤ s.socket.ring.txFree ∨ s.socket.ring.txFree = 0
    | _ => True
  | _ => True

structure Inv (s : System) : Prop where
  wf : s.socket.Wf
  owners_le : ∀ a, s.owners a ≤ 1

variable {s : System}

/-- A frame that the free list has is not in flight. -/
theorem Inv.not_mem_inFlight (h : s.Inv) {a : UInt64} (ha : a ∈ s.socket.freeList.contents) :
    a ∉ s.inFlight := by
  have hcount := List.count_pos_iff.mpr ha
  have hle := h.owners_le a
  simp only [owners, occurrences] at hle
  rw [inFlight, ← List.count_eq_zero, List.count_append]
  omega

theorem advance_idle {result : Option Bool} (hs : s.sender = .idle result) : s.advance = s := by
  simp only [advance, hs]

/-- The end of an attempt, whether it succeeds, is the last, or is followed by another. -/
theorem advance_transmit {req : Request} {attempt : ℕ} {addrs : List UInt64}
    (hs : s.sender = .allocating req attempt [] addrs) :
    s.advance.socket = (s.socket.transmit addrs).2 ∧ s.advance.kernel = s.kernel ∧
      s.advance.inHand = [] := by
  simp only [advance, hs]
  rcases s.socket.transmit addrs with ⟨_ | _, socket⟩
  · refine ⟨rfl, rfl, ?_⟩
    simp only [inHand]
    split_ifs <;> rfl
  · exact ⟨rfl, rfl, rfl⟩

theorem advance_alloc {req : Request} {attempt off len : ℕ} {rest : List (ℕ × ℕ)}
    {addrs : List UInt64} (hs : s.sender = .allocating req attempt ((off, len) :: rest) addrs) :
    s.advance =
      { s with
        socket := s.socket.alloc.2.copy s.socket.alloc.1 (slice req.buf off len)
        sender := .allocating req attempt rest (addrs ++ [s.socket.alloc.1]) } := by
  simp only [advance, hs]

theorem advance_reclaim {req : Request} {attempt : ℕ} (hs : s.sender = .reclaiming req attempt) :
    s.advance =
      { s with
        socket := s.socket.reclaim
        sender := .allocating req attempt req.offsets [] } := by
  simp only [advance, hs]

theorem advance_spec (h : s.Inv) (hfits : s.Fits .advance) (a : UInt64) :
    s.advance.socket.Wf ∧ s.advance.owners a ≤ s.owners a ∧
      (a ∈ s.inFlight → s.advance.socket.umem a = s.socket.umem a) := by
  rcases hs : s.sender with result | ⟨req, attempt⟩ | ⟨req, attempt, _ | ⟨⟨off, len⟩, rest⟩, addrs⟩
  · rw [advance_idle hs]
    exact ⟨h.wf, le_rfl, fun _ => rfl⟩
  · obtain ⟨hwf, htx, humem, hcount⟩ := RealSocket.reclaim_spec h.wf a
    rw [advance_reclaim hs]
    refine ⟨hwf, ?_, fun _ => by rw [humem]⟩
    simp only [owners, occurrences, inHand, hs, htx, List.count_nil]
    omega
  · simp only [Fits, hs] at hfits
    obtain ⟨hwf, hcomp, humem, hcount⟩ := RealSocket.transmit_spec h.wf hfits a
    obtain ⟨hsocket, hkernel, hhand⟩ := advance_transmit hs
    rw [owners, occurrences, hsocket, hkernel, hhand, hcomp]
    refine ⟨hwf, ?_, fun _ => by rw [humem]⟩
    simp only [owners, occurrences, inHand, hs, List.count_nil]
    omega
  · simp only [Fits, hs] at hfits
    obtain ⟨hwf, hring, humem, hcons⟩ := RealSocket.alloc_spec h.wf hfits
    rw [advance_alloc hs]
    refine ⟨⟨hwf.freeList, hwf.ring⟩, ?_, fun ha => ?_⟩
    · simp only [owners, occurrences, inHand, hs, RealSocket.copy, hring, hcons, List.count_append,
        List.count_cons, List.count_nil]
      omega
    · have hne : a ≠ s.socket.alloc.1 := by
        rintro rfl
        exact h.not_mem_inFlight (by rw [hcons]; exact List.mem_cons_self) ha
      simp only [RealSocket.copy, Function.update_of_ne hne, humem]

/-- **No step that fits adds a place** to an offset, and none writes to a frame in flight. -/
theorem step_spec (h : s.Inv) {e : Event} (hfits : s.Fits e) (a : UInt64) :
    (s.step e).socket.Wf ∧ (s.step e).owners a ≤ s.owners a ∧
      (a ∈ s.inFlight → (s.step e).socket.umem a = s.socket.umem a) := by
  cases e with
  | send req =>
    simp only [step]
    cases hs : s.sender with
    | idle result => exact ⟨h.wf, by simp [owners, occurrences, inHand, hs], fun _ => rfl⟩
    | _ => exact ⟨h.wf, le_rfl, fun _ => rfl⟩
  | advance => exact advance_spec h hfits a
  | consume =>
    simp only [step]
    cases hc : s.socket.ring.kernelConsume with
    | none => exact ⟨h.wf, le_rfl, fun _ => rfl⟩
    | some p =>
      obtain ⟨d, ring⟩ := p
      obtain ⟨hring, hcomp, htx⟩ := RingMmap.kernelConsume_eq_some h.wf.ring hc
      refine ⟨⟨h.wf.freeList, hring⟩, ?_, fun _ => rfl⟩
      simp only [owners, occurrences, inHand, hcomp, htx, List.count_append, List.count_cons,
        List.count_nil]
      omega
  | complete i =>
    simp only [step]
    cases hk : s.kernel[i]? with
    | none => exact ⟨h.wf, le_rfl, fun _ => rfl⟩
    | some d =>
      simp only
      cases hc : s.socket.ring.kernelComplete d with
      | none => exact ⟨h.wf, le_rfl, fun _ => rfl⟩
      | some ring =>
        obtain ⟨hring, htx, hcomp⟩ := RingMmap.kernelComplete_eq_some h.wf.ring hc
        refine ⟨⟨h.wf.freeList, hring⟩, ?_, fun _ => rfl⟩
        have hkernel : s.kernel.count a = (s.kernel.eraseIdx i).count a + [d].count a := by
          obtain ⟨hi, rfl⟩ := List.getElem?_eq_some_iff.mp hk
          rw [← (List.getElem_cons_eraseIdx_perm hi).count_eq, ← List.singleton_append,
            List.count_append, Nat.add_comm]
        simp only [owners, occurrences, inHand, htx, hcomp, hkernel, List.count_append]
        omega

/-! ## Runs -/

theorem nodup_frameOffsets {frameSize frames : ℕ} (hpos : 0 < frameSize)
    (hlt : frames * frameSize < 2 ^ 64) : (RealSocket.frameOffsets frameSize frames).Nodup := by
  have htoNat : ∀ i < frames, (UInt64.ofNat (i * frameSize)).toNat = i * frameSize := by
    intro i hi
    have hle := Nat.mul_le_mul_right frameSize hi.le
    rw [UInt64.toNat_ofNat', Nat.mod_eq_of_lt (by omega)]
  refine List.Nodup.map_on (fun i hi j hj hij => ?_) List.nodup_range
  have hmul := congrArg UInt64.toNat hij
  rw [htoNat i (List.mem_range.mp hi), htoNat j (List.mem_range.mp hj)] at hmul
  exact Nat.eq_of_mul_eq_mul_right hpos hmul

/-- A new socket has every frame offset once in its free list: none is skipped. -/
theorem contents_freeList_new (cfg : Config) :
    (RealSocket.new cfg).freeList.contents = RealSocket.frameOffsets cfg.umemFrameSize
      (cfg.umemFrameSize * cfg.umemPages / cfg.umemFrameSize) := by
  have hslots := cfg.freeList_lt.trans (show 2 ^ 60 < 2 ^ 64 by decide)
  have hwf := FreeList.withCapacity_wf hslots
  have hempty : (FreeList.withCapacity (cfg.umemFrameSize * cfg.umemPages / cfg.umemFrameSize)
      cfg.freelistHeadroom).ring.used = 0 := RingBuffer.used_eq_zero_iff.mpr rfl
  have hroom := FreeList.le_limit_withCapacity hslots
  rw [RealSocket.new]
  simp only
  rw [FreeList.contents_pushAll hwf (by
    rw [hempty, RealSocket.frameOffsets, List.length_map, List.length_range]
    omega)]
  rw [FreeList.contents, RingBuffer.contents_of_used_eq_zero hwf.ring hempty, List.nil_append]

theorem inv_new {cfg : Config} (htx : ∃ k < 32, cfg.offs.txCap = 2 ^ k)
    (hcomp : ∃ k < 32, cfg.offs.compCap cfg.mapSize = 2 ^ k) : (new cfg).Inv := by
  have hslots := cfg.freeList_lt.trans (show 2 ^ 60 < 2 ^ 64 by decide)
  have hring := RingMmap.new_wf htx hcomp
  refine ⟨⟨(FreeList.withCapacity_wf hslots).pushAll _, hring⟩, fun a => ?_⟩
  have hnodup := nodup_frameOffsets cfg.frameSize_pos
    ((Nat.div_mul_le_self _ _).trans_lt cfg.umem_lt)
  have hfree := List.nodup_iff_count_le_one.mp hnodup a
  have htx0 : (new cfg).socket.ring.tx.contents = [] :=
    RingBuffer.contents_of_used_eq_zero hring.tx (RingBuffer.used_eq_zero_iff.mpr rfl)
  have hcomp0 : (new cfg).socket.ring.comp.contents = [] :=
    RingBuffer.contents_of_used_eq_zero hring.comp (RingBuffer.used_eq_zero_iff.mpr rfl)
  rw [owners, occurrences, htx0, hcomp0]
  change (RealSocket.new cfg).freeList.contents.count a + _ + _ + _ + _ ≤ 1
  rw [contents_freeList_new]
  exact hfree

theorem run_take_succ {cfg : Config} {events : List Event} {n : ℕ} {e : Event}
    (he : events[n]? = some e) :
    run cfg (events.take (n + 1)) = (run cfg (events.take n)).step e := by
  rw [List.take_add_one, he, run, List.foldl_append]
  rfl

theorem run_take_of_none {cfg : Config} {events : List Event} {n : ℕ} (he : events[n]? = none) :
    run cfg (events.take (n + 1)) = run cfg (events.take n) := by
  rw [List.take_add_one, he, Option.toList_none, List.append_nil]

/-- The invariant holds in every state of a run all of whose steps fit. -/
theorem inv_run {cfg : Config} (htx : ∃ k < 32, cfg.offs.txCap = 2 ^ k)
    (hcomp : ∃ k < 32, cfg.offs.compCap cfg.mapSize = 2 ^ k) {events : List Event}
    (hfits : ∀ n e, events[n]? = some e → (run cfg (events.take n)).Fits e) (n : ℕ) :
    (run cfg (events.take n)).Inv := by
  induction n with
  | zero => exact inv_new htx hcomp
  | succ n ih =>
    cases he : events[n]? with
    | none => rwa [run_take_of_none he]
    | some e =>
      rw [run_take_succ he]
      exact ⟨(step_spec ih (hfits n e he) 0).1,
        fun a => (step_spec ih (hfits n e he) a).2.1.trans (ih.owners_le a)⟩

end System

/-- **Frame ownership**: over ring capacities that are powers of two, in every state of a run that
neither bumps the allocator nor pushes an attempt in part, no frame offset occurs twice among the
free list, the TX ring, the kernel and the completion ring, and the next step leaves the bytes of
every frame in flight as they are. -/
theorem run_owned (cfg : Config) (htx : ∃ k < 32, cfg.offs.txCap = 2 ^ k)
    (hcomp : ∃ k < 32, cfg.offs.compCap cfg.mapSize = 2 ^ k) (events : List Event)
    (hfits : ∀ n e, events[n]? = some e → (System.run cfg (events.take n)).Fits e) (n : ℕ) :
    (∀ a, (System.run cfg (events.take n)).occurrences a ≤ 1) ∧
      ∀ a ∈ (System.run cfg (events.take n)).inFlight,
        (System.run cfg (events.take (n + 1))).socket.umem a =
          (System.run cfg (events.take n)).socket.umem a := by
  have hinv := System.inv_run htx hcomp hfits n
  refine ⟨fun a => (Nat.le_add_right _ _).trans (hinv.owners_le a), fun a ha => ?_⟩
  cases he : events[n]? with
  | none => rw [System.run_take_of_none he]
  | some e =>
    rw [System.run_take_succ he]
    exact (System.step_spec hinv (hfits n e he) a).2.2 ha

/-! ## A small socket -/

/-- Four frames, and two descriptors on each ring. -/
def smallConfig : Config where
  umemFrameSize := 2048
  umemPages := 4
  mapSize := 65536
  offs := { rxDesc := 0, txDesc := 0, fillDesc := 16, compDesc := 65520 }
  freelistHeadroom := none
  frameSize_pos := by decide
  umem_lt := by decide
  freeList_lt := by decide +kernel

/-- `n` packets of one byte. -/
def bytePackets (n : ℕ) : Request where
  buf := List.replicate n 7
  offsets := (List.range n).map fun i => (i, 1)
  inBounds := by
    rw [List.length_replicate]
    rintro p hp
    obtain ⟨i, hi, rfl⟩ := List.mem_map.mp hp
    exact List.mem_range.mp hi

/-- A packet is sent and completed. -/
def onePacket : List Event :=
  [.send (bytePackets 1), .advance, .advance, .advance, .consume, .complete 0]

/-- Two packets are sent together and completed in the other order. -/
def twoPackets : List Event :=
  [.send (bytePackets 2), .advance, .advance, .advance, .advance, .consume, .consume, .complete 1,
    .complete 0]

/-- With one of the two on the TX ring and the other with the kernel. -/
theorem run_owned_twoPackets :
    (∀ a, (System.run smallConfig (twoPackets.take 6)).occurrences a ≤ 1) ∧
      ∀ a ∈ (System.run smallConfig (twoPackets.take 6)).inFlight,
        (System.run smallConfig (twoPackets.take 7)).socket.umem a =
          (System.run smallConfig (twoPackets.take 6)).socket.umem a := by
  refine run_owned smallConfig ⟨1, by decide, by decide⟩ ⟨1, by decide, by decide⟩ twoPackets
    (fun n e he => ?_) 6
  match n, he with
  | 0, rfl => trivial
  | 1, rfl => trivial
  | 2, rfl =>
    change (System.run smallConfig (twoPackets.take 2)).socket.freeList.contents ≠ []
    decide +kernel
  | 3, rfl =>
    change (System.run smallConfig (twoPackets.take 3)).socket.freeList.contents ≠ []
    decide +kernel
  | 4, rfl => exact .inl (by decide +kernel)
  | 5, rfl => trivial
  | 6, rfl => trivial
  | 7, rfl => trivial
  | 8, rfl => trivial

/-- Three packets find two free descriptors: two frames are pushed, and all three are given back,
so the first one is in the free list and on the TX ring. -/
theorem run_not_owned : ¬ ∀ cfg : Config, (∃ k < 32, cfg.offs.txCap = 2 ^ k) →
    (∃ k < 32, cfg.offs.compCap cfg.mapSize = 2 ^ k) → ∀ (events : List Event) (a : UInt64),
      (System.run cfg events).occurrences a ≤ 1 := by
  intro h
  have htwice := h smallConfig ⟨1, by decide, by decide⟩ ⟨1, by decide, by decide⟩
    [.send (bytePackets 3), .advance, .advance, .advance, .advance, .advance] 0
  exact absurd htwice (by decide +kernel)

end SmipMwp.AfXdp
