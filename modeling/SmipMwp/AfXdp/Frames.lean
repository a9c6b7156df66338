import SmipMwp.AfXdp.Access
import SmipMwp.AfXdp.Headroom
import SmipMwp.AfXdp.Send

/-!
# Copies stay inside one frame

An address that `send` copies to comes out of the free list or of the bump allocator. Into the free
list go the addresses of a failed attempt and those read off the completion ring, where the kernel
writes addresses that were pushed before; and a slot that nothing was written to holds 0. So
"is the address of a whole frame" is kept by every step, under any headroom and for rings of any
capacity (`Framed.step`), and every copy stays inside a frame (`copies_inside_frame`).

The kernel here may complete any address that was ever pushed, as often as it likes and in any slot,
and move the consumer of the TX ring to anywhere; it posts only while the completion ring has room.
-/

namespace SmipMwp.AfXdp

/-! ## What the slots hold -/

section Slots

variable {P : UInt64 → Prop}

theorem forall_mem_set {l : List UInt64} (h : ∀ v ∈ l, P v) {v : UInt64} (hv : P v) (i : ℕ) :
    ∀ u ∈ l.set i v, P u := by
  intro u hu
  rcases List.mem_or_eq_of_mem_set hu with hu | rfl
  · exact h u hu
  · exact hv

/-- A pop returns what is in the slots. -/
theorem forall_mem_ringPop {r : RingBuffer UInt64 32} (h : ∀ v ∈ r.slots, P v) (max : ℕ) :
    ∀ v ∈ (ringPop r max).1, P v := by
  intro v hv
  rw [fst_ringPop] at hv
  obtain ⟨i, -, hi⟩ := List.mem_filterMap.mp hv
  exact h v (List.mem_of_getElem? hi)

theorem slots_ringPop (r : RingBuffer UInt64 32) (max : ℕ) :
    (ringPop r max).2.slots = r.slots := by
  simp only [ringPop]
  split_ifs <;> rfl

/-- A pop takes no more than there is. -/
theorem used_ringPop_le (r : RingBuffer UInt64 32) (max : ℕ) :
    (ringPop r max).2.used ≤ r.used := by
  simp only [ringPop]
  split_ifs
  · exact le_rfl
  · have hle : min r.used max ≤ (r.prod - r.cons).toNat := Nat.min_le_left _ _
    change (r.prod - (r.cons + BitVec.ofNat 32 (min r.used max))).toNat ≤ (r.prod - r.cons).toNat
    rw [BitVec.toNat_sub] at hle
    rw [BitVec.toNat_sub, BitVec.toNat_sub, BitVec.toNat_add, BitVec.toNat_ofNat]
    omega

namespace FreeList

variable {f : FreeList}

theorem forall_mem_tryPush (h : ∀ v ∈ f.ring.slots, P v) {v : UInt64} (hv : P v) :
    ∀ u ∈ (f.tryPush v).2.ring.slots, P u := by
  rw [tryPush]
  split_ifs
  · exact h
  · exact forall_mem_set h hv _

theorem forall_mem_pushAll (h : ∀ v ∈ f.ring.slots, P v) {vs : List UInt64}
    (hvs : ∀ v ∈ vs, P v) : ∀ u ∈ (f.pushAll vs).ring.slots, P u := by
  unfold pushAll
  induction vs generalizing f with
  | nil => exact h
  | cons v vs ih =>
    obtain ⟨hv, hvs⟩ := List.forall_mem_cons.mp hvs
    exact ih (forall_mem_tryPush h hv) hvs

theorem slots_tryPop (f : FreeList) : f.tryPop.2.ring.slots = f.ring.slots := by
  rw [tryPop]
  split_ifs <;> rfl

theorem of_tryPop (h : ∀ v ∈ f.ring.slots, P v) {v : UInt64} (hv : f.tryPop.1 = some v) : P v := by
  rw [tryPop] at hv
  split_ifs at hv
  exact h v (List.mem_of_getElem? hv)

end FreeList

end Slots

/-! ## The addresses of whole frames -/

/-- The address of a whole frame of UMEM. -/
def Config.IsFrame (cfg : Config) (a : UInt64) : Prop :=
  cfg.umemFrameSize ∣ a.toNat ∧
    a.toNat < cfg.umemFrameSize * cfg.umemPages / cfg.umemFrameSize * cfg.umemFrameSize

/-- UMEM holds at least one whole frame. -/
def Config.HasFrame (cfg : Config) : Prop :=
  0 < cfg.umemFrameSize * cfg.umemPages / cfg.umemFrameSize

theorem Config.isFrame_ofNat {cfg : Config} {i : ℕ}
    (hi : i < cfg.umemFrameSize * cfg.umemPages / cfg.umemFrameSize) :
    cfg.IsFrame (UInt64.ofNat (i * cfg.umemFrameSize)) := by
  have hlt : i * cfg.umemFrameSize <
      cfg.umemFrameSize * cfg.umemPages / cfg.umemFrameSize * cfg.umemFrameSize :=
    Nat.mul_lt_mul_of_pos_right hi cfg.frameSize_pos
  have hle : cfg.umemFrameSize * cfg.umemPages / cfg.umemFrameSize * cfg.umemFrameSize ≤
      cfg.umemFrameSize * cfg.umemPages := Nat.div_mul_le_self _ _
  have humem := cfg.umem_lt
  rw [IsFrame, UInt64.toNat_ofNat', Nat.mod_eq_of_lt (by omega)]
  exact ⟨Nat.dvd_mul_left _ _, hlt⟩

/-- A slot that was never written to holds the address of the first frame. -/
theorem Config.isFrame_zero {cfg : Config} (h : cfg.HasFrame) : cfg.IsFrame 0 := by
  have hzero := isFrame_ofNat h
  rwa [Nat.zero_mul] at hzero

/-- From the address of a frame a whole frame fits into UMEM. -/
theorem Config.IsFrame.add_le {cfg : Config} {a : UInt64} (h : cfg.IsFrame a) :
    a.toNat + cfg.umemFrameSize ≤ cfg.umemFrameSize * cfg.umemPages := by
  obtain ⟨⟨k, hk⟩, hlt⟩ := h
  have hle : cfg.umemFrameSize * cfg.umemPages / cfg.umemFrameSize * cfg.umemFrameSize ≤
      cfg.umemFrameSize * cfg.umemPages := Nat.div_mul_le_self _ _
  rw [hk, Nat.mul_comm] at hlt
  have hk' := Nat.lt_of_mul_lt_mul_right hlt
  have hnext := Nat.mul_le_mul_right cfg.umemFrameSize (Nat.succ_le_of_lt hk')
  rw [Nat.succ_mul, Nat.mul_comm] at hnext
  omega

/-! ## The socket -/

/-- The socket of a configuration, with nothing but addresses of whole frames in the slots of its
free list and completion ring, and a completion ring that is not overfull. -/
structure RealSocket.Framed (cfg : Config) (s : RealSocket) : Prop where
  frameSize_eq : s.frameSize = cfg.umemFrameSize
  umemLen_eq : s.umemLen = cfg.umemFrameSize * cfg.umemPages
  freeList : ∀ v ∈ s.freeList.ring.slots, cfg.IsFrame v
  comp : ∀ v ∈ s.ring.comp.slots, cfg.IsFrame v
  comp_le : s.ring.comp.used ≤ s.ring.comp.capacity

namespace RealSocket

variable {cfg : Config} {s : RealSocket}

theorem framed_new (h : cfg.HasFrame) : (new cfg).Framed cfg := by
  have hzero := Config.isFrame_zero h
  constructor
  case frameSize_eq => rfl
  case umemLen_eq => rfl
  case freeList =>
    refine FreeList.forall_mem_pushAll ?_ ?_
    · exact fun v hv => List.eq_of_mem_replicate hv ▸ hzero
    · intro v hv
      obtain ⟨i, hi, rfl⟩ := List.mem_map.mp hv
      exact Config.isFrame_ofNat (List.mem_range.mp hi)
  case comp => exact fun v hv => List.eq_of_mem_replicate hv ▸ hzero
  case comp_le =>
    have hempty : (new cfg).ring.comp.used = 0 := RingBuffer.used_eq_zero_iff.mpr rfl
    rw [hempty]
    exact Nat.zero_le _

/-- In such a socket `comp_pop` reads slots of the completion ring only. -/
theorem Framed.popIndices_lt (h : s.Framed cfg) (max : ℕ) :
    ∀ i ∈ popIndices s.ring.comp max, i < s.ring.comp.capacity := by
  have hle := h.comp_le
  have hindex := index_le_capacity (r := s.ring.comp) s.ring.comp.cons
  exact (forall_mem_popIndices_lt_iff max).mpr (by omega)

theorem Framed.reclaim (h : s.Framed cfg) : s.reclaim.Framed cfg := by
  have heq : s.reclaim =
      { s with
        ring := { s.ring with comp := (ringPop s.ring.comp 64).2 }
        freeList := s.freeList.pushAll (ringPop s.ring.comp 64).1 } := by
    simp only [RealSocket.reclaim, RingMmap.compPop_eq]
  rw [heq]
  constructor
  case frameSize_eq => exact h.frameSize_eq
  case umemLen_eq => exact h.umemLen_eq
  case freeList => exact FreeList.forall_mem_pushAll h.freeList (forall_mem_ringPop h.comp 64)
  case comp =>
    simp only [slots_ringPop]
    exact h.comp
  case comp_le =>
    have hcap : (ringPop s.ring.comp 64).2.capacity = s.ring.comp.capacity :=
      congrArg List.length (slots_ringPop _ _)
    simp only [hcap]
    exact (used_ringPop_le _ _).trans h.comp_le

/-- An allocation gives the address of a frame, from the free list or not. -/
theorem Framed.alloc (h : s.Framed cfg) (hframe : cfg.HasFrame) :
    cfg.IsFrame s.alloc.1 ∧ s.alloc.2.Framed cfg := by
  unfold RealSocket.alloc
  split
  · next f freeList hpop =>
    have hsome : s.freeList.tryPop.1 = some f := congrArg Prod.fst hpop
    have hrest : freeList = s.freeList.tryPop.2 := congrArg Prod.snd hpop.symm
    refine ⟨FreeList.of_tryPop h.freeList hsome, { h with freeList := ?_ }⟩
    rw [hrest, FreeList.slots_tryPop]
    exact h.freeList
  · refine ⟨?_, { h with }⟩
    rw [h.frameSize_eq, h.umemLen_eq]
    exact Config.isFrame_ofNat (Nat.mod_lt _ hframe)

/-- The end of an attempt gives back addresses of frames only. -/
theorem Framed.transmit (h : s.Framed cfg) {addrs : List UInt64}
    (haddrs : ∀ a ∈ addrs, cfg.IsFrame a) : (s.transmit addrs).2.Framed cfg := by
  unfold RealSocket.transmit
  rw [RingMmap.txPush_eq]
  simp only
  split_ifs
  · exact { h with }
  · exact { h with freeList := FreeList.forall_mem_pushAll h.freeList haddrs }

end RealSocket

/-! ## Runs -/

/-- A system, and all addresses that were pushed on its TX ring so far. -/
structure Traffic where
  system : System
  pushed : List UInt64

/-- A call of `send`, a step of the sender, a call of `set_headroom`, or a step of the kernel: it
moves the consumer of the TX ring, or posts an address in a slot of the completion ring. -/
inductive TrafficEvent
  | send (req : Request)
  | advance
  | setHeadroom (headroom : BitVec 64)
  | consume (cons : BitVec 32)
  | complete (a : UInt64) (slot : ℕ)

namespace Traffic

def new (cfg : Config) : Traffic := ⟨System.new cfg, []⟩

/-- The system after something was done to its socket. -/
def onSocket (s : Traffic) (f : RealSocket → RealSocket) : Traffic :=
  { s with system := { s.system with socket := f s.system.socket } }

/-- The rings after the kernel has posted an address. -/
def post (ring : RingMmap) (a : UInt64) (slot : ℕ) : RingMmap :=
  let comp := ring.comp
  { ring with comp := { comp with slots := comp.slots.set slot a, prod := comp.prod + 1 } }

def step (s : Traffic) : TrafficEvent → Traffic
  | .send req => { s with system := s.system.step (.send req) }
  | .advance =>
    { system := s.system.advance
      pushed := s.pushed ++ s.system.enqueuedBy .advance }
  | .setHeadroom headroom =>
    s.onSocket fun socket => { socket with freeList := socket.freeList.setHeadroom headroom }
  | .consume cons =>
    s.onSocket fun socket =>
      { socket with ring := { socket.ring with tx := { socket.ring.tx with cons := cons } } }
  | .complete a slot =>
    -- the kernel completes what was pushed, while there is room
    if a ∈ s.pushed ∧ s.system.socket.ring.comp.used < s.system.socket.ring.comp.capacity then
      s.onSocket fun socket => { socket with ring := post socket.ring a slot }
    else s

/-- The addresses that the step pushes. -/
def pushes (s : Traffic) : TrafficEvent → List UInt64
  | .advance => s.system.enqueuedBy .advance
  | _ => []

/-- The address that the step copies to, with the bytes. -/
def copies (s : Traffic) : TrafficEvent → List (UInt64 × Bytes)
  | .advance =>
    match s.system.sender with
    | .allocating req _ ((off, len) :: _) _ =>
      [(s.system.socket.alloc.1, (slice req.buf off len).take s.system.socket.frameSize)]
    | _ => []
  | _ => []

/-- Every address there is belongs to a frame. -/
structure Framed (cfg : Config) (s : Traffic) : Prop where
  socket : s.system.socket.Framed cfg
  inHand : ∀ a ∈ s.system.inHand, cfg.IsFrame a
  pushed : ∀ a ∈ s.pushed, cfg.IsFrame a

/-- The copy stays inside one frame, and so inside UMEM. -/
structure InsideFrame (cfg : Config) (copy : UInt64 × Bytes) : Prop where
  isFrame : cfg.IsFrame copy.1
  length_le : copy.2.length ≤ cfg.umemFrameSize
  add_le : copy.1.toNat + copy.2.length ≤ cfg.umemFrameSize * cfg.umemPages

/-- The step keeps to frames: it leaves all addresses such, and pushes and copies to no others. -/
structure StepInside (cfg : Config) (s : Traffic) (e : TrafficEvent) : Prop where
  framed : (s.step e).Framed cfg
  pushes : ∀ a ∈ s.pushes e, cfg.IsFrame a
  copies : ∀ copy ∈ s.copies e, InsideFrame cfg copy

variable {cfg : Config} {s : Traffic}

/-- Nothing is to be shown of the pushes and copies of a step that has none. -/
theorem StepInside.of_quiet {e : TrafficEvent} (h : (s.step e).Framed cfg)
    (hpushes : s.pushes e = []) (hcopies : s.copies e = []) : s.StepInside cfg e := by
  constructor
  case framed => exact h
  case pushes => simp only [hpushes, List.not_mem_nil, false_implies, implies_true]
  case copies => simp only [hcopies, List.not_mem_nil, false_implies, implies_true]

theorem framed_new (h : cfg.HasFrame) : (new cfg).Framed cfg :=
  ⟨RealSocket.framed_new h, List.forall_mem_nil _, List.forall_mem_nil _⟩

theorem used_post_le (ring : RingMmap) (a : UInt64) (slot : ℕ) :
    (post ring a slot).comp.used ≤ ring.comp.used + 1 := by
  change (ring.comp.prod + 1 - ring.comp.cons).toNat ≤ (ring.comp.prod - ring.comp.cons).toNat + 1
  have hone : (1 : BitVec 32).toNat = 1 := rfl
  rw [BitVec.toNat_sub, BitVec.toNat_sub, BitVec.toNat_add, hone]
  omega

/-- The end of an attempt pushes the frames in hand. -/
theorem Framed.transmit (h : s.Framed cfg) {req : Request} {attempt : ℕ} {addrs : List UInt64}
    (hs : s.system.sender = .allocating req attempt [] addrs) : s.StepInside cfg .advance := by
  have haddrs : ∀ a ∈ addrs, cfg.IsFrame a := by simpa [System.inHand, hs] using h.inHand
  have hpushes : ∀ a ∈ addrs.take (s.system.socket.ring.txPush addrs).1, cfg.IsFrame a :=
    fun a ha => haddrs a (List.mem_of_mem_take ha)
  obtain ⟨hsocket, -, hhand⟩ := System.advance_transmit hs
  constructor
  case framed =>
    simp only [step, System.enqueuedBy, hs]
    refine ⟨?_, ?_, List.forall_mem_append.mpr ⟨h.pushed, hpushes⟩⟩
    · exact hsocket ▸ h.socket.transmit haddrs
    · rw [hhand]
      exact List.forall_mem_nil _
  case pushes => simpa only [pushes, System.enqueuedBy, hs] using hpushes
  case copies => simp only [copies, hs, List.not_mem_nil, false_implies, implies_true]

/-- An allocation is followed by the copy of a packet, no longer than a frame. -/
theorem Framed.alloc (h : s.Framed cfg) (hframe : cfg.HasFrame) {req : Request}
    {attempt off len : ℕ} {rest : List (ℕ × ℕ)} {addrs : List UInt64}
    (hs : s.system.sender = .allocating req attempt ((off, len) :: rest) addrs) :
    s.StepInside cfg .advance := by
  have haddrs : ∀ a ∈ addrs, cfg.IsFrame a := by simpa [System.inHand, hs] using h.inHand
  have hquiet : s.system.enqueuedBy .advance = [] := by simp only [System.enqueuedBy, hs]
  obtain ⟨halloc, hsocket⟩ := h.socket.alloc hframe
  constructor
  case framed =>
    simp only [step, System.advance_alloc hs, hquiet, List.append_nil]
    exact ⟨{ hsocket with },
      List.forall_mem_append.mpr ⟨haddrs, List.forall_mem_singleton.mpr halloc⟩, h.pushed⟩
  case pushes => simp only [pushes, hquiet, List.not_mem_nil, false_implies, implies_true]
  case copies =>
    have hlen := List.length_take_le s.system.socket.frameSize (slice req.buf off len)
    rw [h.socket.frameSize_eq] at hlen
    simp only [copies, hs, h.socket.frameSize_eq]
    exact List.forall_mem_singleton.mpr
      ⟨halloc, hlen, (Nat.add_le_add_left hlen _).trans halloc.add_le⟩

/-- A step of the sender pushes and copies to frames only. -/
theorem Framed.advance (h : s.Framed cfg) (hframe : cfg.HasFrame) :
    s.StepInside cfg .advance := by
  rcases hs : s.system.sender with result | ⟨req, attempt⟩ |
    ⟨req, attempt, _ | ⟨⟨off, len⟩, rest⟩, addrs⟩
  · have hquiet : s.system.enqueuedBy .advance = [] := by simp only [System.enqueuedBy, hs]
    refine .of_quiet ?_ hquiet (by simp only [copies, hs])
    simp only [step, System.advance_idle hs, hquiet, List.append_nil]
    exact h
  · have hquiet : s.system.enqueuedBy .advance = [] := by simp only [System.enqueuedBy, hs]
    refine .of_quiet ?_ hquiet (by simp only [copies, hs])
    simp only [step, System.advance_reclaim hs, hquiet, List.append_nil]
    exact ⟨h.socket.reclaim, List.forall_mem_nil _, h.pushed⟩
  · exact h.transmit hs
  · exact h.alloc hframe hs

theorem Framed.onSocket (h : s.Framed cfg) {f : RealSocket → RealSocket}
    (hf : (f s.system.socket).Framed cfg) : (s.onSocket f).Framed cfg := ⟨hf, h.inHand, h.pushed⟩

/-- **No step leaves the frames.** -/
theorem Framed.step (h : s.Framed cfg) (hframe : cfg.HasFrame) (e : TrafficEvent) :
    s.StepInside cfg e := by
  have hsocket := h.socket
  cases e with
  | advance => exact h.advance hframe
  | send req =>
    refine .of_quiet ?_ rfl rfl
    simp only [Traffic.step, System.step]
    cases hs : s.system.sender with
    | idle result => exact ⟨hsocket, List.forall_mem_nil _, h.pushed⟩
    | _ => exact h
  | setHeadroom headroom =>
    refine .of_quiet ?_ rfl rfl
    simp only [Traffic.step]
    exact h.onSocket { hsocket with }
  | consume cons =>
    refine .of_quiet ?_ rfl rfl
    simp only [Traffic.step]
    exact h.onSocket { hsocket with }
  | complete a slot =>
    refine .of_quiet ?_ rfl rfl
    simp only [Traffic.step]
    split_ifs with hpost
    · obtain ⟨hmem, hroom⟩ := hpost
      refine h.onSocket { hsocket with comp := ?_, comp_le := ?_ }
      · exact forall_mem_set hsocket.comp (h.pushed a hmem) slot
      · have hcap : (post s.system.socket.ring a slot).comp.capacity =
            s.system.socket.ring.comp.capacity := List.length_set
        have hused := used_post_le s.system.socket.ring a slot
        simp only [hcap]
        omega
    · exact h

/-- The state after a run of events. -/
def run (cfg : Config) (events : List TrafficEvent) : Traffic := events.foldl step (new cfg)

end Traffic

open Traffic

/-- **Copies stay inside one frame**: in every run, all that `send` pushes are addresses of whole
frames, and all that it copies goes to such an address and no further than a frame from there. -/
theorem copies_inside_frame (cfg : Config) (hframe : cfg.HasFrame) (events : List TrafficEvent) :
    (∀ a ∈ runLog Traffic.step pushes (Traffic.new cfg) events, cfg.IsFrame a) ∧
      ∀ copy ∈ runLog Traffic.step copies (Traffic.new cfg) events, InsideFrame cfg copy := by
  have hnew := Traffic.framed_new hframe
  have hpushes := forall_mem_runLog (Traffic.Framed cfg)
    (fun s e (h : s.Framed cfg) => ⟨(h.step hframe e).framed, (h.step hframe e).pushes⟩) hnew events
  have hcopies := forall_mem_runLog (Traffic.Framed cfg)
    (fun s e (h : s.Framed cfg) => ⟨(h.step hframe e).framed, (h.step hframe e).copies⟩) hnew events
  exact ⟨hpushes.2, hcopies.2⟩

/-- And `comp_pop` reads slots of the completion ring only. -/
theorem popIndices_comp_run (cfg : Config) (hframe : cfg.HasFrame) (events : List TrafficEvent) :
    ∀ i ∈ popIndices (Traffic.run cfg events).system.socket.ring.comp 64,
      i < (Traffic.run cfg events).system.socket.ring.comp.capacity := by
  have hrun := forall_mem_runLog (Traffic.Framed cfg)
    (fun s e (h : s.Framed cfg) => ⟨(h.step hframe e).framed, (h.step hframe e).pushes⟩)
    (Traffic.framed_new hframe) events
  exact hrun.1.socket.popIndices_lt 64

/-- A packet of one byte is sent and completed, the headroom is raised, and another is sent. -/
def resendEvents : List TrafficEvent :=
  [.send (bytePackets 1), .advance, .advance, .advance, .consume 1, .complete 0 0, .setHeadroom 100,
    .send (bytePackets 1), .advance, .advance, .advance]

theorem copies_inside_frame_small :
    (∀ a ∈ runLog Traffic.step pushes (Traffic.new smallConfig) resendEvents,
      smallConfig.IsFrame a) ∧
    ∀ copy ∈ runLog Traffic.step copies (Traffic.new smallConfig) resendEvents,
      InsideFrame smallConfig copy :=
  copies_inside_frame smallConfig (by rw [Config.HasFrame]; decide) resendEvents

end SmipMwp.AfXdp
