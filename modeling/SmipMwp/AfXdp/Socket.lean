import SmipMwp.AfXdp.FreeList
import SmipMwp.AfXdp.Rings
import SmipMwp.Foundations.Words

/-!
# The transmit path of the socket

`RealSocket::send` makes up to nine attempts. Each reclaims completed frames into the free list,
allocates a frame for every packet and copies the packet into it, and pushes the frames on the TX
ring; if not all of them fit, it gives the frames back to the free list and tries again.

The kernel works on the rings at the same time. A `System` is the socket, the frames the kernel
holds, and where the sender is; its steps are those of one `send` after the other and those of the
kernel, in any order. The socket is behind a lock, so there is one sender.
-/

namespace SmipMwp.AfXdp

/-- What `RealSocket::new` is given: the frame size and number of frames, the ring memory, and the
configured headroom. UMEM fits the address space, and so does the buffer of the free list. -/
structure Config where
  umemFrameSize : ℕ
  umemPages : ℕ
  mapSize : ℕ
  offs : XskMmapOffsets
  freelistHeadroom : Option ℕ
  frameSize_pos : 0 < umemFrameSize
  umem_lt : umemFrameSize * umemPages < 2 ^ 64
  freeList_lt : FreeList.slotCount (umemFrameSize * umemPages / umemFrameSize) freelistHeadroom <
    2 ^ 60

structure RealSocket where
  frameSize : ℕ
  umemLen : ℕ
  /-- The bytes of the frame at an offset. -/
  umem : UInt64 → Bytes
  ring : RingMmap
  nextFrame : BitVec 64
  freeList : FreeList

namespace RealSocket

/-- The offsets of the first `frames` frames. -/
def frameOffsets (frameSize frames : ℕ) : List UInt64 :=
  (List.range frames).map fun i => UInt64.ofNat (i * frameSize)

def new (cfg : Config) : RealSocket :=
  let umemLen := cfg.umemFrameSize * cfg.umemPages
  let frames := umemLen / cfg.umemFrameSize
  { frameSize := cfg.umemFrameSize
    umemLen := umemLen
    umem := fun _ => List.replicate cfg.umemFrameSize 0
    ring := RingMmap.new cfg.mapSize cfg.offs
    nextFrame := 0
    freeList := (FreeList.withCapacity frames cfg.freelistHeadroom).pushAll
      (frameOffsets cfg.umemFrameSize frames) }

/-- Up to 64 completed frames go from the completion ring to the free list. -/
def reclaim (s : RealSocket) : RealSocket :=
  let (comps, ring) := s.ring.compPop 64
  { s with ring := ring, freeList := s.freeList.pushAll comps }

/-- A frame from the free list, falling back to bumping `next_frame`. -/
def alloc (s : RealSocket) : UInt64 × RealSocket :=
  match s.freeList.tryPop with
  | (some f, freeList) => (f, { s with freeList := freeList })
  | (none, _) =>
    let frames := s.umemLen / s.frameSize
    let idx := s.nextFrame.toNat % frames
    (UInt64.ofNat (idx * s.frameSize), { s with nextFrame := s.nextFrame + 1 })

/-- `copy_nonoverlapping` of a packet into the frame at `memOff`, at most a frame of it. -/
def copy (s : RealSocket) (memOff : UInt64) (packet : Bytes) : RealSocket :=
  { s with
    umem := Function.update s.umem memOff
      (overwrite (s.umem memOff) 0 (packet.take s.frameSize)) }

/-- The end of an attempt: the frames are pushed, and unless all of them were, every frame of the
attempt is given back to the free list. -/
def transmit (s : RealSocket) (addrs : List UInt64) : Bool × RealSocket :=
  let (pushed, ring) := s.ring.txPush addrs
  if pushed = addrs.length then (true, { s with ring := ring })
  else (false, { s with ring := ring, freeList := s.freeList.pushAll addrs })

end RealSocket

/-- The arguments of a `send`: the packets lie in the buffer, or slicing it would panic. -/
structure Request where
  buf : Bytes
  offsets : List (ℕ × ℕ)
  inBounds : ∀ p ∈ offsets, p.1 + p.2 ≤ buf.length

def maxRetries : ℕ := 8

/-- Where the sender is: between calls, with the result of the last; or in an attempt, before it
reclaims, or with packets left to copy and the frames allocated so far. -/
inductive Sender
  | idle (result : Option Bool)
  | reclaiming (req : Request) (attempt : ℕ)
  | allocating (req : Request) (attempt : ℕ) (rest : List (ℕ × ℕ)) (addrs : List UInt64)

structure System where
  socket : RealSocket
  /-- The frames that the kernel has taken off the TX ring and not yet completed. -/
  kernel : List UInt64
  sender : Sender

/-- A call of `send`, a step of the sender, or a step of the kernel: it takes a descriptor, or
completes one of the frames it holds. -/
inductive Event
  | send (req : Request)
  | advance
  | consume
  | complete (i : ℕ)

namespace System

def new (cfg : Config) : System where
  socket := RealSocket.new cfg
  kernel := []
  sender := .idle none

/-- The next step of the sender. -/
def advance (s : System) : System :=
  match s.sender with
  | .idle _ => s
  | .reclaiming req attempt =>
    { s with
      socket := s.socket.reclaim
      sender := .allocating req attempt req.offsets [] }
  | .allocating req attempt ((off, len) :: rest) addrs =>
    let (memOff, socket) := s.socket.alloc
    { s with
      socket := socket.copy memOff (slice req.buf off len)
      sender := .allocating req attempt rest (addrs ++ [memOff]) }
  | .allocating req attempt [] addrs =>
    match s.socket.transmit addrs with
    | (true, socket) => { s with socket := socket, sender := .idle (some true) }
    | (false, socket) =>
      { s with
        socket := socket
        sender :=
          if attempt = maxRetries then .idle (some false) else .reclaiming req (attempt + 1) }

def step (s : System) : Event → System
  | .send req =>
    match s.sender with
    | .idle _ => { s with sender := .reclaiming req 0 }
    | _ => s
  | .advance => s.advance
  | .consume =>
    match s.socket.ring.kernelConsume with
    | some (d, ring) =>
      { s with socket := { s.socket with ring := ring }, kernel := s.kernel ++ [d] }
    | none => s
  | .complete i =>
    match s.kernel[i]? with
    | some d =>
      match s.socket.ring.kernelComplete d with
      | some ring =>
        { s with socket := { s.socket with ring := ring }, kernel := s.kernel.eraseIdx i }
      | none => s
    | none => s

def run (cfg : Config) (events : List Event) : System := events.foldl step (new cfg)

/-! ## Where the frames are -/

/-- The frames of the attempt in progress. -/
def inHand (s : System) : List UInt64 :=
  match s.sender with
  | .allocating _ _ _ addrs => addrs
  | _ => []

/-- How often an offset occurs among the free list, the unconsumed TX descriptors, the frames held
by the kernel and the completion ring. -/
def occurrences (s : System) (a : UInt64) : ℕ :=
  s.socket.freeList.contents.count a + s.socket.ring.tx.contents.count a + s.kernel.count a +
    s.socket.ring.comp.contents.count a

/-- The frames that the kernel is to send or is sending. -/
def inFlight (s : System) : List UInt64 := s.socket.ring.tx.contents ++ s.kernel

end System

end SmipMwp.AfXdp
