import SmipMwp.AfXdp.Access
import SmipMwp.AfXdp.Fifo
import SmipMwp.AfXdp.Headroom
import SmipMwp.Foundations.SpscRing

/-!
# The rings and the free list, access by access

The kernel reads and writes a ring while the socket is in the middle of a call on it, and the free
list is made for use without a lock. Here their operations are the single accesses of a `Spsc`, in
any order: the calls that the rest of the development takes for one step are those that nothing
comes in between (`push_alone`, `pop_alone`, `tryPush_alone`, `tryPop_alone`).

It makes no difference that something does. An interleaved run leaves what the calls leave when each
is made at once, a push when it publishes and a pop when it gives the slots back
(`accesses_linearizable`). The headroom of the free list can change between the check of a push and
its store; the list is a queue all the same (`freeList_accesses_fifo`).
-/

namespace SmipMwp.AfXdp

/-! ## The rings -/

/-- A call begins on a ring, or goes on with its next access. -/
inductive RingAccess
  | push (addrs : List UInt64)
  | produce
  | pop (max : ℕ)
  | consume

namespace RingAccess

/-- A push fills the ring up to its capacity. -/
def event (s : Spsc UInt64 32) : RingAccess → SpscEvent UInt64
  | push addrs => .push s.ring.capacity addrs
  | produce => .produce
  | pop max => .pop max
  | consume => .consume

def step (s : Spsc UInt64 32) (a : RingAccess) : Spsc UInt64 32 := s.step (a.event s)

/-- The addresses of the push that returns. -/
def accepted (s : Spsc UInt64 32) (a : RingAccess) : List UInt64 := s.accepted (a.event s)

/-- What the pop that returns has got. -/
def popped (s : Spsc UInt64 32) (a : RingAccess) : List UInt64 := s.popped (a.event s)

/-- The call that takes effect with the access. -/
def op (s : Spsc UInt64 32) : RingAccess → List RingOp
  | produce =>
    match s.producer with
    | .storing _ xs [] => [.push xs]
    | _ => []
  | consume =>
    match s.consumer with
    | .loading _ n [] _ => [.pop n]
    | _ => []
  | _ => []

variable {s : Spsc UInt64 32}

theorem queueStep (h : s.Inv) (a : RingAccess) :
    (a.step s).Inv ∧ (a.step s).ring.capacity = s.ring.capacity ∧
      Spsc.QueueStep s.ring.capacity s.ring.contents (a.accepted s) (a.popped s)
        (a.step s).ring.contents := by
  refine h.queueStep ?_
  cases a with
  | push addrs => exact Spsc.within_of_le h.wf le_rfl addrs
  | _ => trivial

end RingAccess

/-! ### Calls that nothing comes in between -/

theorem foldl_event (s : Spsc UInt64 32) {a : RingAccess} {e : SpscEvent UInt64}
    (h : ∀ s, a.event s = e) (n : ℕ) :
    (List.replicate n a).foldl RingAccess.step s = (List.replicate n e).foldl Spsc.step s ∧
      runLog RingAccess.step RingAccess.popped s (List.replicate n a) =
        runLog Spsc.step Spsc.popped s (List.replicate n e) := by
  induction n generalizing s with
  | zero => exact ⟨rfl, rfl⟩
  | succ n ih =>
    obtain ⟨hrun, hlog⟩ := ih (s.step e)
    rw [List.replicate_succ, List.replicate_succ, List.foldl_cons, List.foldl_cons, runLog, runLog,
      RingAccess.step, RingAccess.popped, h, hrun, hlog]
    exact ⟨rfl, rfl⟩

/-- A push alone is `ringPush`. -/
theorem push_alone (r : RingBuffer UInt64 32) (consumer : Consumer UInt64 32)
    (addrs : List UInt64) :
    (RingAccess.push addrs :: List.replicate ((ringPush r addrs).1 + 1) .produce).foldl
        RingAccess.step ⟨r, .idle, consumer⟩ = ⟨(ringPush r addrs).2, .idle, consumer⟩ := by
  rw [List.foldl_cons, (foldl_event _ (e := .produce) (fun _ => rfl) _).1]
  have hslots := slots_ringPush (r := r) addrs
  by_cases hfree : r.capacity - r.used = 0
  · have hpush : ringPush r addrs = (0, r) := by simp only [ringPush, hfree, if_true]
    simp only [RingAccess.step, RingAccess.event, Spsc.step, hfree, if_true, hpush,
      Nat.zero_add, List.replicate_one, List.foldl_cons, List.foldl_nil]
  · have hpush : ringPush r addrs = (min (r.capacity - r.used) addrs.length,
        r.push (addrs.take (min (r.capacity - r.used) addrs.length))) := by
      simp only [ringPush, hfree, if_false]
    have hlen : (addrs.take (min (r.capacity - r.used) addrs.length)).length =
        min (r.capacity - r.used) addrs.length := by
      rw [List.length_take]
      omega
    rw [hpush] at hslots ⊢
    simp only [pushIndices, hfree, if_false] at hslots
    have hrun := Spsc.foldl_push (s := ⟨r, .idle, consumer⟩) rfl hfree addrs rfl
    rw [List.foldl_cons] at hrun
    refine hrun.trans ?_
    rw [RingBuffer.push, hlen] at hslots ⊢
    exact congrArg (fun slots => (⟨{ r with
      slots := slots
      prod := r.prod + BitVec.ofNat 32 (min (r.capacity - r.used) addrs.length) }, .idle,
      consumer⟩ : Spsc UInt64 32)) hslots.symm

/-- A pop alone is `ringPop`. -/
theorem pop_alone (r : RingBuffer UInt64 32) (producer : Producer UInt64 32) (max : ℕ) :
    (RingAccess.pop max :: List.replicate ((popIndices r max).length + 1) .consume).foldl
        RingAccess.step ⟨r, producer, .idle⟩ = ⟨(ringPop r max).2, producer, .idle⟩ ∧
      runLog RingAccess.step RingAccess.popped ⟨r, producer, .idle⟩
        (RingAccess.pop max :: List.replicate ((popIndices r max).length + 1) .consume) =
          (ringPop r max).1 := by
  rw [List.foldl_cons, runLog]
  obtain ⟨hrun, hlog⟩ := foldl_event (RingAccess.step ⟨r, producer, .idle⟩ (.pop max))
    (a := .consume) (e := .consume) (fun _ => rfl) ((popIndices r max).length + 1)
  rw [hrun, hlog, length_popIndices, fst_ringPop, popIndices]
  by_cases havail : r.used = 0
  · have hpop : ringPop r max = ([], r) := by simp only [ringPop, havail, if_true]
    simp only [RingAccess.step, RingAccess.event, RingAccess.popped, Spsc.step, Spsc.popped, havail,
      if_true, hpop, Nat.zero_min, Nat.zero_add, List.replicate_one, List.foldl_cons,
      List.foldl_nil, runLog, List.append_nil, List.filterMap_nil, and_self]
  · have hpop : (ringPop r max).2 = (r.pop (min r.used max)).2 := by
      simp only [ringPop, havail, if_false]
    obtain ⟨hrun, hlog⟩ := Spsc.foldl_pop (s := ⟨r, producer, .idle⟩) rfl havail max rfl
    rw [List.foldl_cons] at hrun
    rw [runLog] at hlog
    rw [hpop, if_neg havail]
    exact ⟨hrun, hlog⟩

/-! ### One call at a time -/

section Atomic

variable {s : Spsc UInt64 32} {r : RingBuffer UInt64 32}

/-- A push for which there is room takes all it is given. -/
theorem ringPush_of_le {addrs : List UInt64} (hroom : r.used + addrs.length ≤ r.capacity) :
    addrs.take (ringPush r addrs).1 = addrs := by
  simp only [ringPush]
  split_ifs with hfree
  · rw [List.length_eq_zero_iff.mp (show addrs.length = 0 by omega), List.take_nil]
  · exact List.take_of_length_le (le_min (by omega) le_rfl)

/-- A pop of no more than there is gets all it asks for. -/
theorem ringPop_of_le (h : r.Wf) {n : ℕ} (hn : n ≤ r.used) :
    (ringPop r n).1 = r.contents.take n := by
  simp only [ringPop]
  split_ifs with havail
  · rw [show n = 0 by omega, List.take_zero]
  · rw [Nat.min_eq_right hn, RingBuffer.fst_pop h hn]

/-- The same entries in as many slots. -/
structure Alike (s : Spsc UInt64 32) (r : RingBuffer UInt64 32) : Prop where
  inv : s.Inv
  wf : r.Wf
  contents_eq : r.contents = s.ring.contents
  capacity_eq : r.capacity = s.ring.capacity

namespace Alike

theorem used_eq (h : Alike s r) : r.used = s.ring.used := by
  rw [← RingBuffer.length_contents h.wf, h.contents_eq, RingBuffer.length_contents h.inv.wf]

/-- An access does to the one ring what its call does to the other. -/
theorem step (h : Alike s r) (a : RingAccess) :
    Alike (a.step s) ((a.op s).foldl RingOp.step r) ∧
      runLog RingOp.step RingOp.accepted r (a.op s) = a.accepted s ∧
      runLog RingOp.step RingOp.popped r (a.op s) = a.popped s := by
  obtain ⟨hinv, hcap, hqueue⟩ := RingAccess.queueStep h.inv a
  -- an access without an effect
  have hquiet (hop : a.op s = []) (haccepted : a.accepted s = []) (hpopped : a.popped s = []) :
      Alike (a.step s) ((a.op s).foldl RingOp.step r) ∧
        runLog RingOp.step RingOp.accepted r (a.op s) = a.accepted s ∧
        runLog RingOp.step RingOp.popped r (a.op s) = a.popped s := by
    have hsame := hqueue.balance
    rw [haccepted, hpopped, List.append_nil, List.nil_append] at hsame
    rw [hop, haccepted, hpopped]
    exact ⟨⟨hinv, h.wf, h.contents_eq.trans hsame, h.capacity_eq.trans hcap.symm⟩, rfl, rfl⟩
  cases a with
  | push addrs => exact hquiet rfl rfl rfl
  | pop max => exact hquiet rfl rfl rfl
  | produce =>
    rcases hp : s.producer with _ | ⟨prod, xs, _ | ⟨p, rest⟩⟩
    · exact hquiet (by simp only [RingAccess.op, hp])
        (by simp only [RingAccess.accepted, RingAccess.event, Spsc.accepted, hp]) rfl
    · obtain ⟨-, -, hroom, hcontents⟩ := h.inv.publish hp
      have hop : RingAccess.produce.op s = [.push xs] := by simp only [RingAccess.op, hp]
      have haccepted : RingAccess.produce.accepted s = xs := by
        simp only [RingAccess.accepted, RingAccess.event, Spsc.accepted, hp]
      have hall : xs.take (ringPush r xs).1 = xs := ringPush_of_le (by
        rw [h.used_eq, h.capacity_eq, ← RingBuffer.length_contents h.inv.wf]
        exact hroom)
      obtain ⟨hwf, hcap', -, hpush⟩ := contents_ringPush h.wf xs
      rw [hop, haccepted]
      refine ⟨⟨hinv, hwf, ?_, (hcap'.trans h.capacity_eq).trans hcap.symm⟩, ?_, rfl⟩
      · exact (hpush.trans (by rw [hall, h.contents_eq])).trans hcontents.symm
      · exact (List.append_nil _).trans hall
    · exact hquiet (by simp only [RingAccess.op, hp])
        (by simp only [RingAccess.accepted, RingAccess.event, Spsc.accepted, hp]) rfl
  | consume =>
    rcases hc : s.consumer with _ | ⟨cons, n, _ | ⟨i, rest⟩, got⟩
    · exact hquiet (by simp only [RingAccess.op, hc]) rfl
        (by simp only [RingAccess.popped, RingAccess.event, Spsc.popped, hc])
    · obtain ⟨-, -, hcontents⟩ := h.inv.release hc
      obtain ⟨-, hn, hgot⟩ := h.inv.loaded hc
      have hop : RingAccess.consume.op s = [.pop n] := by simp only [RingAccess.op, hc]
      have hpopped : RingAccess.consume.popped s = got := by
        simp only [RingAccess.popped, RingAccess.event, Spsc.popped, hc]
      have hall : (ringPop r n).1 = got := by
        rw [ringPop_of_le h.wf (h.used_eq ▸ hn), h.contents_eq, hgot]
      obtain ⟨hwf, hcap', -, hpop⟩ := contents_ringPop h.wf n
      rw [h.contents_eq, hcontents, hall] at hpop
      rw [hop, hpopped]
      refine ⟨⟨hinv, hwf, (List.append_cancel_left hpop).symm,
        (hcap'.trans h.capacity_eq).trans hcap.symm⟩, rfl, ?_⟩
      exact (List.append_nil _).trans hall
    · exact hquiet (by simp only [RingAccess.op, hc]) rfl
        (by simp only [RingAccess.popped, RingAccess.event, Spsc.popped, hc])

/-- A run does too. -/
theorem run (h : Alike s r) (accesses : List RingAccess) :
    Alike (accesses.foldl RingAccess.step s)
        ((runLog RingAccess.step RingAccess.op s accesses).foldl RingOp.step r) ∧
      runLog RingOp.step RingOp.accepted r (runLog RingAccess.step RingAccess.op s accesses) =
        runLog RingAccess.step RingAccess.accepted s accesses ∧
      runLog RingOp.step RingOp.popped r (runLog RingAccess.step RingAccess.op s accesses) =
        runLog RingAccess.step RingAccess.popped s accesses := by
  induction accesses generalizing s r with
  | nil => exact ⟨h, rfl, rfl⟩
  | cons a accesses ih =>
    obtain ⟨hstep, haccepted, hpopped⟩ := h.step a
    obtain ⟨hrun, haccepteds, hpoppeds⟩ := ih hstep
    simp only [runLog, runLog_append, List.foldl_append, List.foldl_cons]
    rw [haccepted, hpopped, haccepteds, hpoppeds]
    exact ⟨hrun, rfl, rfl⟩

end Alike

end Atomic

/-- **The accesses of the two sides may come in any order.** From a well-formed ring on which no
call is in progress, a run of single accesses leaves the entries that the calls leave when each of
them is made at once, where it takes effect, and accepts and pops what they do; and so nothing is
lost, duplicated or overwritten. -/
theorem accesses_atomic {r : RingBuffer UInt64 32} (h : r.Wf) (accesses : List RingAccess) :
    let s : Spsc UInt64 32 := ⟨r, .idle, .idle⟩
    let t := accesses.foldl RingAccess.step s
    let ops := runLog RingAccess.step RingAccess.op s accesses
    (ops.foldl RingOp.step r).contents = t.ring.contents ∧
      runLog RingOp.step RingOp.accepted r ops =
        runLog RingAccess.step RingAccess.accepted s accesses ∧
      runLog RingOp.step RingOp.popped r ops =
        runLog RingAccess.step RingAccess.popped s accesses ∧
      r.contents ++ runLog RingAccess.step RingAccess.accepted s accesses =
        runLog RingAccess.step RingAccess.popped s accesses ++ t.ring.contents := by
  intro s t ops
  have halike : Alike s r := ⟨Spsc.inv_quiet h, h, rfl, rfl⟩
  obtain ⟨hend, haccepted, hpopped⟩ := halike.run accesses
  have hbalance := (RingOp.contents_run h ops).2
  refine ⟨hend.contents_eq, haccepted, hpopped, ?_⟩
  rw [← haccepted, ← hpopped, ← hend.contents_eq]
  exact hbalance

/-- A ring of two slots, its counters about to wrap, with an entry in the slot of the last value. -/
def wrappingRing : RingBuffer UInt64 32 where
  slots := [0, 5]
  prod := 0
  cons := BitVec.ofNat 32 (2 ^ 32 - 1)

/-- A push and a pop that cross: the pop begins before the push has published, and the push stores
before the pop has loaded. -/
def crossingCalls : List RingAccess :=
  [.push [6, 7], .pop 2, .produce, .consume, .produce, .consume, .pop 2, .consume, .consume]

theorem wrappingRing_wf : wrappingRing.Wf :=
  ⟨⟨1, by decide, rfl⟩, by decide⟩

theorem accesses_atomic_crossingCalls : wrappingRing.Wf ∧
    let s : Spsc UInt64 32 := ⟨wrappingRing, .idle, .idle⟩
    let t := crossingCalls.foldl RingAccess.step s
    let ops := runLog RingAccess.step RingAccess.op s crossingCalls
    (ops.foldl RingOp.step wrappingRing).contents = t.ring.contents ∧
      runLog RingOp.step RingOp.accepted wrappingRing ops =
        runLog RingAccess.step RingAccess.accepted s crossingCalls ∧
      runLog RingOp.step RingOp.popped wrappingRing ops =
        runLog RingAccess.step RingAccess.popped s crossingCalls ∧
      wrappingRing.contents ++ runLog RingAccess.step RingAccess.accepted s crossingCalls =
        runLog RingAccess.step RingAccess.popped s crossingCalls ++ t.ring.contents :=
  ⟨wrappingRing_wf, accesses_atomic wrappingRing_wf crossingCalls⟩

/-! ## The free list -/

/-- A free list that two threads are at work on. `pushing` is a push that has loaded the counters,
with its value and the number of entries it has seen, and not the headroom yet. -/
structure SharedFreeList where
  spsc : Spsc UInt64 64
  headroom : BitVec 64
  pushing : Option (UInt64 × ℕ)

/-- `check` is the load of the headroom in a push, and what it comes to. -/
inductive FreeAccess
  | push (v : UInt64)
  | check
  | produce
  | pop
  | consume
  | setHeadroom (headroom : BitVec 64)

namespace SharedFreeList

/-- The list as a thread that is alone finds it. -/
def view (s : SharedFreeList) : FreeList where
  ring := s.spsc.ring
  headroom := s.headroom

/-- The list between calls. -/
def ofFreeList (f : FreeList) : SharedFreeList where
  spsc := ⟨f.ring, .idle, .idle⟩
  headroom := f.headroom
  pushing := none

end SharedFreeList

namespace FreeAccess

/-- The access to the ring, if it is one. A push that has seen `used` entries is within its limit by
as many slots as it thinks, and needs one. -/
def event (s : SharedFreeList) : FreeAccess → Option (SpscEvent UInt64)
  | check => s.pushing.map fun p => .push (s.spsc.ring.used + (s.view.limit - p.2)) [p.1]
  | produce => some .produce
  | pop => some (.pop 1)
  | consume => some .consume
  | _ => none

def step (s : SharedFreeList) (a : FreeAccess) : SharedFreeList :=
  let spsc := (a.event s).elim s.spsc s.spsc.step
  match a with
  | push v =>
    match s.spsc.producer, s.pushing with
    | .idle, none => { s with pushing := some (v, s.spsc.ring.used) }
    | _, _ => s
  | setHeadroom headroom => { s with headroom := headroom }
  | check => { s with spsc := spsc, pushing := none }
  | _ => { s with spsc := spsc }

/-- The value of the push that returns true. -/
def accepted (s : SharedFreeList) (a : FreeAccess) : List UInt64 :=
  (a.event s).elim [] s.spsc.accepted

/-- The value of the pop that returns. -/
def popped (s : SharedFreeList) (a : FreeAccess) : List UInt64 :=
  (a.event s).elim [] s.spsc.popped

/-- No check with more headroom than capacity in a push that has seen the buffer full. -/
def Fits (s : SharedFreeList) : FreeAccess → Prop
  | check => ∀ p ∈ s.pushing,
    p.2 = s.spsc.ring.capacity → s.headroom.toNat ≤ s.spsc.ring.capacity
  | _ => True

end FreeAccess

/-! ### Calls that nothing comes in between -/

/-- A push alone is `tryPush`. -/
theorem tryPush_alone (f : FreeList) (consumer : Consumer UInt64 64) (v : UInt64) :
    [FreeAccess.push v, .check, .produce, .produce].foldl FreeAccess.step
        ⟨⟨f.ring, .idle, consumer⟩, f.headroom, none⟩ =
      ⟨⟨(f.tryPush v).2.ring, .idle, consumer⟩, f.headroom, none⟩ := by
  have hpush : FreeAccess.step ⟨⟨f.ring, .idle, consumer⟩, f.headroom, none⟩ (.push v) =
      ⟨⟨f.ring, .idle, consumer⟩, f.headroom, some (v, f.ring.used)⟩ := rfl
  have hcheck : FreeAccess.step ⟨⟨f.ring, .idle, consumer⟩, f.headroom, some (v, f.ring.used)⟩
      .check = ⟨Spsc.step ⟨f.ring, .idle, consumer⟩ (.push (f.ring.used + (f.limit - f.ring.used))
        [v]), f.headroom, none⟩ := rfl
  have hproduce (t : Spsc UInt64 64) : FreeAccess.step ⟨t, f.headroom, none⟩ .produce =
      ⟨t.step .produce, f.headroom, none⟩ := rfl
  simp only [List.foldl_cons, List.foldl_nil, hpush, hcheck, hproduce, FreeList.tryPush]
  by_cases hfull : f.limit ≤ f.ring.used
  · have hfree : f.ring.used + (f.limit - f.ring.used) - f.ring.used = 0 := by omega
    simp only [Spsc.step, hfree, hfull, if_true]
  · have hfree : f.ring.used + (f.limit - f.ring.used) - f.ring.used ≠ 0 := by omega
    have htake : [v].take (min (f.ring.used + (f.limit - f.ring.used) - f.ring.used) 1) = [v] :=
      List.take_of_length_le (le_min (by rw [List.length_singleton]; omega) le_rfl)
    simp only [Spsc.step, hfree, hfull, if_false, List.length_singleton, htake,
      RingBuffer.indices_one, List.zip_cons_cons, List.zip_nil_left]
    rfl

/-- A pop alone is `tryPop`. -/
theorem tryPop_alone (f : FreeList) (producer : Producer UInt64 64)
    (pushing : Option (UInt64 × ℕ)) :
    [FreeAccess.pop, .consume, .consume].foldl FreeAccess.step
        ⟨⟨f.ring, producer, .idle⟩, f.headroom, pushing⟩ =
      ⟨⟨f.tryPop.2.ring, producer, .idle⟩, f.headroom, pushing⟩ ∧
    runLog FreeAccess.step FreeAccess.popped ⟨⟨f.ring, producer, .idle⟩, f.headroom, pushing⟩
      [FreeAccess.pop, .consume, .consume] = f.tryPop.1.toList := by
  have hstep (t : Spsc UInt64 64) : FreeAccess.step ⟨t, f.headroom, pushing⟩ .consume =
      ⟨t.step .consume, f.headroom, pushing⟩ := rfl
  have hpopped (t : Spsc UInt64 64) : FreeAccess.popped ⟨t, f.headroom, pushing⟩ .consume =
      t.popped .consume := rfl
  have hpop : FreeAccess.step ⟨⟨f.ring, producer, .idle⟩, f.headroom, pushing⟩ .pop =
      ⟨Spsc.step ⟨f.ring, producer, .idle⟩ (.pop 1), f.headroom, pushing⟩ := rfl
  have hnone : FreeAccess.popped ⟨⟨f.ring, producer, .idle⟩, f.headroom, pushing⟩ .pop = [] := rfl
  simp only [List.foldl_cons, List.foldl_nil, runLog, hstep, hpopped, hpop, hnone,
    FreeList.tryPop, ← RingBuffer.used_eq_zero_iff]
  by_cases havail : f.ring.used = 0
  · simp only [Spsc.step, Spsc.popped, havail, if_true, List.nil_append, Option.toList_none,
      and_self]
  · have hone : min f.ring.used 1 = 1 := by omega
    simp only [Spsc.step, Spsc.popped, havail, if_false, hone, RingBuffer.indices_one,
      List.nil_append, List.append_nil]
    exact ⟨rfl, trivial⟩

/-! ### Runs -/

namespace SharedFreeList

variable {s : SharedFreeList} {cap : ℕ}

/-- A push that has loaded the counters has stored nothing yet, and has seen at least as many
entries as there still are. -/
structure Inv (cap : ℕ) (s : SharedFreeList) : Prop where
  spsc : s.spsc.Inv
  capacity_eq : s.spsc.ring.capacity = cap
  pushing : ∀ p ∈ s.pushing,
    s.spsc.producer = .idle ∧ s.spsc.ring.used ≤ p.2 ∧ p.2 ≤ s.spsc.ring.capacity

/-- A check that fits leaves a slot for the push. -/
theorem Inv.within (h : s.Inv cap) {p : UInt64 × ℕ} (hp : p ∈ s.pushing)
    (hfits : FreeAccess.check.Fits s) :
    s.spsc.Within (.push (s.spsc.ring.used + (s.view.limit - p.2)) [p.1]) := by
  obtain ⟨-, hseen, hle⟩ := h.pushing p hp
  rw [Spsc.Within, List.length_singleton]
  rcases Nat.lt_or_ge p.2 s.spsc.ring.capacity with hlt | hge
  · omega
  · have hhead := hfits p hp (Nat.le_antisymm hle hge)
    have hlimit : s.view.limit = s.spsc.ring.capacity - s.headroom.toNat :=
      FreeList.Wf.limit_eq ⟨h.spsc.wf, hhead⟩
    have hused := h.spsc.wf.used_le
    omega

/-- A consumer takes entries away only. -/
theorem used_consume_le (h : s.spsc.Inv) :
    (s.spsc.step .consume).ring.used ≤ s.spsc.ring.used := by
  obtain ⟨hinv, -, hqueue⟩ := h.queueStep (e := .consume) trivial
  have hlen := congrArg List.length hqueue.balance
  have haccepted : s.spsc.accepted .consume = [] := rfl
  rw [haccepted, List.append_nil, List.length_append, RingBuffer.length_contents h.wf,
    RingBuffer.length_contents hinv.wf] at hlen
  omega

theorem producer_consume (t : Spsc UInt64 64) : (t.step .consume).producer = t.producer := by
  rcases hc : t.consumer with _ | ⟨cons, n, _ | ⟨i, rest⟩, got⟩ <;> simp only [Spsc.step, hc]

theorem producer_pop (t : Spsc UInt64 64) (max : ℕ) :
    (t.step (.pop max)).producer = t.producer := by
  cases hc : t.consumer with
  | loading cons n rest got => simp only [Spsc.step, hc]
  | idle =>
    simp only [Spsc.step, hc]
    split_ifs <;> rfl

theorem Inv.step (h : s.Inv cap) {a : FreeAccess} (hfits : a.Fits s) :
    (a.step s).Inv cap ∧ s.spsc.ring.contents ++ a.accepted s =
      a.popped s ++ (a.step s).spsc.ring.contents := by
  cases a with
  | push v =>
    have haccepted : (FreeAccess.push v).accepted s = [] := rfl
    have hpopped : (FreeAccess.push v).popped s = [] := rfl
    rw [haccepted, hpopped, List.append_nil, List.nil_append]
    simp only [FreeAccess.step]
    split
    · rename_i hidle hnone
      refine ⟨⟨h.spsc, h.capacity_eq, ?_⟩, rfl⟩
      rintro p ⟨⟩
      exact ⟨hidle, le_rfl, h.spsc.wf.used_le⟩
    · exact ⟨h, rfl⟩
  | setHeadroom headroom =>
    exact ⟨⟨h.spsc, h.capacity_eq, h.pushing⟩, List.append_nil _⟩
  | check =>
    rcases hp : s.pushing with _ | p
    · have hstep : FreeAccess.check.step s = { s with pushing := none } := by
        simp only [FreeAccess.step, FreeAccess.event, hp, Option.map_none, Option.elim_none]
      have haccepted : FreeAccess.check.accepted s = [] := by
        simp only [FreeAccess.accepted, FreeAccess.event, hp, Option.map_none, Option.elim_none]
      have hpopped : FreeAccess.check.popped s = [] := by
        simp only [FreeAccess.popped, FreeAccess.event, hp, Option.map_none, Option.elim_none]
      rw [hstep, haccepted, hpopped]
      exact ⟨⟨h.spsc, h.capacity_eq, nofun⟩, List.append_nil _⟩
    · obtain ⟨hinv, hcap, hqueue⟩ := h.spsc.queueStep (h.within hp hfits)
      simp only [FreeAccess.step, FreeAccess.accepted, FreeAccess.popped, FreeAccess.event, hp,
        Option.map_some, Option.elim_some]
      exact ⟨⟨hinv, hcap.trans h.capacity_eq, nofun⟩, hqueue.balance⟩
  | produce =>
    obtain ⟨hinv, hcap, hqueue⟩ := h.spsc.queueStep (e := .produce) trivial
    refine ⟨⟨hinv, hcap.trans h.capacity_eq, fun p hp => ?_⟩, hqueue.balance⟩
    have hidle := (h.pushing p hp).1
    have hstay : s.spsc.step .produce = s.spsc := by simp only [Spsc.step, hidle]
    change (s.spsc.step .produce).producer = .idle ∧ (s.spsc.step .produce).ring.used ≤ p.2 ∧
      p.2 ≤ (s.spsc.step .produce).ring.capacity
    rw [hstay]
    exact h.pushing p hp
  | pop =>
    obtain ⟨hinv, hcap, hqueue⟩ := h.spsc.queueStep (e := .pop 1) trivial
    refine ⟨⟨hinv, hcap.trans h.capacity_eq, fun p hp => ?_⟩, hqueue.balance⟩
    obtain ⟨hidle, hseen, hle⟩ := h.pushing p hp
    have hring := (h.spsc.pop 1).2
    refine ⟨(producer_pop s.spsc 1).trans hidle, ?_, ?_⟩
    · exact (congrArg RingBuffer.used hring).trans_le hseen
    · exact hle.trans_eq hcap.symm
  | consume =>
    obtain ⟨hinv, hcap, hqueue⟩ := h.spsc.queueStep (e := .consume) trivial
    refine ⟨⟨hinv, hcap.trans h.capacity_eq, fun p hp => ?_⟩, hqueue.balance⟩
    obtain ⟨hidle, hseen, hle⟩ := h.pushing p hp
    exact ⟨(producer_consume s.spsc).trans hidle, (used_consume_le h.spsc).trans hseen,
      hle.trans_eq hcap.symm⟩

end SharedFreeList

/-- **The free list is a queue access by access**, whatever the headroom does in between: as long as
no push that has seen the buffer full finds more headroom than capacity, what the pushes take in is
what the pops give out and what is left, in order, and the buffer is never overfull. -/
theorem freeList_accesses_fifo {f : FreeList} (h : f.ring.Wf) {accesses : List FreeAccess}
    (hfits : Along FreeAccess.step FreeAccess.Fits (.ofFreeList f) accesses) :
    let s := SharedFreeList.ofFreeList f
    let t := accesses.foldl FreeAccess.step s
    f.contents ++ runLog FreeAccess.step FreeAccess.accepted s accesses =
        runLog FreeAccess.step FreeAccess.popped s accesses ++ t.view.contents ∧
      t.view.contents.length ≤ f.ring.capacity := by
  intro s t
  have hinv : s.Inv f.ring.capacity := ⟨Spsc.inv_quiet h, rfl, nofun⟩
  obtain ⟨hend, hbalance⟩ := runLog_balance_along (SharedFreeList.Inv f.ring.capacity)
    (·.spsc.ring.contents) (fun _ _ h hfits => h.step hfits) hinv hfits
  refine ⟨hbalance, ?_⟩
  have hlen := RingBuffer.length_contents hend.spsc.wf
  have hused := hend.spsc.wf.used_le
  rw [← hlen, hend.capacity_eq] at hused
  exact hused

/-- A list of two slots that holds one entry. -/
def twoSlotList : FreeList where
  ring := { slots := [4, 0], prod := 1, cons := 0 }
  headroom := 1

/-- A push that has seen one entry, with a pop and a smaller headroom before its check. -/
def crossingFrees : List FreeAccess :=
  [.push 5, .pop, .setHeadroom 0, .consume, .check, .produce, .consume, .produce, .pop, .consume,
    .consume]

theorem freeList_accesses_fifo_crossingFrees : twoSlotList.ring.Wf ∧
    Along FreeAccess.step FreeAccess.Fits (.ofFreeList twoSlotList) crossingFrees ∧
    let s := SharedFreeList.ofFreeList twoSlotList
    let t := crossingFrees.foldl FreeAccess.step s
    twoSlotList.contents ++ runLog FreeAccess.step FreeAccess.accepted s crossingFrees =
        runLog FreeAccess.step FreeAccess.popped s crossingFrees ++ t.view.contents ∧
      t.view.contents.length ≤ twoSlotList.ring.capacity := by
  have hwf : twoSlotList.ring.Wf := ⟨⟨1, by decide, rfl⟩, by decide⟩
  have hfits : Along FreeAccess.step FreeAccess.Fits (.ofFreeList twoSlotList) crossingFrees := by
    refine ⟨trivial, trivial, trivial, trivial, ?_, trivial, trivial, trivial, trivial, trivial,
      trivial, trivial⟩
    exact fun p _ _ => Nat.zero_le _
  exact ⟨hwf, hfits, freeList_accesses_fifo hwf hfits⟩

end SmipMwp.AfXdp
