import SmipMwp.AfXdp.Rings
import SmipMwp.Foundations.Runs
import Mathlib.Data.List.Induction

/-!
# The descriptor rings are queues

A producer pushes on one end of a ring what a consumer pops from the other, in any order, from any
value of the counters. What is accepted is what is popped and what is still in the ring, in order
(`RingOp.contents_run`); and as the consumer has moved by as much as it has popped, the entry
accepted in position `i` sits in the slot that is `i` after the start, until it is popped
(`ring_fifo`).
-/

namespace SmipMwp.AfXdp

/-- A call of the producer, or of the consumer. -/
inductive RingOp
  | push (addrs : List UInt64)
  | pop (max : ℕ)

namespace RingOp

def step (r : RingBuffer UInt64 32) : RingOp → RingBuffer UInt64 32
  | push addrs => (ringPush r addrs).2
  | pop max => (ringPop r max).2

/-- What the call adds to the ring: as many of the addresses as it returns. -/
def accepted (r : RingBuffer UInt64 32) : RingOp → List UInt64
  | push addrs => addrs.take (ringPush r addrs).1
  | pop _ => []

/-- What the call returns of the ring. -/
def popped (r : RingBuffer UInt64 32) : RingOp → List UInt64
  | push _ => []
  | pop max => (ringPop r max).1

variable {r : RingBuffer UInt64 32}

theorem step_spec (h : r.Wf) (op : RingOp) :
    (op.step r).Wf ∧ (op.step r).capacity = r.capacity ∧
      (op.step r).cons = r.cons + BitVec.ofNat 32 (op.popped r).length ∧
      r.contents ++ op.accepted r = op.popped r ++ (op.step r).contents := by
  cases op with
  | push addrs =>
    obtain ⟨hwf, hcap, hcons, hcontents⟩ := contents_ringPush h addrs
    exact ⟨hwf, hcap, hcons.trans (BitVec.add_zero _).symm, hcontents.symm⟩
  | pop max =>
    obtain ⟨hwf, hcap, hcons, hcontents⟩ := contents_ringPop h max
    exact ⟨hwf, hcap, hcons, (List.append_nil _).trans hcontents⟩

/-- **The balance of a run**: what is accepted is popped or still in the ring. -/
theorem contents_run (h : r.Wf) (ops : List RingOp) :
    (ops.foldl step r).Wf ∧ r.contents ++ runLog step accepted r ops =
      runLog step popped r ops ++ (ops.foldl step r).contents :=
  runLog_balance RingBuffer.Wf RingBuffer.contents
    (fun _ op h => ⟨(step_spec h op).1, (step_spec h op).2.2.2⟩) h ops

/-- A run leaves the slots where they are, and moves the consumer by what it pops. -/
theorem cons_run (h : r.Wf) (ops : List RingOp) :
    (ops.foldl step r).capacity = r.capacity ∧ (ops.foldl step r).cons =
      r.cons + BitVec.ofNat 32 (runLog step popped r ops).length := by
  induction ops using List.reverseRecOn with
  | nil => exact ⟨rfl, (BitVec.add_zero _).symm⟩
  | append_singleton ops op ih =>
    obtain ⟨-, hcap, hcons, -⟩ := step_spec (contents_run h ops).1 op
    rw [List.foldl_append, List.foldl_cons, List.foldl_nil, runLog_append_singleton,
      List.length_append, BitVec.ofNat_add, ← BitVec.add_assoc, ← ih.2]
    exact ⟨hcap.trans ih.1, hcons⟩

end RingOp

/-- **The descriptor rings are FIFO queues.** On a ring of a power of two of at most `2 ^ 31` slots
that starts empty, with its two counters anywhere, after any calls of the push and of the pop: what
was popped is a prefix of what was accepted, no more than the capacity is outstanding, and every
outstanding entry is in the slot that its position selects. -/
theorem ring_fifo (r : RingBuffer UInt64 32) (hcap : ∃ k ≤ 31, r.capacity = 2 ^ k)
    (hempty : r.cons = r.prod) (ops : List RingOp) :
    runLog RingOp.step RingOp.popped r ops <+: runLog RingOp.step RingOp.accepted r ops ∧
    (runLog RingOp.step RingOp.accepted r ops).length ≤
      (runLog RingOp.step RingOp.popped r ops).length + r.capacity ∧
    ∀ i, (runLog RingOp.step RingOp.popped r ops).length ≤ i →
      i < (runLog RingOp.step RingOp.accepted r ops).length →
      (ops.foldl RingOp.step r).slots[r.index (r.prod + BitVec.ofNat 32 i)]? =
        (runLog RingOp.step RingOp.accepted r ops)[i]? := by
  have hwf : r.Wf := by
    obtain ⟨k, hk, hcap⟩ := hcap
    exact .of_cons_eq_prod ⟨k, by omega, hcap⟩ hempty
  have hnone : r.contents = [] :=
    RingBuffer.contents_of_used_eq_zero hwf (RingBuffer.used_eq_zero_iff.mpr hempty)
  obtain ⟨hwf', hrun⟩ := RingOp.contents_run hwf ops
  obtain ⟨hcap', hcons⟩ := RingOp.cons_run hwf ops
  rw [hnone, List.nil_append] at hrun
  have hlen := congrArg List.length hrun
  rw [List.length_append, RingBuffer.length_contents hwf'] at hlen
  refine ⟨hrun ▸ List.prefix_append _ _, ?_, fun i hle hlt => ?_⟩
  · have hused := hwf'.used_le
    rw [hcap'] at hused
    omega
  · obtain ⟨j, rfl⟩ := Nat.exists_eq_add_of_le hle
    have hslot := RingBuffer.getElem?_contents hwf' j
    rw [if_pos (by omega)] at hslot
    rw [hrun, List.getElem?_append_right hle, Nat.add_sub_cancel_left, hslot, hcons, hcap',
      hempty, hwf.index_eq, BitVec.ofNat_add, ← BitVec.add_assoc]
    congr 1
    exact (hwf.toNat_add_mod _ j 0).trans (by rw [Nat.add_zero])

/-- Two slots, and counters that wrap with the second push. -/
theorem ring_fifo_wrap :
    let r : RingBuffer UInt64 32 := { slots := [0, 0], prod := 0xffffffff, cons := 0xffffffff }
    let ops : List RingOp := [.push [5], .push [6, 7], .pop 1, .push [8]]
    (∃ k ≤ 31, r.capacity = 2 ^ k) ∧ r.cons = r.prod ∧
      runLog RingOp.step RingOp.popped r ops = [5] ∧
      runLog RingOp.step RingOp.accepted r ops = [5, 6, 8] ∧
      [5] <+: ([5, 6, 8] : List UInt64) :=
  ⟨⟨1, by decide, rfl⟩, rfl, by decide +kernel, by decide +kernel,
    (ring_fifo { slots := [0, 0], prod := 0xffffffff, cons := 0xffffffff } ⟨1, by decide, rfl⟩ rfl
      [.push [5], .push [6, 7], .pop 1, .push [8]]).1⟩

end SmipMwp.AfXdp
