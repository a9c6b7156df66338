import SmipMwp.AfXdp.FreeList
import SmipMwp.Foundations.Runs
import Mathlib.Data.List.Induction

/-!
# The free list under a changing headroom

The headroom can be set to any number while the list is in use. A push is refused when `capacity -
headroom` entries are stored, a wrapping difference: with more headroom than capacity it is a large
number, no push is refused, and a push on a full buffer overwrites the oldest entry and makes the
list one longer than its buffer.

As long as that push is not made (`FreeOp.Fits`), the list is a queue of at most its capacity,
whatever the headroom was set to and when; and it is one in no other run (`freeList_faithful_iff`).
-/

namespace SmipMwp.AfXdp

/-- `set_headroom`. -/
def FreeList.setHeadroom (f : FreeList) (headroom : BitVec 64) : FreeList :=
  { f with headroom := headroom }

inductive FreeOp
  | push (v : UInt64)
  | pop
  | setHeadroom (headroom : BitVec 64)

namespace FreeOp

def step (f : FreeList) : FreeOp → FreeList
  | push v => (f.tryPush v).2
  | pop => f.tryPop.2
  | setHeadroom headroom => f.setHeadroom headroom

/-- The value that the call adds, if it is a push that succeeds. -/
def accepted (f : FreeList) : FreeOp → List UInt64
  | push v => if (f.tryPush v).1 then [v] else []
  | _ => []

/-- The value that the call returns, if it is a pop that succeeds. -/
def popped (f : FreeList) : FreeOp → List UInt64
  | pop => f.tryPop.1.toList
  | _ => []

/-- No push on a full buffer with more headroom than capacity. -/
def Fits (f : FreeList) : FreeOp → Prop
  | push _ => f.ring.used = f.ring.capacity → f.headroom.toNat ≤ f.ring.capacity
  | _ => True

end FreeOp

namespace FreeList

variable {f : FreeList}

/-- With more headroom than capacity no number of entries counts as full. -/
theorem capacity_lt_limit (h : f.ring.Wf) (hlt : f.ring.capacity < f.headroom.toNat) :
    f.ring.capacity < f.limit := by
  have hcap := h.capacity_lt
  have hhead := f.headroom.isLt
  rw [limit, BitVec.toNat_sub, BitVec.toNat_ofNat, Nat.mod_eq_of_lt hcap,
    Nat.mod_eq_of_lt (by omega)]
  omega

/-- A push that fits is refused, or finds a free slot. -/
theorem tryPush_of_fits (h : f.ring.Wf) {v : UInt64} (hfits : FreeOp.Fits f (.push v)) :
    f.tryPush v = (false, f) ∨
      f.ring.used + [v].length ≤ f.ring.capacity ∧
        f.tryPush v = (true, { f with ring := f.ring.push [v] }) := by
  by_cases hfull : f.limit ≤ f.ring.used
  · exact .inl (by rw [tryPush, if_pos hfull])
  · have hpush : f.tryPush v = (true, { f with ring := f.ring.push [v] }) := by
      rw [tryPush, if_neg hfull, RingBuffer.push, RingBuffer.write_singleton h]
      rfl
    refine .inr ⟨?_, hpush⟩
    have hle := h.used_le
    rw [List.length_singleton]
    rcases Nat.lt_or_ge f.ring.capacity f.headroom.toNat with hlt | hge
    · have hne : f.ring.used ≠ f.ring.capacity := fun heq => absurd (hfits heq) (by omega)
      omega
    · rw [Wf.limit_eq ⟨h, hge⟩] at hfull
      omega

/-- A push that does not fit is accepted. -/
theorem tryPush_of_not_fits (h : f.ring.Wf) {v : UInt64} (hfits : ¬ FreeOp.Fits f (.push v)) :
    f.ring.used = f.ring.capacity ∧ (f.tryPush v).1 = true := by
  simp only [FreeOp.Fits, Classical.not_imp, not_le] at hfits
  have hlimit := capacity_lt_limit h hfits.2
  rw [tryPush, if_neg (by omega)]
  exact ⟨hfits.1, rfl⟩

end FreeList

/-! ## Runs -/

namespace FreeOp

variable {f : FreeList}

theorem step_spec (h : f.ring.Wf) (op : FreeOp) (hfits : op.Fits f) :
    (op.step f).ring.Wf ∧ (op.step f).ring.capacity = f.ring.capacity ∧
      f.contents ++ op.accepted f = op.popped f ++ (op.step f).contents := by
  cases op with
  | push v =>
    rcases FreeList.tryPush_of_fits h hfits with hpush | ⟨hroom, hpush⟩
    · simp only [step, accepted, popped, hpush]
      exact ⟨h, trivial, List.append_nil _⟩
    · simp only [step, accepted, popped, hpush]
      exact ⟨h.push hroom, RingBuffer.capacity_push h hroom,
        (RingBuffer.contents_push h hroom).symm⟩
  | pop =>
    simp only [step, accepted, popped, List.append_nil]
    rcases hcons : f.contents with _ | ⟨v, rest⟩
    · have hnone := (FreeList.tryPop_eq_none_iff h).mpr hcons
      have hstay : f.tryPop.2 = f := by
        have hempty := RingBuffer.length_contents h
        rw [show f.ring.contents = [] from hcons] at hempty
        rw [FreeList.tryPop, if_pos (RingBuffer.used_eq_zero_iff.mp hempty.symm)]
      rw [hnone, hstay]
      exact ⟨h, rfl, hcons.symm⟩
    · obtain ⟨hpos, hpop⟩ := FreeList.tryPop_eq_some h hcons
      rw [hpop]
      refine ⟨h.pop hpos, rfl, ?_⟩
      change _ = [v] ++ (f.ring.pop 1).2.contents
      rw [RingBuffer.contents_pop h hpos, show f.ring.contents = v :: rest from hcons]
      rfl
  | setHeadroom headroom => exact ⟨h, rfl, List.append_nil _⟩

/-- **The balance of a run** that fits: what is accepted is popped or still in the list. -/
theorem contents_run (h : f.ring.Wf) {ops : List FreeOp} (hfits : Along step Fits f ops) :
    ((ops.foldl step f).ring.Wf ∧ (ops.foldl step f).ring.capacity = f.ring.capacity) ∧
      f.contents ++ runLog step accepted f ops =
        runLog step popped f ops ++ (ops.foldl step f).contents := by
  refine runLog_balance_along (fun g => g.ring.Wf ∧ g.ring.capacity = f.ring.capacity)
    FreeList.contents ?_ ⟨h, rfl⟩ hfits
  rintro g op ⟨hwf, hcap⟩ hfits
  obtain ⟨hwf', hcap', hcontents⟩ := step_spec hwf op hfits
  exact ⟨⟨hwf', hcap'.trans hcap⟩, hcontents⟩

end FreeOp

/-- **The list has neither lost, duplicated nor invented a frame** in the calls `ops`: what was
popped is a prefix of what was accepted, no more than the buffer holds is stored, and a pop finds
nothing exactly when all has been popped. -/
structure FreeList.Faithful (f : FreeList) (ops : List FreeOp) : Prop where
  fifo : runLog FreeOp.step FreeOp.popped f ops <+: runLog FreeOp.step FreeOp.accepted f ops
  stored_le : (runLog FreeOp.step FreeOp.accepted f ops).length ≤
    (runLog FreeOp.step FreeOp.popped f ops).length + f.ring.capacity
  none_iff : (ops.foldl FreeOp.step f).tryPop.1 = none ↔
    runLog FreeOp.step FreeOp.popped f ops = runLog FreeOp.step FreeOp.accepted f ops

section

variable {f : FreeList} (h : f.ring.Wf) (hempty : f.contents = []) {ops : List FreeOp}

include h hempty

theorem FreeList.faithful_of_fits (hfits : Along FreeOp.step FreeOp.Fits f ops) :
    f.Faithful ops := by
  obtain ⟨⟨hwf, hcap⟩, hrun⟩ := FreeOp.contents_run h hfits
  rw [hempty, List.nil_append] at hrun
  refine ⟨hrun ▸ List.prefix_append _ _, ?_, ?_⟩
  · have hused := hwf.used_le
    rw [hcap, ← RingBuffer.length_contents hwf] at hused
    rw [hrun, List.length_append]
    exact Nat.add_le_add_left hused _
  · rw [FreeList.tryPop_eq_none_iff hwf, hrun, List.self_eq_append_right]

/-- The first push that does not fit stores one entry too many. -/
theorem FreeList.not_faithful_of_not_fits {op : FreeOp}
    (hfits : Along FreeOp.step FreeOp.Fits f ops)
    (hlast : ¬ op.Fits (ops.foldl FreeOp.step f)) : ¬ f.Faithful (ops ++ [op]) := by
  cases op with
  | push v =>
    obtain ⟨⟨hwf, hcap⟩, hrun⟩ := FreeOp.contents_run h hfits
    obtain ⟨hused, haccept⟩ := FreeList.tryPush_of_not_fits hwf hlast
    have hlen := congrArg List.length hrun
    rw [hempty, List.nil_append, List.length_append,
      show (ops.foldl FreeOp.step f).contents.length = _ from RingBuffer.length_contents hwf, hused,
      hcap] at hlen
    intro hfaithful
    have hstored := hfaithful.stored_le
    simp only [runLog_append_singleton, List.length_append, FreeOp.accepted, FreeOp.popped,
      haccept, if_true, List.length_singleton, List.length_nil] at hstored
    omega
  | pop => exact absurd trivial hlast
  | setHeadroom headroom => exact absurd trivial hlast

end

/-- **The free list is faithful exactly as long as** no push is made while the buffer is full and
the headroom larger than it: for every number of frames and configured headroom, and any calls of
push, pop and `set_headroom`. -/
theorem freeList_faithful_iff {n : ℕ} {env : Option ℕ} (hslots : FreeList.slotCount n env < 2 ^ 64)
    (ops : List FreeOp) :
    (∀ ops', ops' <+: ops → (FreeList.withCapacity n env).Faithful ops') ↔
      Along FreeOp.step FreeOp.Fits (FreeList.withCapacity n env) ops := by
  have hwf := (FreeList.withCapacity_wf hslots).ring
  have hempty : (FreeList.withCapacity n env).contents = [] :=
    RingBuffer.contents_of_used_eq_zero hwf (RingBuffer.used_eq_zero_iff.mpr rfl)
  induction ops using List.reverseRecOn with
  | nil =>
    refine iff_of_true (fun ops' h => ?_) trivial
    obtain rfl := List.prefix_nil.mp h
    exact FreeList.faithful_of_fits hwf hempty trivial
  | append_singleton ops op ih =>
    rw [along_append_singleton]
    constructor
    · intro hall
      have hbefore : ∀ ops', ops' <+: ops → (FreeList.withCapacity n env).Faithful ops' :=
        fun ops' h => hall ops' (h.trans (List.prefix_append _ _))
      refine ⟨ih.mp hbefore, ?_⟩
      by_contra hlast
      exact FreeList.not_faithful_of_not_fits hwf hempty (ih.mp hbefore) hlast
        (hall _ (List.prefix_refl _))
    · rintro ⟨hbefore, hlast⟩ ops' h
      rcases List.prefix_concat_iff.mp h with rfl | h
      · refine FreeList.faithful_of_fits hwf hempty ?_
        exact (along_append_singleton ..).mpr ⟨hbefore, hlast⟩
      · exact ih.mpr hbefore ops' h

/-- One slot: a push, a pop, and more headroom than slots in between. -/
theorem freeList_faithful_one : FreeList.slotCount 1 (some 0) < 2 ^ 64 ∧
    (FreeList.withCapacity 1 (some 0)).Faithful [.push 5, .setHeadroom 2, .pop] := by
  have hslots : FreeList.slotCount 1 (some 0) < 2 ^ 64 := by decide +kernel
  refine ⟨hslots, (freeList_faithful_iff hslots [.push 5, .setHeadroom 2, .pop]).mpr ?_ _
    (List.prefix_refl _)⟩
  exact ⟨fun _ => by decide +kernel, trivial, trivial, trivial⟩

/-- One slot, and more headroom than slots: the second push overwrites the first, and the pop
returns the second value. -/
theorem freeList_not_faithful : ¬ ∀ (n : ℕ) (env : Option ℕ),
    FreeList.slotCount n env < 2 ^ 64 → ∀ ops, (FreeList.withCapacity n env).Faithful ops := by
  intro h
  have hfifo := (h 1 (some 0) (by decide +kernel) [.setHeadroom 2, .push 5, .push 6, .pop]).fifo
  exact absurd hfifo (by decide +kernel)

end SmipMwp.AfXdp
