import Mathlib.Data.List.Induction
import SmipMwp.Routing.Table

/-!
# Flow policies

A `Router` maps the 64-bit key of a flow to its policy. The key is the XOR of the words of both
identifiers and of the label, so a flow and its reverse have one key (`computeFlowKey_reverse`), and
the flows from a node to itself have their label as key. Key 0 is also the slot of the default
policy, which every flow without a policy of its own is answered with. An update for one flow
therefore reaches another one in two ways, by an equal key and through the default slot
(`lookupPolicy_updatePolicy`), and these are the only two (`policies_separate_iff`).
-/

namespace SmipMwp.Routing

open Wire (Id)

structure RoutePolicy where
  nextHopId : Id
  queueId : Int32
  priority : Int32
  deriving DecidableEq

/-- What a policy is looked up and updated for. -/
structure Flow where
  srcId : Id
  dstId : Id
  flowLabel : UInt32
  deriving DecidableEq

/-- The flow in the other direction. -/
def Flow.reverse (f : Flow) : Flow :=
  { srcId := f.dstId, dstId := f.srcId, flowLabel := f.flowLabel }

structure Router where
  inner : Std.TreeMap UInt64 RoutePolicy

/-- The arguments of an `update_policy`. -/
structure PolicyUpdate where
  flow : Flow
  nextHopId : Id
  queueId : Int32
  deriving DecidableEq

namespace Router

def seedDefaultPolicies (r : Router) : Router :=
  { r with inner := r.inner.insert 0 { nextHopId := zeroId, queueId := 0, priority := 10 } }

def new : Router := seedDefaultPolicies { inner := {} }

def computeFlowKey (f : Flow) : UInt64 := fastFlowHash f.srcId f.dstId f.flowLabel

def lookupPolicy (r : Router) (f : Flow) : Except String RoutePolicy :=
  match r.inner[computeFlowKey f]? with
  | some p => .ok p
  | none =>
    match r.inner[(0 : UInt64)]? with
    | some p => .ok p
    | none => .error "no policy available"

def updatePolicy (r : Router) (u : PolicyUpdate) : Router :=
  { r with
    inner := r.inner.insert (computeFlowKey u.flow)
      { nextHopId := u.nextHopId, queueId := u.queueId, priority := 1 } }

/-- The router after the updates `us`. -/
def run (us : List PolicyUpdate) : Router := us.foldl updatePolicy new

/-! ## Keys -/

/-- A flow and its reverse have one key. -/
theorem computeFlowKey_reverse (f : Flow) : computeFlowKey f.reverse = computeFlowKey f := by
  simp only [computeFlowKey, Flow.reverse, fastFlowHash]
  ac_rfl

/-! ## Slots -/

theorem getElem?_inner_updatePolicy (r : Router) (u : PolicyUpdate) (k : UInt64) :
    (r.updatePolicy u).inner[k]? =
      if computeFlowKey u.flow = k then
        some { nextHopId := u.nextHopId, queueId := u.queueId, priority := 1 }
      else r.inner[k]? := by
  rw [updatePolicy, Std.TreeMap.getElem?_insert]
  simp only [Std.compare_eq_iff_eq]

/-- A slot is empty until an update writes it, except for the default one. -/
theorem getElem?_inner_run_eq_none_iff (us : List PolicyUpdate) (k : UInt64) :
    (run us).inner[k]? = none ↔ k ≠ 0 ∧ ∀ u ∈ us, computeFlowKey u.flow ≠ k := by
  induction us using List.reverseRecOn with
  | nil =>
    rw [run, List.foldl_nil, new, seedDefaultPolicies, Std.TreeMap.getElem?_insert]
    simp only [Std.compare_eq_iff_eq, Std.TreeMap.getElem?_emptyc]
    simp [eq_comm (a := k)]
  | append_singleton us u ih =>
    rw [run, List.foldl_append, List.foldl_cons, List.foldl_nil, getElem?_inner_updatePolicy]
    split_ifs with hk
    · simp [hk]
    · rw [← run, ih]
      simp [or_imp, forall_and, hk]

/-- The default slot is never empty, so there always is a policy. -/
theorem exists_lookupPolicy_run (us : List PolicyUpdate) (f : Flow) :
    ∃ p, (run us).lookupPolicy f = .ok p := by
  unfold lookupPolicy
  cases (run us).inner[computeFlowKey f]? with
  | some p => exact ⟨p, rfl⟩
  | none =>
    cases hzero : (run us).inner[(0 : UInt64)]? with
    | some p => exact ⟨p, rfl⟩
    | none => exact absurd rfl ((getElem?_inner_run_eq_none_iff us 0).mp hzero).1

/-- An update for one flow is what another one is answered with, if they have one key, or if the
update writes the default slot and the other flow has no policy of its own. -/
theorem lookupPolicy_updatePolicy (r : Router) (u : PolicyUpdate) (g : Flow) :
    (r.updatePolicy u).lookupPolicy g =
      if computeFlowKey u.flow = computeFlowKey g ∨
          computeFlowKey u.flow = 0 ∧ r.inner[computeFlowKey g]? = none then
        .ok { nextHopId := u.nextHopId, queueId := u.queueId, priority := 1 }
      else r.lookupPolicy g := by
  simp only [lookupPolicy, getElem?_inner_updatePolicy]
  by_cases hkey : computeFlowKey u.flow = computeFlowKey g
  · rw [if_pos hkey, if_pos (Or.inl hkey)]
  · rw [if_neg hkey]
    cases hown : r.inner[computeFlowKey g]? with
    | some p =>
      have hnot : ¬ (computeFlowKey u.flow = computeFlowKey g ∨
          computeFlowKey u.flow = 0 ∧ some p = none) := by simp [hkey]
      rw [if_neg hnot]
    | none =>
      by_cases hzero : computeFlowKey u.flow = 0
      · rw [if_pos hzero, if_pos (Or.inr ⟨hzero, rfl⟩)]
      · rw [if_neg hzero, if_neg (by simp [hkey, hzero])]

/-- The two ways an update for `f` reaches `g` (`lookupPolicy_updatePolicy`), in terms of the
updates before it. -/
theorem reaches_iff (us : List PolicyUpdate) (f g : Flow) :
    (computeFlowKey f = computeFlowKey g ∨
      computeFlowKey f = 0 ∧ (run us).inner[computeFlowKey g]? = none) ↔
      ¬ (computeFlowKey f ≠ computeFlowKey g ∧
        (computeFlowKey f = 0 → ∃ u ∈ us, computeFlowKey u.flow = computeFlowKey g)) := by
  rw [getElem?_inner_run_eq_none_iff]
  constructor
  · rintro (hkey | ⟨hzero, -, hnone⟩) ⟨hne, hown⟩
    · exact hne hkey
    · obtain ⟨u, hu, hug⟩ := hown hzero
      exact hnone u hu hug
  · intro h
    by_contra! hnot
    refine h ⟨hnot.1, fun hzero => ?_⟩
    exact hnot.2 hzero fun hg => hnot.1 (hzero.trans hg.symm)

end Router

/-- **Policies of two flows are separate** after the updates `us` exactly when their keys differ and
the key of the first is not that of the default slot, unless the second has had an update of its
own: then no update for the first changes what the second is answered with. Otherwise every update
for the first is what the second is answered with. -/
theorem policies_separate_iff (us : List PolicyUpdate) (f g : Flow) :
    ((∀ nextHopId queueId,
      ((Router.run us).updatePolicy ⟨f, nextHopId, queueId⟩).lookupPolicy g =
        (Router.run us).lookupPolicy g) ↔
      Router.computeFlowKey f ≠ Router.computeFlowKey g ∧
        (Router.computeFlowKey f = 0 →
          ∃ u ∈ us, Router.computeFlowKey u.flow = Router.computeFlowKey g)) ∧
    (¬ (Router.computeFlowKey f ≠ Router.computeFlowKey g ∧
        (Router.computeFlowKey f = 0 →
          ∃ u ∈ us, Router.computeFlowKey u.flow = Router.computeFlowKey g)) →
      ∀ nextHopId queueId,
        ((Router.run us).updatePolicy ⟨f, nextHopId, queueId⟩).lookupPolicy g =
          .ok { nextHopId := nextHopId, queueId := queueId, priority := 1 }) := by
  have hreach := Router.reaches_iff us f g
  simp only [Router.lookupPolicy_updatePolicy]
  refine ⟨⟨fun h => ?_, fun h nextHopId queueId => ?_⟩, fun h nextHopId queueId => ?_⟩
  · -- two updates that differ in the queue cannot both leave the answer as it was
    by_contra hnot
    have h₀ := h zeroId 0
    have h₁ := h zeroId 1
    rw [if_pos (hreach.mpr hnot)] at h₀ h₁
    rw [← h₁] at h₀
    exact absurd h₀ (by decide)
  · exact if_neg fun hr => hreach.mp hr h
  · exact if_pos (hreach.mpr h)

/-- An update for a flow replaces the policy of the flow in the other direction. -/
theorem policies_not_separate :
    ¬ ∀ (us : List PolicyUpdate) (f g : Flow), f ≠ g → ∀ nextHopId queueId,
      ((Router.run us).updatePolicy ⟨f, nextHopId, queueId⟩).lookupPolicy g =
        (Router.run us).lookupPolicy g := by
  intro h
  have hkept := h [] ⟨zeroId, Vector.replicate 32 1, 7⟩
    (Flow.reverse ⟨zeroId, Vector.replicate 32 1, 7⟩) (by decide) zeroId 3
  rw [Router.lookupPolicy_updatePolicy,
    if_pos (Or.inl (Router.computeFlowKey_reverse _).symm)] at hkept
  exact absurd hkept (by decide +kernel)

end SmipMwp.Routing
