import SmipMwp.Cli.Control
import SmipMwp.Foundations.Runs
import Mathlib.Data.List.Induction
import Mathlib.Data.List.Nodup
import Mathlib.Logic.Function.Basic

/-!
# The registry of socket instances

Sockets register for reconfiguration with a weak reference: the registry does not keep them alive,
and the entries of those that were dropped stay behind until a registration finds more than 1024
entries and takes them out. The control functions walk the registry and skip what they cannot
upgrade or lock.

The registry never loses a live socket, so in every run in which no socket registers twice the
control functions reach the live sockets that have registered, in the order in which they have, and
no other (`reconfigure_run`). On the sockets that the registry has, they are the functions of the
control endpoint (`view_setFreelistHeadroomAll`, `view_setFreelistHeadroomFor`).
-/

namespace SmipMwp.Cli

open AfXdp

/-- A socket behind its `Arc<Mutex<..>>`. -/
structure ManagedSocket where
  label : String
  freeList : FreeList
  /-- A strong reference is left. -/
  alive : Bool := true
  poisoned : Bool := false

namespace ManagedSocket

/-- The weak reference can be upgraded, and the mutex locked. -/
def usable (s : ManagedSocket) : Bool := s.alive && !s.poisoned

def registered (s : ManagedSocket) : RegisteredSocket := ⟨s.label, s.freeList, s.usable⟩

def setHeadroom (headroom : BitVec 64) (s : ManagedSocket) : ManagedSocket :=
  { s with freeList := s.freeList.setHeadroom headroom }

end ManagedSocket

/-- The sockets of a process, and `SOCKET_INSTANCE_REGISTRY`. -/
structure Instances (ι : Type*) where
  sockets : ι → ManagedSocket
  registry : List ι := []

inductive InstanceEvent (ι : Type*)
  | register (i : ι)
  /-- The last strong reference goes. -/
  | drop (i : ι)
  /-- A thread panics while it holds the lock. -/
  | poison (i : ι)
  | use (i : ι) (op : FreeOp)
  | setAll (headroom : BitVec 64)
  | setFor (label : String) (headroom : BitVec 64)

namespace Instances

variable {ι : Type*} [DecidableEq ι]

/-- `register_socket_instance`, called with a strong reference. -/
def registerSocketInstance (p : Instances ι) (i : ι) : Instances ι :=
  let registry := p.registry ++ [i]
  { p with
    registry := if registry.length > 1024 then registry.filter fun j => (p.sockets j).alive
      else registry }

/-- One entry in the loop of `set_freelist_headroom_all`. -/
def applyHeadroom (headroom : BitVec 64)
    (acc : (ι → ManagedSocket) × List (String × BitVec 64 × BitVec 64)) (i : ι) :
    (ι → ManagedSocket) × List (String × BitVec 64 × BitVec 64) :=
  let s := acc.1 i
  if s.usable then
    (Function.update acc.1 i (s.setHeadroom headroom),
      acc.2 ++ [(s.label, s.freeList.headroom, headroom)])
  else acc

def setFreelistHeadroomAll (headroom : BitVec 64) (p : Instances ι) :
    (ι → ManagedSocket) × List (String × BitVec 64 × BitVec 64) :=
  p.registry.foldl (applyHeadroom headroom) (p.sockets, [])

/-- The loop of `set_freelist_headroom_for`, which returns at the first socket with the label. -/
def applyHeadroomFor (label : String) (headroom : BitVec 64) (sockets : ι → ManagedSocket) :
    List ι → (ι → ManagedSocket) × Option (BitVec 64 × BitVec 64)
  | [] => (sockets, none)
  | i :: registry =>
    if (sockets i).usable ∧ (sockets i).label = label then
      (Function.update sockets i ((sockets i).setHeadroom headroom),
        some ((sockets i).freeList.headroom, headroom))
    else applyHeadroomFor label headroom sockets registry

def setFreelistHeadroomFor (label : String) (headroom : BitVec 64) (p : Instances ι) :
    (ι → ManagedSocket) × Option (BitVec 64 × BitVec 64) :=
  applyHeadroomFor label headroom p.sockets p.registry

def snapshotFreelistHeadrooms (p : Instances ι) : List (String × BitVec 64) :=
  (p.registry.filter fun i => (p.sockets i).usable).map fun i =>
    ((p.sockets i).label, (p.sockets i).freeList.headroom)

/-- What happens to a socket that has been dropped, or to its lock, is left out. -/
def step (p : Instances ι) : InstanceEvent ι → Instances ι
  | .register i => if (p.sockets i).alive then p.registerSocketInstance i else p
  | .drop i => { p with sockets := Function.update p.sockets i { p.sockets i with alive := false } }
  | .poison i =>
    { p with sockets := Function.update p.sockets i { p.sockets i with poisoned := true } }
  | .use i op =>
    { p with
      sockets := Function.update p.sockets i
        { p.sockets i with freeList := op.step (p.sockets i).freeList } }
  | .setAll headroom => { p with sockets := (p.setFreelistHeadroomAll headroom).1 }
  | .setFor label headroom => { p with sockets := (p.setFreelistHeadroomFor label headroom).1 }

/-- The socket that the step registers. -/
def registeredBy (p : Instances ι) : InstanceEvent ι → List ι
  | .register i => if (p.sockets i).alive then [i] else []
  | _ => []

/-! ## One walk over the registry -/

/-- The entries of usable sockets. -/
def usableOf (f : ι → ManagedSocket) (l : List ι) : List ι := l.filter fun i => (f i).usable

section Walk

variable {l : List ι} {f : ι → ManagedSocket} {i : ι}

omit [DecidableEq ι] in
theorem usableOf_cons_of_usable (h : (f i).usable = true) :
    usableOf f (i :: l) = i :: usableOf f l := List.filter_cons_of_pos h

omit [DecidableEq ι] in
theorem usableOf_cons_of_not_usable (h : ¬ (f i).usable = true) :
    usableOf f (i :: l) = usableOf f l := List.filter_cons_of_neg h

theorem usableOf_update (hi : i ∉ l) (s : ManagedSocket) :
    usableOf (Function.update f i s) l = usableOf f l :=
  List.filter_congr fun j hj => by rw [Function.update_of_ne (ne_of_mem_of_not_mem hj hi)]

variable (f) (headroom : BitVec 64)

/-- A walk over entries of different sockets sets each that is usable, and reports it once. -/
theorem foldl_applyHeadroom (hnodup : l.Nodup) (applied : List (String × BitVec 64 × BitVec 64)) :
    l.foldl (applyHeadroom headroom) (f, applied) =
      (fun i => if i ∈ usableOf f l then (f i).setHeadroom headroom else f i,
        applied ++ (usableOf f l).map fun i =>
          ((f i).label, (f i).freeList.headroom, headroom)) := by
  induction l generalizing f applied with
  | nil => exact Prod.ext rfl (List.append_nil applied).symm
  | cons i l ih =>
    obtain ⟨hi, hnodup⟩ := List.nodup_cons.mp hnodup
    rw [List.foldl_cons, applyHeadroom]
    by_cases husable : (f i).usable
    · have hne : ∀ j ∈ usableOf f l, j ≠ i := fun j hj =>
        ne_of_mem_of_not_mem (List.mem_of_mem_filter hj) hi
      rw [if_pos husable, ih _ hnodup, usableOf_update hi, usableOf_cons_of_usable husable]
      refine Prod.ext ?_ ?_
      · funext j
        by_cases hj : j = i
        · subst hj
          have hnot : j ∉ usableOf f l := fun h => hne j h rfl
          simp only [if_neg hnot, Function.update_self, List.mem_cons_self, if_true]
        · simp only [Function.update_of_ne hj, List.mem_cons, hj, false_or]
      · rw [List.map_cons, List.append_assoc, List.singleton_append]
        refine congrArg (applied ++ _ :: ·) (List.map_congr_left fun j hj => ?_)
        rw [Function.update_of_ne (hne j hj)]
    · rw [if_neg husable, ih f hnodup, usableOf_cons_of_not_usable husable]

/-- The walk for a label stops at its first usable socket. -/
theorem applyHeadroomFor_eq (label : String) (l : List ι) :
    applyHeadroomFor label headroom f l =
      ((usableOf f l).find? fun i => (f i).label == label).elim (f, none) fun i =>
        (Function.update f i ((f i).setHeadroom headroom),
          some ((f i).freeList.headroom, headroom)) := by
  induction l with
  | nil => rfl
  | cons i l ih =>
    rw [applyHeadroomFor]
    by_cases husable : (f i).usable
    · rw [usableOf_cons_of_usable husable]
      by_cases hlabel : (f i).label = label
      · rw [if_pos ⟨husable, hlabel⟩, List.find?_cons_of_pos (p := fun i => (f i).label == label)
          (beq_iff_eq.mpr hlabel)]
        rfl
      · rw [if_neg fun h => hlabel h.2, ih,
          List.find?_cons_of_neg (p := fun i => (f i).label == label) (mt beq_iff_eq.mp hlabel)]
    · rw [if_neg fun h => husable h.1, ih, usableOf_cons_of_not_usable husable]

/-- Setting a headroom leaves a socket as alive as it was. -/
theorem alive_update (j i : ι) :
    (Function.update f j ((f j).setHeadroom headroom) i).alive = (f i).alive := by
  by_cases hij : i = j
  · rw [hij, Function.update_self]
    rfl
  · rw [Function.update_of_ne hij]

/-- The walk for a label leaves what it does not meet alone. -/
theorem applyHeadroomFor_of_notMem (label : String) (hi : i ∉ l) :
    (applyHeadroomFor label headroom f l).1 i = f i := by
  rw [applyHeadroomFor_eq]
  cases hfind : (usableOf f l).find? fun i => (f i).label == label with
  | none => rfl
  | some j =>
    have hj : j ∈ l := List.mem_of_mem_filter (List.mem_of_find?_eq_some hfind)
    exact Function.update_of_ne (ne_of_mem_of_not_mem hj hi).symm ..

theorem alive_foldl_applyHeadroom (l : List ι)
    (applied : List (String × BitVec 64 × BitVec 64)) (i : ι) :
    ((l.foldl (applyHeadroom headroom) (f, applied)).1 i).alive = (f i).alive := by
  induction l generalizing f applied with
  | nil => rfl
  | cons j l ih =>
    rw [List.foldl_cons, applyHeadroom]
    split_ifs
    · rw [ih, alive_update]
    · exact ih f applied

theorem alive_applyHeadroomFor (label : String) (l : List ι) (i : ι) :
    ((applyHeadroomFor label headroom f l).1 i).alive = (f i).alive := by
  rw [applyHeadroomFor_eq]
  cases (usableOf f l).find? fun i => (f i).label == label with
  | none => rfl
  | some j => exact alive_update f headroom j i

end Walk

/-! ## Runs -/

variable {p : Instances ι}

/-- No step brings a socket back. -/
theorem alive_of_alive_step (e : InstanceEvent ι) {i : ι}
    (h : ((p.step e).sockets i).alive = true) : (p.sockets i).alive = true := by
  have hupdate {j : ι} {s : ManagedSocket} (hs : s.alive = true → (p.sockets j).alive = true)
      (h : (Function.update p.sockets j s i).alive = true) : (p.sockets i).alive = true := by
    by_cases hij : i = j
    · subst hij
      rw [Function.update_self] at h
      exact hs h
    · rwa [Function.update_of_ne hij] at h
  cases e with
  | register j =>
    rw [step] at h
    split_ifs at h
    · exact h
    · exact h
  | drop j => exact hupdate (fun h => by cases h) h
  | poison j => exact hupdate (s := { p.sockets j with poisoned := true }) id h
  | use j op =>
    exact hupdate (s := { p.sockets j with freeList := op.step (p.sockets j).freeList }) id h
  | setAll headroom => exact (alive_foldl_applyHeadroom p.sockets headroom _ _ i).symm.trans h
  | setFor label headroom =>
    exact (alive_applyHeadroomFor p.sockets headroom label _ i).symm.trans h

/-- A step other than a registration leaves the registry alone. -/
theorem registry_step {e : InstanceEvent ι} (h : p.registeredBy e = []) :
    (p.step e).registry = p.registry := by
  cases e with
  | register i =>
    rw [registeredBy] at h
    rw [step]
    split_ifs at h ⊢ with halive
    rfl
  | drop i => rfl
  | poison i => rfl
  | use i op => rfl
  | setAll headroom => rfl
  | setFor label headroom => rfl

omit [DecidableEq ι] in
/-- Only a registration with a strong reference registers. -/
theorem exists_of_registeredBy {e : InstanceEvent ι} (h : p.registeredBy e ≠ []) :
    ∃ i, e = .register i ∧ (p.sockets i).alive = true := by
  cases e with
  | register i =>
    rw [registeredBy] at h
    split_ifs at h with halive
    · exact ⟨i, rfl, halive⟩
    · exact absurd rfl h
  | drop i => exact absurd rfl h
  | poison i => exact absurd rfl h
  | use i op => exact absurd rfl h
  | setAll headroom => exact absurd rfl h
  | setFor label headroom => exact absurd rfl h

/-- The registry has entries of what was registered, in order, and all those of live sockets. -/
structure Keeps (p : Instances ι) (log : List ι) : Prop where
  sublist : p.registry.Sublist log
  live : p.registry.filter (fun i => (p.sockets i).alive) =
    log.filter fun i => (p.sockets i).alive

theorem Keeps.step {log : List ι} (h : p.Keeps log) (e : InstanceEvent ι) :
    (p.step e).Keeps (log ++ p.registeredBy e) := by
  by_cases hquiet : p.registeredBy e = []
  · -- What is alive afterwards was alive before.
    have hthen (l : List ι) : l.filter (fun i => ((p.step e).sockets i).alive) =
        (l.filter fun i => (p.sockets i).alive).filter
          fun i => ((p.step e).sockets i).alive := by
      rw [List.filter_filter]
      refine List.filter_congr fun i _ => ?_
      cases halive : ((p.step e).sockets i).alive with
      | false => rfl
      | true => rw [alive_of_alive_step e halive, Bool.true_and]
    rw [hquiet, List.append_nil]
    refine ⟨(registry_step hquiet).symm ▸ h.sublist, ?_⟩
    rw [registry_step hquiet, hthen, h.live, ← hthen]
  · obtain ⟨i, rfl, halive⟩ := exists_of_registeredBy hquiet
    have hstep : p.step (.register i) = p.registerSocketInstance i := if_pos halive
    have hlog : p.registeredBy (.register i) = [i] := if_pos halive
    have happend := h.sublist.append (List.Sublist.refl [i])
    have hlive : (p.registry ++ [i]).filter (fun j => (p.sockets j).alive) =
        (log ++ [i]).filter fun j => (p.sockets j).alive := by
      rw [List.filter_append, h.live, ← List.filter_append]
    rw [hstep, hlog, registerSocketInstance]
    -- A prune takes out none that is alive.
    split_ifs
    · refine ⟨List.filter_sublist.trans happend, ?_⟩
      rw [List.filter_filter, ← hlive]
      simp only [Bool.and_self]
    · exact ⟨happend, hlive⟩

/-- **The registry loses no live socket.** -/
theorem keeps_run (sockets : ι → ManagedSocket) (events : List (InstanceEvent ι)) :
    (events.foldl step ⟨sockets, []⟩).Keeps (runLog step registeredBy ⟨sockets, []⟩ events) := by
  induction events using List.reverseRecOn with
  | nil => exact ⟨List.Sublist.refl [], rfl⟩
  | append_singleton events e ih =>
    rw [List.foldl_append, runLog_append_singleton]
    exact ih.step e

/-- **The control functions reach the live sockets.** In every run in which no socket registers
twice, they work on the sockets that have registered and are usable, in the order of their
registrations: all of them are set and reported, the first with a label is, and a snapshot shows
them all. -/
theorem reconfigure_run (sockets : ι → ManagedSocket) (events : List (InstanceEvent ι))
    (hnodup : (runLog step registeredBy ⟨sockets, []⟩ events).Nodup) :
    let p := events.foldl step ⟨sockets, []⟩
    let reached := usableOf p.sockets (runLog step registeredBy ⟨sockets, []⟩ events)
    (∀ headroom, p.setFreelistHeadroomAll headroom =
      (fun i => if i ∈ reached then (p.sockets i).setHeadroom headroom else p.sockets i,
        reached.map fun i => ((p.sockets i).label, (p.sockets i).freeList.headroom, headroom))) ∧
    (∀ label headroom, p.setFreelistHeadroomFor label headroom =
      (reached.find? fun i => (p.sockets i).label == label).elim (p.sockets, none) fun i =>
        (Function.update p.sockets i ((p.sockets i).setHeadroom headroom),
          some ((p.sockets i).freeList.headroom, headroom))) ∧
    p.snapshotFreelistHeadrooms =
      reached.map fun i => ((p.sockets i).label, (p.sockets i).freeList.headroom) := by
  intro p reached
  obtain ⟨hsublist, hfilter⟩ := keeps_run sockets events
  have hreached : usableOf p.sockets p.registry = reached := by
    have husable (l : List ι) :
        usableOf p.sockets (l.filter fun i => (p.sockets i).alive) = usableOf p.sockets l := by
      rw [usableOf, List.filter_filter]
      refine List.filter_congr fun i _ => ?_
      cases h : (p.sockets i).alive <;> simp [ManagedSocket.usable, h]
    rw [← husable, hfilter, husable]
  refine ⟨fun headroom => ?_, fun label headroom => ?_, ?_⟩
  · rw [setFreelistHeadroomAll, foldl_applyHeadroom p.sockets headroom (hsublist.nodup hnodup),
      hreached, List.nil_append]
  · rw [setFreelistHeadroomFor, applyHeadroomFor_eq, hreached]
  · rw [snapshotFreelistHeadrooms, ← hreached]
    rfl

/-- Two sockets register, one is dropped, and the other is set twice. -/
theorem snapshot_of_two :
    ([.register false, .register true, .drop false, .setAll 3, .setFor "right" 4].foldl step
      (⟨fun i => ⟨if i then "right" else "left", ⟨⟨[0, 0], 0, 0⟩, 1⟩, true, false⟩, []⟩ :
        Instances Bool)).snapshotFreelistHeadrooms = [("right", 4)] := by
  refine (reconfigure_run _ _ ?_).2.2.trans ?_
  · decide
  · rfl

/-! ## The functions of the control endpoint -/

/-- The registry as the control endpoint sees it. -/
def view (sockets : ι → ManagedSocket) (registry : List ι) : List RegisteredSocket :=
  registry.map fun i => (sockets i).registered

omit [DecidableEq ι] in
theorem filter_live_view (f : ι → ManagedSocket) (l : List ι) :
    (view f l).filter RegisteredSocket.live =
      (usableOf f l).map fun i => (f i).registered := by
  rw [view, List.filter_map]
  rfl

theorem view_setFreelistHeadroomAll (headroom : BitVec 64) (hnodup : p.registry.Nodup) :
    Cli.setFreelistHeadroomAll headroom (view p.sockets p.registry) =
      (view (p.setFreelistHeadroomAll headroom).1 p.registry,
        (p.setFreelistHeadroomAll headroom).2) := by
  rw [setFreelistHeadroomAll, foldl_applyHeadroom p.sockets headroom hnodup]
  refine Prod.ext ?_ ?_
  · change (view _ _).map _ = view _ _
    rw [view, view, List.map_map]
    refine List.map_congr_left fun i hi => ?_
    have hmem : i ∈ usableOf p.sockets p.registry ↔ (p.sockets i).usable = true := by
      rw [usableOf, List.mem_filter, and_iff_right hi]
    simp only [Function.comp_apply, hmem]
    split_ifs with hlive husable
    · rfl
    · exact absurd hlive husable
    · exact absurd ‹_› hlive
    · rfl
  · change ((view _ _).filter _).map _ = [] ++ _
    rw [filter_live_view, List.map_map, List.nil_append]
    rfl

theorem view_applyHeadroomFor (label : String) (headroom : BitVec 64) (f : ι → ManagedSocket)
    {l : List ι} (hnodup : l.Nodup) :
    Cli.setFreelistHeadroomFor label headroom (view f l) =
      (view (applyHeadroomFor label headroom f l).1 l,
        (applyHeadroomFor label headroom f l).2) := by
  induction l with
  | nil => rfl
  | cons i l ih =>
    obtain ⟨hi, hnodup⟩ := List.nodup_cons.mp hnodup
    rw [applyHeadroomFor]
    change Cli.setFreelistHeadroomFor label headroom ((f i).registered :: view f l) = _
    rw [Cli.setFreelistHeadroomFor]
    by_cases hfound : (f i).usable = true ∧ (f i).label = label
    · have hrest : view (Function.update f i ((f i).setHeadroom headroom)) l = view f l :=
        List.map_congr_left fun j hj => by rw [Function.update_of_ne (ne_of_mem_of_not_mem hj hi)]
      rw [if_pos hfound,
        if_pos (show (f i).registered.live = true ∧ (f i).registered.label = label from hfound)]
      change _ = ((Function.update f i _ i).registered :: view _ l, _)
      rw [hrest, Function.update_self]
      rfl
    · rw [if_neg hfound, ih hnodup,
        if_neg (show ¬ ((f i).registered.live = true ∧ (f i).registered.label = label) from hfound)]
      change ((f i).registered :: view _ l, _) =
        (((applyHeadroomFor label headroom f l).1 i).registered :: view _ l, _)
      rw [applyHeadroomFor_of_notMem f headroom label hi]

theorem view_setFreelistHeadroomFor (label : String) (headroom : BitVec 64)
    (hnodup : p.registry.Nodup) :
    Cli.setFreelistHeadroomFor label headroom (view p.sockets p.registry) =
      (view (p.setFreelistHeadroomFor label headroom).1 p.registry,
        (p.setFreelistHeadroomFor label headroom).2) :=
  view_applyHeadroomFor label headroom p.sockets hnodup

end Instances

end SmipMwp.Cli
