import SmipMwp.AfXdp.Accounting
import Mathlib.Data.List.AList

/-!
# The gauges of the counters

Every socket registers its counters under a label when it is made, and takes the label out of the
registry when it is dropped. Once a second a thread of the metrics endpoint copies the global
counters and those in the registry to gauges, and removes the gauges of labels that it has shown
before and that are gone.

A refresh makes the gauges those of the registry, for whatever sockets have come and gone in between
(`gauges_refresh`). The registry is that of the live sockets as long as no two of these have the
same label; then a scrape shows each live socket and no other, and in the global series the sum over
all sockets there have ever been (`gauges_eq`).

The gauges are a `GaugeVec` of the `prometheus` crate, a parameter of which only the documented laws
are used. The counters go on while they are copied; here a refresh is one step.
-/

namespace SmipMwp.Cli

open AfXdp

/-- `prometheus::GaugeVec` with two labels: `with_label_values(..).set(..)` makes a gauge if there
is none, and `remove_label_values` removes it. -/
structure GaugeVec (F : Type*) where
  Vec : Type
  new : Vec
  set : Vec → String × String → F → Vec
  remove : Vec → String × String → Vec
  get : Vec → String × String → Option F
  get_new : ∀ k, get new k = none
  get_set : ∀ g k v k', get (set g k v) k' = if k' = k then some v else get g k'
  get_remove : ∀ g k k', get (remove g k) k' = if k' = k then none else get g k'

/-! ## The sockets and their registry -/

/-- The metric's label value. -/
def metricName : SocketMetric → String
  | .retry => "retry_total"
  | .backpressure => "backpressure_total"
  | .allocFromFreelist => "alloc_from_freelist_total"
  | .allocFallback => "alloc_fallback_total"
  | .freePushDrop => "free_push_drop_total"

def socketLabel (ifname : String) (queueId : UInt32) : String := ifname ++ ":" ++ toString queueId

/-- The label of the global series. -/
def globalLabel : String := "global"

structure OpenSocket where
  label : String
  system : System
  counters : SocketCounters := {}
  live : Bool := true

/-- `sockets` are all that have been made, in order, and `registry` has the places of their
counters; `F` are the values of gauges. -/
structure Process {F : Type*} (V : GaugeVec F) where
  sockets : List OpenSocket := []
  registry : AList (fun _ : String => ℕ) := ∅
  globals : SocketCounters := {}
  gauges : V.Vec := V.new
  prevLabels : List String := []

inductive ProcessEvent
  | openSocket (ifname : String) (queueId : UInt32) (cfg : Config)
  | socket (i : ℕ) (e : Event)
  | dropSocket (i : ℕ)
  | refresh

namespace Process

variable {F : Type*} {V : GaugeVec F}

/-- `snapshot_all_socket_metrics`. -/
def snapshot (p : Process V) : List (String × SocketCounters) :=
  p.registry.entries.filterMap fun e => p.sockets[e.2]?.map fun s => (e.1, s.counters)

/-- The metrics in the order they are set and removed. -/
def metrics : List SocketMetric :=
  [.retry, .backpressure, .allocFromFreelist, .allocFallback, .freePushDrop]

/-- All metrics of a label are set; `toF` is the cast to `f64`. -/
def setGauges (V : GaugeVec F) (toF : UInt64 → F) (g : V.Vec) (label : String)
    (c : SocketCounters) : V.Vec :=
  metrics.foldl (fun g m => V.set g (metricName m, label) (toF (c.value m))) g

/-- All metrics of a label are removed. -/
def removeGauges (V : GaugeVec F) (g : V.Vec) (label : String) : V.Vec :=
  metrics.foldl (fun g m => V.remove g (metricName m, label)) g

variable (toF : UInt64 → F)

/-- One round of the background updater. -/
def refresh (p : Process V) : Process V :=
  let g := setGauges V toF p.gauges globalLabel p.globals
  let snaps := p.snapshot
  let currentLabels := snaps.map Prod.fst
  let g := snaps.foldl (fun g s => setGauges V toF g s.1 s.2) g
  let removed := p.prevLabels.filter fun l => l ∉ currentLabels
  { p with gauges := removed.foldl (removeGauges V) g, prevLabels := currentLabels }

def step (p : Process V) : ProcessEvent → Process V
  | .openSocket ifname queueId cfg =>
    let label := socketLabel ifname queueId
    { p with
      sockets := p.sockets ++ [{ label := label, system := System.new cfg }]
      registry := p.registry.insert label p.sockets.length }
  | .socket i e =>
    match p.sockets[i]? with
    | some s =>
      if s.live then
        let counted := s.system.countedBy e
        { p with
          sockets := p.sockets.set i
            { s with
              system := s.system.step e
              counters := counted.foldl SocketCounters.bump s.counters }
          globals := counted.foldl SocketCounters.bump p.globals }
      else p
    | none => p
  | .dropSocket i =>
    match p.sockets[i]? with
    | some s =>
      if s.live then
        { p with
          sockets := p.sockets.set i { s with live := false }
          registry := p.registry.erase s.label }
      else p
    | none => p
  | .refresh => p.refresh toF

/-- A socket is made under a label that no live socket has. -/
def Distinct (p : Process V) : ProcessEvent → Prop
  | .openSocket ifname queueId _ =>
    ∀ s ∈ p.sockets, s.live → s.label ≠ socketLabel ifname queueId
  | _ => True

instance decidableDistinct (p : Process V) : (e : ProcessEvent) → Decidable (p.Distinct e)
  | .openSocket ifname queueId _ => inferInstanceAs
    (Decidable (∀ s ∈ p.sockets, s.live → s.label ≠ socketLabel ifname queueId))
  | .socket _ _ | .dropSocket _ | .refresh => inferInstanceAs (Decidable True)

/-! ## One refresh -/

section Refresh

variable {toF} {g : V.Vec}

theorem setGauges_apply (label : String) (c : SocketCounters) (m : SocketMetric) (l : String) :
    V.get (setGauges V toF g label c) (metricName m, l) =
      if l = label then some (toF (c.value m)) else V.get g (metricName m, l) := by
  by_cases hl : l = label
  · subst hl
    cases m <;> simp [setGauges, metrics, metricName, V.get_set]
  · simp [setGauges, metrics, V.get_set, hl]

theorem removeGauges_apply (label : String) (m : SocketMetric) (l : String) :
    V.get (removeGauges V g label) (metricName m, l) =
      if l = label then none else V.get g (metricName m, l) := by
  by_cases hl : l = label
  · subst hl
    cases m <;> simp [removeGauges, metrics, metricName, V.get_remove]
  · simp [removeGauges, metrics, V.get_remove, hl]

theorem foldl_setGauges_of_notMem {snaps : List (String × SocketCounters)} {l : String}
    (h : l ∉ snaps.map Prod.fst) (m : SocketMetric) :
    V.get (snaps.foldl (fun g s => setGauges V toF g s.1 s.2) g) (metricName m, l) =
      V.get g (metricName m, l) := by
  induction snaps generalizing g with
  | nil => rfl
  | cons s snaps ih =>
    rw [List.map_cons, List.mem_cons, not_or] at h
    rw [List.foldl_cons, ih h.2, setGauges_apply, if_neg h.1]

theorem foldl_setGauges_of_mem {snaps : List (String × SocketCounters)}
    (hnodup : (snaps.map Prod.fst).Nodup) {l : String} {c : SocketCounters} (h : (l, c) ∈ snaps)
    (m : SocketMetric) :
    V.get (snaps.foldl (fun g s => setGauges V toF g s.1 s.2) g) (metricName m, l) =
      some (toF (c.value m)) := by
  induction snaps generalizing g with
  | nil => cases h
  | cons s snaps ih =>
    rw [List.map_cons, List.nodup_cons] at hnodup
    rw [List.foldl_cons]
    rcases List.mem_cons.mp h with rfl | h
    · rw [foldl_setGauges_of_notMem hnodup.1, setGauges_apply, if_pos rfl]
    · exact ih hnodup.2 h

theorem foldl_removeGauges (ls : List String) (m : SocketMetric) (l : String) :
    V.get (ls.foldl (removeGauges V) g) (metricName m, l) =
      if l ∈ ls then none else V.get g (metricName m, l) := by
  induction ls generalizing g with
  | nil => rfl
  | cons l' ls ih =>
    rw [List.foldl_cons, ih, removeGauges_apply]
    by_cases hl : l = l'
    · rw [if_pos hl, if_pos (List.mem_cons.mpr (.inl hl)), ite_self]
    · rw [if_neg hl]
      exact if_congr (by rw [List.mem_cons, or_iff_right hl]) rfl rfl

/-- The counters that the registry has for a label. -/
def registered (p : Process V) (l : String) : Option SocketCounters :=
  (p.registry.lookup l).bind fun i => p.sockets[i]?.map OpenSocket.counters

variable {p : Process V}

theorem mem_snapshot {l : String} {c : SocketCounters} :
    (l, c) ∈ p.snapshot ↔ p.registered l = some c := by
  simp only [snapshot, registered, List.mem_filterMap, Option.bind_eq_some_iff,
    Option.map_eq_some_iff]
  constructor
  · rintro ⟨⟨l', i⟩, he, s, hs, heq⟩
    obtain ⟨rfl, rfl⟩ := Prod.mk.inj heq
    exact ⟨i, AList.mem_lookup_iff.mpr he, s, hs, rfl⟩
  · rintro ⟨i, hi, s, hs, rfl⟩
    exact ⟨⟨l, i⟩, AList.mem_lookup_iff.mp hi, s, hs, rfl⟩

theorem map_filterMap_sublist {α β γ : Type*} {f : α → Option β} {key : β → γ} {key' : α → γ}
    (h : ∀ a b, f a = some b → key b = key' a) (l : List α) :
    ((l.filterMap f).map key).Sublist (l.map key') := by
  induction l with
  | nil => exact .slnil
  | cons a l ih =>
    rw [List.filterMap_cons, List.map_cons]
    cases hf : f a with
    | none => exact ih.cons _
    | some b =>
      simp only [List.map_cons, h a b hf]
      exact ih.cons_cons _

theorem nodup_snapshot (p : Process V) : (p.snapshot.map Prod.fst).Nodup := by
  have hkeys : (p.registry.entries.map Sigma.fst).Nodup := p.registry.nodupKeys
  refine hkeys.sublist (map_filterMap_sublist ?_ _)
  intro e b h
  obtain ⟨s, -, rfl⟩ := Option.map_eq_some_iff.mp h
  rfl

theorem mem_labels {l : String} : l ∈ p.snapshot.map Prod.fst ↔ p.registered l ≠ none := by
  rw [List.mem_map, Option.ne_none_iff_exists']
  constructor
  · rintro ⟨⟨l, c⟩, hc, rfl⟩
    exact ⟨c, mem_snapshot.mp hc⟩
  · rintro ⟨c, hc⟩
    exact ⟨(l, c), mem_snapshot.mpr hc, rfl⟩

/-- **One refresh**: if what has been shown before is known, and no socket has the global label,
the gauges are those of the registry. -/
theorem gauges_refresh (hglobal : p.registered globalLabel = none)
    (hprev : globalLabel ∉ p.prevLabels)
    (hshown : ∀ m l, V.get p.gauges (metricName m, l) ≠ none →
      l = globalLabel ∨ l ∈ p.prevLabels)
    (m : SocketMetric) (l : String) :
    V.get (p.refresh toF).gauges (metricName m, l) =
      if l = globalLabel then some (toF (p.globals.value m))
      else (p.registered l).map fun c => toF (c.value m) := by
  simp only [refresh, foldl_removeGauges, List.mem_filter, decide_eq_true_eq, mem_labels, not_not]
  cases hc : p.registered l with
  | some c =>
    have hne : l ≠ globalLabel := by
      rintro rfl
      rw [hglobal] at hc
      cases hc
    rw [if_neg (by simp), foldl_setGauges_of_mem p.nodup_snapshot (mem_snapshot.mpr hc),
      if_neg hne]
    rfl
  | none =>
    have hnot : l ∉ p.snapshot.map Prod.fst := fun hmem => mem_labels.mp hmem hc
    rw [foldl_setGauges_of_notMem hnot, setGauges_apply]
    by_cases hl : l = globalLabel
    · rw [if_neg fun h => hprev (hl ▸ h.1), if_pos hl, if_pos hl]
    · rw [if_neg hl, if_neg hl]
      by_cases hmem : l ∈ p.prevLabels
      · rw [if_pos ⟨hmem, rfl⟩]
        rfl
      · rw [if_neg fun h => hmem h.1]
        by_contra hne
        exact (hshown m l hne).elim hl hmem

end Refresh

/-! ## Runs -/

/-- The sum of a counter over the sockets. -/
def total (sockets : List OpenSocket) (m : SocketMetric) : UInt64 :=
  sockets.foldr (fun s sum => s.counters.value m + sum) 0

theorem total_append (sockets : List OpenSocket) (s : OpenSocket) (m : SocketMetric) :
    total (sockets ++ [s]) m = total sockets m + s.counters.value m := by
  induction sockets with
  | nil => exact UInt64.add_comm _ _
  | cons t sockets ih =>
    change t.counters.value m + total (sockets ++ [s]) m =
      t.counters.value m + total sockets m + s.counters.value m
    rw [ih, UInt64.add_assoc]

/-- What is added to one socket's counter is added to the sum. -/
theorem total_set {sockets : List OpenSocket} {i : ℕ} {s s' : OpenSocket}
    (hs : sockets[i]? = some s) {m : SocketMetric} {n : UInt64}
    (hn : s'.counters.value m = s.counters.value m + n) :
    total (sockets.set i s') m = total sockets m + n := by
  induction sockets generalizing i with
  | nil => cases hs
  | cons t sockets ih =>
    cases i with
    | zero =>
      obtain rfl : t = s := Option.some.inj hs
      change s'.counters.value m + total sockets m = t.counters.value m + total sockets m + n
      rw [hn, UInt64.add_assoc, UInt64.add_comm n, ← UInt64.add_assoc]
    | succ i =>
      change t.counters.value m + total (sockets.set i s') m =
        t.counters.value m + total sockets m + n
      rw [ih hs, UInt64.add_assoc]

/-- The counters of a socket are those of a run of it. -/
def Genuine (s : OpenSocket) : Prop :=
  ∃ cfg events, s.system = System.run cfg events ∧ s.counters = System.counters cfg events

/-- A new process. -/
def new : Process V := {}

/-- The registry is that of the live sockets. -/
structure Inv (p : Process V) : Prop where
  genuine : ∀ s ∈ p.sockets, Genuine s
  labels : ∀ s ∈ p.sockets, s.label ≠ globalLabel
  registry : ∀ l i, p.registry.lookup l = some i ↔
    ∃ s, p.sockets[i]? = some s ∧ s.live ∧ s.label = l
  prev : globalLabel ∉ p.prevLabels
  shown : ∀ m l, V.get p.gauges (metricName m, l) ≠ none → l = globalLabel ∨ l ∈ p.prevLabels
  globals : ∀ m, p.globals.value m = total p.sockets m

theorem inv_new : (new : Process V).Inv where
  genuine := nofun
  labels := nofun
  registry l i := iff_of_false (by rintro ⟨⟩) (by rintro ⟨s, ⟨⟩, -⟩)
  prev := List.not_mem_nil
  shown m l h := absurd (V.get_new _) h
  globals m := by cases m <;> rfl

/-- A label has a colon in it. -/
theorem socketLabel_ne (ifname : String) (queueId : UInt32) :
    socketLabel ifname queueId ≠ globalLabel := by
  intro h
  have hmem : ':' ∈ (socketLabel ifname queueId).toList := by
    simp [socketLabel]
  rw [h] at hmem
  exact absurd hmem (by decide)

namespace Inv

variable {toF} {p : Process V}

/-- A change of one socket that leaves its label and whether it is live. -/
theorem exists_set_iff {sockets : List OpenSocket} {i : ℕ} {s : OpenSocket}
    (hs : sockets[i]? = some s) (s' : OpenSocket) (hlabel : s'.label = s.label)
    (hlive : s'.live = s.live) (j : ℕ) (l : String) :
    (∃ t, (sockets.set i s')[j]? = some t ∧ t.live ∧ t.label = l) ↔
      ∃ t, sockets[j]? = some t ∧ t.live ∧ t.label = l := by
  rcases eq_or_ne i j with rfl | hne
  · have hi := (List.getElem?_eq_some_iff.mp hs).1
    simp [List.getElem?_set_self hi, hs, hlabel, hlive]
  · rw [List.getElem?_set_ne hne]

theorem mem_set {sockets : List OpenSocket} {i : ℕ} {s' t : OpenSocket}
    (ht : t ∈ sockets.set i s') : t = s' ∨ t ∈ sockets :=
  (List.mem_or_eq_of_mem_set ht).symm

theorem openSocket (h : p.Inv) {ifname : String} {queueId : UInt32} {cfg : Config}
    (hdistinct : p.Distinct (.openSocket ifname queueId cfg)) :
    (p.step toF (.openSocket ifname queueId cfg)).Inv where
  genuine s hs := by
    rcases List.mem_append.mp hs with hs | hs
    · exact h.genuine s hs
    · rw [List.mem_singleton.mp hs]
      exact ⟨cfg, [], rfl, rfl⟩
  labels s hs := by
    rcases List.mem_append.mp hs with hs | hs
    · exact h.labels s hs
    · rw [List.mem_singleton.mp hs]
      exact socketLabel_ne ifname queueId
  registry l i := by
    simp only [step]
    by_cases hl : l = socketLabel ifname queueId
    · subst hl
      rw [AList.lookup_insert, Option.some.injEq, List.getElem?_append]
      constructor
      · rintro rfl
        rw [if_neg (lt_irrefl _), Nat.sub_self]
        exact ⟨_, rfl, rfl, rfl⟩
      · rintro ⟨s, hs, hlive, hlabel⟩
        split_ifs at hs with hi
        · exact absurd hlabel (hdistinct s (List.mem_of_getElem? hs) hlive)
        · have := (List.getElem?_eq_some_iff.mp hs).1
          rw [List.length_singleton] at this
          omega
    · rw [AList.lookup_insert_ne hl, h.registry, List.getElem?_append]
      constructor
      · rintro ⟨s, hs, hlive, hlabel⟩
        rw [if_pos (List.getElem?_eq_some_iff.mp hs).1]
        exact ⟨s, hs, hlive, hlabel⟩
      · rintro ⟨s, hs, hlive, hlabel⟩
        split_ifs at hs with hi
        · exact ⟨s, hs, hlive, hlabel⟩
        · have hnew := List.mem_singleton.mp (List.mem_of_getElem? hs)
          rw [hnew] at hlabel
          exact absurd hlabel.symm hl
  prev := h.prev
  shown := h.shown
  globals m := by
    change p.globals.value m = _
    have hzero : (SocketCounters.value {} m) = 0 := by cases m <;> rfl
    rw [h.globals m]
    simp only [step]
    rw [total_append, hzero, UInt64.add_zero]

theorem socket (h : p.Inv) (i : ℕ) (e : Event) : (p.step toF (.socket i e)).Inv := by
  simp only [step]
  cases hs : p.sockets[i]? with
  | none => exact h
  | some s =>
    simp only
    split_ifs with hlive
    · have hmem := List.mem_of_getElem? hs
      refine ⟨fun t ht => ?_, fun t ht => ?_, fun l j => ?_, h.prev, h.shown, fun m => ?_⟩
      · rcases mem_set ht with rfl | ht
        · obtain ⟨cfg, events, hsystem, hcounters⟩ := h.genuine s hmem
          refine ⟨cfg, events ++ [e], ?_, ?_⟩
          · rw [System.run, List.foldl_append, ← System.run, ← hsystem]
            rfl
          · rw [System.counters, runLog_append_singleton, List.foldl_append, ← System.counters,
              ← hcounters, ← System.run, ← hsystem]
        · exact h.genuine t ht
      · rcases mem_set ht with rfl | ht
        · exact h.labels s hmem
        · exact h.labels t ht
      · rw [h.registry]
        refine (exists_set_iff hs _ ?_ ?_ j l).symm
        · rfl
        · rfl
      · rw [SocketCounters.value_foldl_bump, h.globals m]
        exact (total_set hs (SocketCounters.value_foldl_bump _ _ m)).symm
    · exact h

theorem dropSocket (h : p.Inv) (i : ℕ) : (p.step toF (.dropSocket i)).Inv := by
  simp only [step]
  cases hs : p.sockets[i]? with
  | none => exact h
  | some s =>
    simp only
    split_ifs with hlive
    · have hmem := List.mem_of_getElem? hs
      have hi := (List.getElem?_eq_some_iff.mp hs).1
      refine ⟨fun t ht => ?_, fun t ht => ?_, fun l j => ?_, h.prev, h.shown, fun m => ?_⟩
      · rcases mem_set ht with rfl | ht
        · exact h.genuine s hmem
        · exact h.genuine t ht
      · rcases mem_set ht with rfl | ht
        · exact h.labels s hmem
        · exact h.labels t ht
      · by_cases hl : l = s.label
        · -- The label goes, and with it the only live socket that has it.
          subst hl
          rw [AList.lookup_erase]
          refine iff_of_false nofun ?_
          rintro ⟨t, ht, htlive, htlabel⟩
          rcases eq_or_ne i j with rfl | hne
          · rw [List.getElem?_set_self hi, Option.some.injEq] at ht
            subst ht
            cases htlive
          · rw [List.getElem?_set_ne hne] at ht
            have hown := (h.registry s.label i).mpr ⟨s, hs, hlive, rfl⟩
            have hother := (h.registry s.label j).mpr ⟨t, ht, htlive, htlabel⟩
            exact hne (Option.some.inj (hown.symm.trans hother))
        · rw [AList.lookup_erase_ne hl, h.registry]
          rcases eq_or_ne i j with rfl | hne
          · rw [List.getElem?_set_self hi, hs]
            refine iff_of_false ?_ ?_
            · rintro ⟨t, ⟨⟩, -, hlabel⟩
              exact hl hlabel.symm
            · rintro ⟨t, ⟨⟩, hdead, -⟩
              cases hdead
          · rw [List.getElem?_set_ne hne]
      · refine (h.globals m).trans (Eq.symm ?_)
        refine (total_set (n := 0) hs ?_).trans (UInt64.add_zero _)
        exact (UInt64.add_zero _).symm
    · exact h

theorem registered_global (h : p.Inv) : p.registered globalLabel = none := by
  rw [registered, Option.bind_eq_none_iff]
  intro i hi
  obtain ⟨s, hs, -, hlabel⟩ := (h.registry _ i).mp hi
  exact absurd hlabel (h.labels s (List.mem_of_getElem? hs))

theorem refresh (h : p.Inv) : (p.refresh toF).Inv where
  genuine := h.genuine
  labels := h.labels
  registry := h.registry
  prev hmem := mem_labels.mp hmem h.registered_global
  shown m l hne := by
    rw [gauges_refresh h.registered_global h.prev h.shown] at hne
    split_ifs at hne with hl
    · exact .inl hl
    · refine .inr (mem_labels.mpr fun hnone => ?_)
      rw [hnone] at hne
      exact hne rfl
  globals := h.globals

theorem step (h : p.Inv) {e : ProcessEvent} (hdistinct : p.Distinct e) : (p.step toF e).Inv := by
  cases e with
  | openSocket ifname queueId cfg => exact h.openSocket hdistinct
  | socket i e => exact h.socket i e
  | dropSocket i => exact h.dropSocket i
  | refresh => exact h.refresh

end Inv

/-- The live socket with a label. -/
def liveSocket (p : Process V) (l : String) : Option OpenSocket :=
  p.sockets.find? fun s => s.live && s.label == l

theorem Inv.registered_eq {p : Process V} (h : p.Inv) (l : String) :
    p.registered l = (p.liveSocket l).map OpenSocket.counters := by
  rw [registered]
  cases hi : p.registry.lookup l with
  | none =>
    have hnone : p.liveSocket l = none := by
      rw [liveSocket, List.find?_eq_none]
      intro s hs htrue
      obtain ⟨i, hsi⟩ := List.mem_iff_getElem?.mp hs
      rw [Bool.and_eq_true, beq_iff_eq] at htrue
      have hsome := (h.registry l i).mpr ⟨s, hsi, htrue.1, htrue.2⟩
      rw [hi] at hsome
      cases hsome
    rw [hnone]
    rfl
  | some i =>
    obtain ⟨s, hs, hlive, hlabel⟩ := (h.registry l i).mp hi
    have hsome : p.liveSocket l = some s := by
      cases hfind : p.liveSocket l with
      | none =>
        have hfalse := List.find?_eq_none.mp hfind s (List.mem_of_getElem? hs)
        rw [hlive, hlabel, Bool.true_and, beq_self_eq_true] at hfalse
        exact absurd rfl hfalse
      | some t =>
        have htrue := List.find?_some hfind
        rw [Bool.and_eq_true, beq_iff_eq] at htrue
        obtain ⟨j, htj⟩ := List.mem_iff_getElem?.mp (List.mem_of_find?_eq_some hfind)
        have hother := (h.registry l j).mpr ⟨t, htj, htrue.1, htrue.2⟩
        rw [hi, Option.some.injEq] at hother
        rw [hother] at hs
        exact congrArg some (Option.some.inj (htj.symm.trans hs))
    rw [Option.bind_some, hs, hsome]

end Process

/-- **A scrape shows the live sockets**: in every run in which no socket is made under the label of
a live one, after a refresh the series of a label are the counters of the live socket that has it,
or are gone if there is none; the global series are the sums over all sockets there have been; and
the counters of each are those of a run of that socket. -/
theorem gauges_eq {F : Type*} (V : GaugeVec F) (toF : UInt64 → F) (events : List ProcessEvent)
    (hdistinct : Along (Process.step toF) Process.Distinct (.new : Process V) events) :
    let p := (events.foldl (Process.step toF) (.new : Process V)).refresh toF
    (∀ m l, V.get p.gauges (metricName m, l) =
        if l = globalLabel then some (toF (Process.total p.sockets m))
        else (p.liveSocket l).map fun s => toF (s.counters.value m)) ∧
      ∀ s ∈ p.sockets, ∃ cfg es, s.system = System.run cfg es ∧
        s.counters = System.counters cfg es := by
  intro p
  have h := inv_along Process.Inv (fun _ _ h hdistinct => h.step hdistinct) Process.inv_new
    hdistinct
  refine ⟨fun m l => ?_, h.genuine⟩
  rw [Process.gauges_refresh h.registered_global h.prev h.shown, h.globals, h.registered_eq,
    Option.map_map]
  rfl

/-- Gauges as a map from their labels. -/
def GaugeVec.ofMap (F : Type) : GaugeVec F where
  Vec := String × String → Option F
  new _ := none
  set g k v := Function.update g k (some v)
  remove g k := Function.update g k none
  get g := g
  get_new _ := rfl
  get_set g k v k' := by rw [Function.update_apply]
  get_remove g k k' := by rw [Function.update_apply]

/-- A socket allocates a frame and is shown, and is replaced by another under the same label. -/
def replacedSocket : List ProcessEvent :=
  [.openSocket "eth0" 0 smallConfig, .socket 0 (.send (bytePackets 1)), .socket 0 .advance,
    .socket 0 .advance, .refresh, .dropSocket 0, .openSocket "eth0" 0 smallConfig]

theorem gauges_eq_replacedSocket :
    let p := (replacedSocket.foldl (Process.step UInt64.toFloat)
      (.new : Process (.ofMap Float))).refresh UInt64.toFloat
    (∀ m l, p.gauges (metricName m, l) =
        if l = globalLabel then some (Process.total p.sockets m).toFloat
        else (p.liveSocket l).map fun s => (s.counters.value m).toFloat) ∧
      ∀ s ∈ p.sockets, ∃ cfg es, s.system = System.run cfg es ∧
        s.counters = System.counters cfg es :=
  gauges_eq (.ofMap Float) UInt64.toFloat replacedSocket (by decide +kernel)

end SmipMwp.Cli
