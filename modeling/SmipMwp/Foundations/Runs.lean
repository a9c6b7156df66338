import Mathlib.Data.List.Basic

/-!
# Loops that emit

A loop takes its state from one to the next and emits a list of events at each element.
`R s t es` says that from `s` to `t` the events `es` are emitted; when this composes, a whole
loop emits what its steps emit, in order (`foldl_runs`).

A loop whose steps may fail collects what they return, or stops at the first that fails
(`foldlM_append_eq_ok_iff`, `foldlM_append_eq_error_iff`).

Where what a step emits is a function of the state before it and of its element, `runLog` is the
list of everything a loop emits. A loop that does to one part of its state what a smaller loop does
logs what that one logs (`runLog_filterMap`).
-/

namespace SmipMwp

variable {σ α ε : Type*} {R : σ → σ → List ε → Prop}

/-- **The run rule**: a loop all of whose steps emit `em a` emits their concatenation. -/
theorem foldl_runs (hnil : ∀ s, R s s [])
    (happend : ∀ {s t u es fs}, R s t es → R t u fs → R s u (es ++ fs))
    {step : σ → α → σ} {em : α → List ε} (hstep : ∀ s a, R s (step s a) (em a))
    (l : List α) (s : σ) : R s (l.foldl step s) (l.flatMap em) := by
  induction l generalizing s with
  | nil => exact hnil s
  | cons a l ih =>
    rw [List.foldl_cons, List.flatMap_cons]
    exact happend (hstep s a) (ih (step s a))

/-- The run rule under an invariant. -/
theorem foldl_runs_of_inv (Inv : σ → Prop) (hnil : ∀ s, R s s [])
    (happend : ∀ {s t u es fs}, R s t es → R t u fs → R s u (es ++ fs))
    {step : σ → α → σ} {em : α → List ε}
    (hstep : ∀ s a, Inv s → Inv (step s a) ∧ R s (step s a) (em a)) (l : List α) {s : σ}
    (h : Inv s) : R s (l.foldl step s) (l.flatMap em) := by
  induction l generalizing s with
  | nil => exact hnil s
  | cons a l ih =>
    obtain ⟨hinv, hone⟩ := hstep s a h
    rw [List.foldl_cons, List.flatMap_cons]
    exact happend hone (ih hinv)

/-! ## A loop that can fail -/

section Fallible

variable {δ : Type*} {f : α → Except δ (List ε)} {l : List α} {acc r : List ε} {e : δ}

/-- A loop that collects what its steps return succeeds if they all do. -/
theorem foldlM_append_eq_ok_iff :
    l.foldlM (fun acc a => (f a).map (acc ++ ·)) acc = .ok r ↔
      ∃ parts : List (List ε), l.map f = parts.map .ok ∧ r = acc ++ parts.flatten := by
  induction l generalizing acc with
  | nil =>
    rw [List.foldlM_nil]
    constructor
    · intro h
      exact ⟨[], rfl, by rw [List.flatten_nil, List.append_nil, Except.ok.inj h]⟩
    · rintro ⟨parts, hparts, rfl⟩
      obtain rfl := List.map_eq_nil_iff.mp hparts.symm
      rw [List.flatten_nil, List.append_nil]
      rfl
  | cons a l ih =>
    rw [List.foldlM_cons]
    cases hf : f a with
    | error e =>
      refine ⟨fun h => (by cases h), ?_⟩
      rintro ⟨_ | ⟨part, parts⟩, hparts, -⟩
      · cases hparts
      · rw [List.map_cons, List.map_cons, hf] at hparts
        cases (List.cons.inj hparts).1
    | ok part =>
      change l.foldlM _ (acc ++ part) = _ ↔ _
      rw [ih]
      constructor
      · rintro ⟨parts, hparts, rfl⟩
        exact ⟨part :: parts, by rw [List.map_cons, List.map_cons, hf, hparts],
          by rw [List.flatten_cons, List.append_assoc]⟩
      · rintro ⟨_ | ⟨part', parts⟩, hparts, rfl⟩
        · cases hparts
        · rw [List.map_cons, List.map_cons, hf] at hparts
          obtain ⟨hpart, htail⟩ := List.cons.inj hparts
          obtain rfl := Except.ok.inj hpart
          exact ⟨parts, htail, by rw [List.flatten_cons, List.append_assoc]⟩

/-- It fails with the error of the first step that fails. -/
theorem foldlM_append_eq_error_iff :
    l.foldlM (fun acc a => (f a).map (acc ++ ·)) acc = .error e ↔
      ∃ (front : List α) (a : α) (back : List α), l = front ++ a :: back ∧
        (∀ b ∈ front, ∃ part, f b = .ok part) ∧ f a = .error e := by
  induction l generalizing acc with
  | nil =>
    refine ⟨fun h => (by cases h), ?_⟩
    rintro ⟨front, a, back, h, -⟩
    exact absurd h.symm (List.append_ne_nil_of_right_ne_nil _ (List.cons_ne_nil a back))
  | cons a l ih =>
    rw [List.foldlM_cons]
    cases hf : f a with
    | error e' =>
      constructor
      · intro h
        obtain rfl := Except.error.inj h
        exact ⟨[], a, l, rfl, List.forall_mem_nil _, hf⟩
      · rintro ⟨_ | ⟨b, front⟩, a', back, h, hfront, ha'⟩
        · obtain rfl := (List.cons.inj h).1
          rw [hf] at ha'
          obtain rfl := Except.error.inj ha'
          rfl
        · obtain rfl := (List.cons.inj h).1
          obtain ⟨part, hpart⟩ := hfront a List.mem_cons_self
          rw [hf] at hpart
          cases hpart
    | ok part =>
      change l.foldlM _ (acc ++ part) = _ ↔ _
      rw [ih]
      constructor
      · rintro ⟨front, a', back, rfl, hfront, ha'⟩
        exact ⟨a :: front, a', back, rfl, List.forall_mem_cons.mpr ⟨⟨part, hf⟩, hfront⟩, ha'⟩
      · rintro ⟨_ | ⟨b, front⟩, a', back, h, hfront, ha'⟩
        · obtain rfl := (List.cons.inj h).1
          rw [hf] at ha'
          cases ha'
        · obtain ⟨rfl, rfl⟩ := List.cons.inj h
          exact ⟨front, a', back, rfl, (List.forall_mem_cons.mp hfront).2, ha'⟩

end Fallible

/-! ## The log of a loop -/

section Log

variable (step : σ → α → σ) (emit : σ → α → List ε)

/-- What the loop emits from the state `s`: at each element, what `emit` says of the state it finds
there. -/
def runLog : σ → List α → List ε
  | _, [] => []
  | s, a :: l => emit s a ++ runLog (step s a) l

@[simp] theorem runLog_nil (s : σ) : runLog step emit s [] = [] := rfl

theorem runLog_append (s : σ) (l l' : List α) :
    runLog step emit s (l ++ l') =
      runLog step emit s l ++ runLog step emit (l.foldl step s) l' := by
  induction l generalizing s with
  | nil => rfl
  | cons a l ih =>
    rw [List.cons_append, runLog, ih, runLog, List.append_assoc]
    rfl

theorem runLog_append_singleton (s : σ) (l : List α) (a : α) :
    runLog step emit s (l ++ [a]) = runLog step emit s l ++ emit (l.foldl step s) a := by
  rw [runLog_append, runLog, runLog_nil, List.append_nil]

/-- Every step of the loop satisfies `ok` in the state it is taken in. -/
def Along (ok : σ → α → Prop) : σ → List α → Prop
  | _, [] => True
  | s, a :: l => ok s a ∧ Along ok (step s a) l

instance decidableAlong (ok : σ → α → Prop) [∀ s a, Decidable (ok s a)] :
    (s : σ) → (l : List α) → Decidable (Along step ok s l)
  | _, [] => inferInstanceAs (Decidable True)
  | s, a :: l =>
    have := decidableAlong ok (step s a) l
    inferInstanceAs (Decidable (ok s a ∧ Along step ok (step s a) l))

theorem along_append_singleton (ok : σ → α → Prop) (s : σ) (l : List α) (a : α) :
    Along step ok s (l ++ [a]) ↔ Along step ok s l ∧ ok (l.foldl step s) a := by
  induction l generalizing s with
  | nil => exact and_comm
  | cons b l ih => rw [List.cons_append, Along, ih, Along, and_assoc, List.foldl_cons]

theorem along_true (s : σ) (l : List α) : Along step (fun _ _ => True) s l := by
  induction l generalizing s with
  | nil => trivial
  | cons a l ih => exact ⟨trivial, ih _⟩

variable {step}

/-- **The invariant rule**: what every step that is `ok` keeps, holds at the end of every run whose
steps are. -/
theorem inv_along (Inv : σ → Prop) {ok : σ → α → Prop}
    (hstep : ∀ s a, Inv s → ok s a → Inv (step s a)) {s : σ} (h : Inv s) {l : List α}
    (hl : Along step ok s l) : Inv (l.foldl step s) := by
  induction l generalizing s with
  | nil => exact h
  | cons a l ih => exact ih (hstep s a h hl.1) hl.2

/-- **The log rule**: what every step emits under an invariant that it keeps, so does every run. -/
theorem forall_mem_runLog {emit : σ → α → List ε} (Inv : σ → Prop) {P : ε → Prop}
    (hstep : ∀ s a, Inv s → Inv (step s a) ∧ ∀ e ∈ emit s a, P e) {s : σ} (h : Inv s)
    (l : List α) : Inv (l.foldl step s) ∧ ∀ e ∈ runLog step emit s l, P e := by
  induction l generalizing s with
  | nil => exact ⟨h, fun _ he => nomatch he⟩
  | cons a l ih =>
    obtain ⟨hinv, hone⟩ := hstep s a h
    obtain ⟨hinv', hrun⟩ := ih hinv
    refine ⟨hinv', fun e he => ?_⟩
    rcases List.mem_append.mp he with he | he
    · exact hone e he
    · exact hrun e he

/-- A loop logs what its steps emit, where that depends on their elements alone. -/
theorem runLog_eq_flatMap {emit : σ → α → List ε} (Inv : σ → Prop) {em : α → List ε}
    (hstep : ∀ s a, Inv s → Inv (step s a) ∧ emit s a = em a) (l : List α) {s : σ} (h : Inv s) :
    runLog step emit s l = l.flatMap em := by
  induction l generalizing s with
  | nil => rfl
  | cons a l ih =>
    obtain ⟨hinv, hone⟩ := hstep s a h
    rw [runLog, hone, ih hinv, List.flatMap_cons]

/-- **The projection rule**: if the elements that `sel` keeps do to `t` what they do to `s`, and the
others nothing, a run and the run of what is kept end in related states and log the same. -/
theorem runLog_filterMap {τ β : Type*} (R : σ → τ → Prop) {emit : σ → α → List ε}
    {step' : τ → β → τ} {emit' : τ → β → List ε} {sel : α → Option β}
    (hkeep : ∀ s t a b, R s t → sel a = some b → R (step s a) (step' t b) ∧ emit s a = emit' t b)
    (hskip : ∀ s t a, R s t → sel a = none → R (step s a) t ∧ emit s a = [])
    {s : σ} {t : τ} (h : R s t) (l : List α) :
    R (l.foldl step s) ((l.filterMap sel).foldl step' t) ∧
      runLog step emit s l = runLog step' emit' t (l.filterMap sel) := by
  induction l generalizing s t with
  | nil => exact ⟨h, rfl⟩
  | cons a l ih =>
    rw [List.foldl_cons, runLog]
    cases hsel : sel a with
    | none =>
      obtain ⟨hrel, hlog⟩ := hskip s t a h hsel
      rw [List.filterMap_cons_none hsel, hlog]
      exact ih hrel
    | some b =>
      obtain ⟨hrel, hlog⟩ := hkeep s t a b h hsel
      obtain ⟨hend, hrest⟩ := ih hrel
      rw [List.filterMap_cons_some hsel, List.foldl_cons, runLog, hlog, hrest]
      exact ⟨hend, rfl⟩

/-- The log rule for runs all of whose steps are `ok`. -/
theorem forall_mem_runLog_along {emit : σ → α → List ε} (Inv : σ → Prop) {ok : σ → α → Prop}
    {P : ε → Prop} (hstep : ∀ s a, Inv s → ok s a → Inv (step s a) ∧ ∀ e ∈ emit s a, P e) {s : σ}
    (h : Inv s) {l : List α} (hl : Along step ok s l) : ∀ e ∈ runLog step emit s l, P e := by
  induction l generalizing s with
  | nil => exact fun _ he => nomatch he
  | cons a l ih =>
    obtain ⟨hinv, hone⟩ := hstep s a h hl.1
    intro e he
    rcases List.mem_append.mp he with he | he
    · exact hone e he
    · exact ih hinv hl.2 e he

/-- **The balance rule**: if every step adds at the end of the contents what it takes in and takes
from their front what it gives out, so does every run. -/
theorem runLog_balance_along (Inv : σ → Prop) (contents : σ → List ε) {ok : σ → α → Prop}
    {taken given : σ → α → List ε}
    (hstep : ∀ s a, Inv s → ok s a →
      Inv (step s a) ∧ contents s ++ taken s a = given s a ++ contents (step s a))
    {s : σ} (h : Inv s) {l : List α} (hl : Along step ok s l) :
    Inv (l.foldl step s) ∧ contents s ++ runLog step taken s l =
      runLog step given s l ++ contents (l.foldl step s) := by
  induction l generalizing s with
  | nil => exact ⟨h, List.append_nil _⟩
  | cons a l ih =>
    obtain ⟨hinv, hone⟩ := hstep s a h hl.1
    obtain ⟨hinv', hrun⟩ := ih hinv hl.2
    refine ⟨hinv', ?_⟩
    rw [runLog, runLog, ← List.append_assoc, hone, List.append_assoc, hrun, List.append_assoc]
    rfl

theorem runLog_balance (Inv : σ → Prop) (contents : σ → List ε) {taken given : σ → α → List ε}
    (hstep : ∀ s a, Inv s →
      Inv (step s a) ∧ contents s ++ taken s a = given s a ++ contents (step s a))
    {s : σ} (h : Inv s) (l : List α) :
    Inv (l.foldl step s) ∧ contents s ++ runLog step taken s l =
      runLog step given s l ++ contents (l.foldl step s) :=
  runLog_balance_along Inv contents (fun s a h _ => hstep s a h) h (along_true step s l)

end Log

end SmipMwp
