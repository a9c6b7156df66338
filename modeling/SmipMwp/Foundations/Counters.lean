import Mathlib.Algebra.BigOperators.Group.List.Basic
import Mathlib.Logic.Function.Basic

/-!
# Counters created on demand

A family of counters has a value for some keys and none for the others. A bump adds an amount to the
counter of its key, which starts from zero if there is none. What a list of bumps leaves depends
only on which keys it has and on the total of the amounts for each (`bumpAll_eq`), so the order of
the bumps does not matter, and neither does how the amounts are split (`SameBumps`).
-/

namespace SmipMwp

variable {κ M α : Type*} [DecidableEq κ] [AddCommMonoid M]

/-- A counter for some of the keys. -/
abbrev Counters (κ M : Type*) := κ → Option M

/-- An amount added to the counter of a key. -/
def bump (c : Counters κ M) (p : κ × M) : Counters κ M :=
  Function.update c p.1 (some ((c p.1).getD 0 + p.2))

def bumpAll (c : Counters κ M) (ps : List (κ × M)) : Counters κ M := ps.foldl bump c

/-- The amounts for a key. -/
def totalFor (k : κ) (ps : List (κ × M)) : M := (ps.map fun p => if p.1 = k then p.2 else 0).sum

theorem totalFor_nil (k : κ) : totalFor k ([] : List (κ × M)) = 0 := rfl

theorem totalFor_cons (k : κ) (p : κ × M) (ps : List (κ × M)) :
    totalFor k (p :: ps) = (if p.1 = k then p.2 else 0) + totalFor k ps := by
  rw [totalFor, List.map_cons, List.sum_cons]
  rfl

theorem totalFor_append (k : κ) (ps qs : List (κ × M)) :
    totalFor k (ps ++ qs) = totalFor k ps + totalFor k qs := by
  rw [totalFor, List.map_append, List.sum_append]
  rfl

theorem totalFor_of_notMem {k : κ} {ps : List (κ × M)} (h : k ∉ ps.map Prod.fst) :
    totalFor k ps = 0 := by
  induction ps with
  | nil => rfl
  | cons p ps ih =>
    rw [List.map_cons, List.mem_cons, not_or] at h
    rw [totalFor_cons, if_neg (Ne.symm h.1), zero_add, ih h.2]

theorem bumpAll_append (c : Counters κ M) (ps qs : List (κ × M)) :
    bumpAll c (ps ++ qs) = bumpAll (bumpAll c ps) qs := List.foldl_append

/-- **What a list of bumps leaves**: the total for each key it has, on top of what was there. -/
theorem bumpAll_eq (c : Counters κ M) (ps : List (κ × M)) (k : κ) :
    bumpAll c ps k =
      if k ∈ ps.map Prod.fst then some ((c k).getD 0 + totalFor k ps) else c k := by
  induction ps generalizing c with
  | nil => rfl
  | cons p ps ih =>
    change bumpAll (bump c p) ps k = _
    rw [ih, totalFor_cons, bump, List.map_cons]
    by_cases hk : p.1 = k
    · subst hk
      rw [Function.update_self, if_pos List.mem_cons_self, if_pos rfl, Option.getD_some,
        ← add_assoc]
      split_ifs with hmem
      · rfl
      · rw [totalFor_of_notMem hmem, add_zero]
    · rw [Function.update_of_ne (Ne.symm hk), if_neg hk, zero_add]
      simp only [List.mem_cons, Ne.symm hk, false_or]

theorem bumpAll_of_notMem {k : κ} {ps : List (κ × M)} (h : k ∉ ps.map Prod.fst)
    (c : Counters κ M) : bumpAll c ps k = c k := by
  rw [bumpAll_eq, if_neg h]

/-- Bumps of a part of the family are bumps of that part. -/
theorem bumpAll_map {κ' : Type*} [DecidableEq κ'] {g : κ' → κ} (hg : Function.Injective g)
    (c : Counters κ M) (ps : List (κ' × M)) (k : κ') :
    bumpAll c (ps.map fun p => (g p.1, p.2)) (g k) = bumpAll (fun k => c (g k)) ps k := by
  induction ps generalizing c with
  | nil => rfl
  | cons p ps ih =>
    change bumpAll (bump c (g p.1, p.2)) _ (g k) = bumpAll (bump (fun k => c (g k)) p) ps k
    rw [ih]
    congr 1
    funext k'
    exact Function.update_apply_of_injective c hg p.1 _ k'

/-! ## Lists that bump alike -/

/-- The two lists have the same keys, and the same total for each. -/
structure SameBumps (ps qs : List (κ × M)) : Prop where
  keys : ∀ k, k ∈ ps.map Prod.fst ↔ k ∈ qs.map Prod.fst
  total : ∀ k, totalFor k ps = totalFor k qs

namespace SameBumps

variable {ps ps' qs qs' : List (κ × M)}

theorem bumpAll_eq_bumpAll (h : SameBumps ps qs) (c : Counters κ M) :
    bumpAll c ps = bumpAll c qs := by
  funext k
  rw [bumpAll_eq, bumpAll_eq, h.total k]
  exact if_congr (h.keys k) rfl rfl

theorem refl (ps : List (κ × M)) : SameBumps ps ps := ⟨fun _ => Iff.rfl, fun _ => rfl⟩

theorem trans {rs : List (κ × M)} (h : SameBumps ps qs) (h' : SameBumps qs rs) :
    SameBumps ps rs :=
  ⟨fun k => (h.keys k).trans (h'.keys k), fun k => (h.total k).trans (h'.total k)⟩

/-- The order does not matter. -/
theorem of_perm (h : ps.Perm qs) : SameBumps ps qs :=
  ⟨fun _ => (h.map Prod.fst).mem_iff, fun _ => (h.map _).sum_eq⟩

theorem append (h : SameBumps ps qs) (h' : SameBumps ps' qs') :
    SameBumps (ps ++ ps') (qs ++ qs') := by
  constructor
  case keys =>
    intro k
    rw [List.map_append, List.map_append, List.mem_append, List.mem_append, h.keys k, h'.keys k]
  case total =>
    intro k
    rw [totalFor_append, totalFor_append, h.total k, h'.total k]

theorem flatMap {f g : α → List (κ × M)} {l : List α} (h : ∀ a ∈ l, SameBumps (f a) (g a)) :
    SameBumps (l.flatMap f) (l.flatMap g) := by
  induction l with
  | nil => exact refl []
  | cons a l ih =>
    obtain ⟨ha, hl⟩ := List.forall_mem_cons.mp h
    rw [List.flatMap_cons, List.flatMap_cons]
    exact ha.append (ih hl)

/-- One list of bumps over and over has its amounts multiplied. -/
theorem replicate {n : ℕ} (hn : n ≠ 0) (ps : List (κ × M)) :
    SameBumps (List.replicate n ps).flatten (ps.map fun p => (p.1, n • p.2)) := by
  constructor
  case keys =>
    intro k
    rw [List.map_map, List.map_flatten, List.map_replicate, List.mem_flatten]
    constructor
    · rintro ⟨ks, hks, hk⟩
      exact List.eq_of_mem_replicate hks ▸ hk
    · exact fun hk => ⟨_, List.mem_replicate.mpr ⟨hn, rfl⟩, hk⟩
  case total =>
    intro k
    have hmul : totalFor k (ps.map fun p => (p.1, n • p.2)) = n • totalFor k ps := by
      induction ps with
      | nil => exact (nsmul_zero n).symm
      | cons p ps ih =>
        rw [List.map_cons, totalFor_cons, totalFor_cons, ih, nsmul_add]
        split_ifs
        · rfl
        · rw [nsmul_zero]
    rw [hmul]
    clear hmul hn
    induction n with
    | zero => rw [List.replicate_zero, List.flatten_nil, totalFor_nil, zero_nsmul]
    | succ n ih => rw [List.replicate_succ, List.flatten_cons, totalFor_append, ih, succ_nsmul']

/-- A bump by nothing is not missed where the key is bumped anyway. -/
theorem cons_zero {k : κ} (hk : k ∈ ps.map Prod.fst) : SameBumps ((k, 0) :: ps) ps := by
  constructor
  case keys =>
    intro k'
    rw [List.map_cons, List.mem_cons, or_iff_right_of_imp]
    rintro rfl
    exact hk
  case total =>
    intro k'
    rw [totalFor_cons]
    split_ifs <;> rw [zero_add]

/-- A bump by nothing in front of every other one is as good as one at the start. -/
theorem flatMap_cons_zero (k : κ) (g : α → κ × M) {l : List α} (hl : l ≠ []) :
    SameBumps (l.flatMap fun a => [(k, 0), g a]) ((k, 0) :: l.map g) := by
  induction l with
  | nil => exact absurd rfl hl
  | cons a l ih =>
    rcases eq_or_ne l [] with rfl | hne
    · exact refl _
    · have hswap : ((k, 0) :: g a :: (k, 0) :: l.map g).Perm
          ((k, 0) :: (k, 0) :: g a :: l.map g) := (List.Perm.swap _ _ _).cons _
      have hmem : k ∈ ((k, (0 : M)) :: g a :: l.map g).map Prod.fst := List.mem_cons_self
      exact ((refl [(k, 0), g a]).append (ih hne)).trans ((of_perm hswap).trans (cons_zero hmem))

end SameBumps

end SmipMwp
