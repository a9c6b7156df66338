import Mathlib.Data.List.Sort
import SmipMwp.Foundations.Runs

/-!
# Windows sorted by value

A window of capacity `c` remembers the numbers it has accepted, in ascending order, and refuses a
number that it remembers. To make room for a new one, a full window forgets its smallest.

As long as no number offered to a full window is below all of it, what has been forgotten stays
below the window, and each number is accepted at most once (`Remembers.slide`). A number below a
full window, however, takes the place of its smallest, which can then take the place back
(`slide_of_lt_head`).
-/

namespace SmipMwp

variable {α : Type*}

/-- A window with room for one more number: a full one forgets its smallest. -/
def makeRoom (c : ℕ) (l : List α) : List α := if l.length < c then l else l.tail

theorem makeRoom_sublist (c : ℕ) (l : List α) : (makeRoom c l).Sublist l := by
  unfold makeRoom
  split_ifs
  · exact List.Sublist.refl l
  · exact List.tail_sublist l

theorem length_makeRoom_lt {c : ℕ} (hc : 0 < c) {l : List α} (hl : l.length ≤ c) :
    (makeRoom c l).length < c := by
  unfold makeRoom
  split_ifs with h
  · exact h
  · rw [List.length_tail]
    omega

variable [LinearOrder α]

/-- The window after `x` is offered. -/
def slide (c : ℕ) (l : List α) (x : α) : List α :=
  if x ∈ l then l else (makeRoom c l).orderedInsert (· ≤ ·) x

/-- What a window accepts when `x` is offered. -/
def slideAccepted (l : List α) (x : α) : List α := if x ∈ l then [] else [x]

/-- No number is offered to a full window from below. -/
def NotBelow (c : ℕ) (l : List α) (x : α) : Prop := l.length = c → ∃ y ∈ l, y ≤ x

/-! ## One number -/

theorem length_slide_le {c : ℕ} (hc : 0 < c) {l : List α} (hl : l.length ≤ c) (x : α) :
    (slide c l x).length ≤ c := by
  unfold slide
  split_ifs
  · exact hl
  · rw [List.orderedInsert_length]
    exact length_makeRoom_lt hc hl

/-- A new number goes to its place. -/
theorem pairwise_orderedInsert {l : List α} (hl : l.Pairwise (· < ·)) {x : α} (hx : x ∉ l) :
    (l.orderedInsert (· ≤ ·) x).Pairwise (· < ·) := by
  have hle : (l.orderedInsert (· ≤ ·) x).Pairwise (· ≤ ·) :=
    (hl.imp le_of_lt).orderedInsert x l
  have hnodup : (l.orderedInsert (· ≤ ·) x).Nodup :=
    (List.perm_orderedInsert _ x l).nodup_iff.mpr
      (List.nodup_cons.mpr ⟨hx, hl.imp ne_of_lt⟩)
  exact hle.imp₂ (fun _ _ => lt_of_le_of_ne) hnodup

theorem pairwise_slide {l : List α} (hl : l.Pairwise (· < ·)) (c : ℕ) (x : α) :
    (slide c l x).Pairwise (· < ·) := by
  unfold slide
  split_ifs with hx
  · exact hl
  · have hsub := makeRoom_sublist c l
    exact pairwise_orderedInsert (hl.sublist hsub) fun hmem => hx (hsub.subset hmem)

theorem mem_slide_of_notMem {c : ℕ} {l : List α} {x : α} (hx : x ∉ l) (y : α) :
    y ∈ slide c l x ↔ y = x ∨ y ∈ makeRoom c l := by
  rw [slide, if_neg hx, List.mem_orderedInsert]

theorem slide_subset (c : ℕ) (l : List α) (x : α) : slide c l x ⊆ x :: l := by
  intro y hy
  unfold slide at hy
  split_ifs at hy
  · exact List.mem_cons_of_mem x hy
  · rcases (List.mem_orderedInsert _).mp hy with rfl | hy
    · exact List.mem_cons_self
    · exact List.mem_cons_of_mem x ((makeRoom_sublist c l).subset hy)

/-- What a full window forgets was its smallest. -/
theorem lt_of_notMem_makeRoom {c : ℕ} {l : List α} (hl : l.Pairwise (· < ·)) (hlen : l.length ≤ c)
    {y : α} (hy : y ∈ l) (hroom : y ∉ makeRoom c l) :
    l.length = c ∧ (∀ z ∈ l, y ≤ z) ∧ ∀ z ∈ makeRoom c l, y < z := by
  unfold makeRoom at hroom ⊢
  split_ifs at hroom ⊢ with hlt
  · exact absurd hy hroom
  · cases l with
    | nil => cases hy
    | cons m l =>
      have hm := List.pairwise_cons.mp hl
      obtain rfl : y = m := (List.mem_cons.mp hy).resolve_right hroom
      refine ⟨by omega, fun z hz => ?_, hm.1⟩
      rcases List.mem_cons.mp hz with rfl | hz
      · exact le_rfl
      · exact (hm.1 z hz).le

/-- A number below a full window takes the place of its smallest, and the other way round. -/
theorem slide_of_lt_head {c : ℕ} {m x : α} {l : List α} (hl : (m :: l).Pairwise (· < ·))
    (hlen : (m :: l).length = c) (hx : x < m) :
    slide c (m :: l) x = x :: l ∧ slide c (x :: l) m = m :: l ∧ x ∉ m :: l ∧ m ∉ x :: l := by
  have hm := List.pairwise_cons.mp hl
  have hxl : ∀ y ∈ l, x < y := fun y hy => hx.trans (hm.1 y hy)
  have hxm : x ∉ m :: l := by
    intro hmem
    rcases List.mem_cons.mp hmem with rfl | hmem
    · exact lt_irrefl x hx
    · exact lt_irrefl x (hxl x hmem)
  have hmx : m ∉ x :: l := by
    intro hmem
    rcases List.mem_cons.mp hmem with rfl | hmem
    · exact lt_irrefl m hx
    · exact lt_irrefl m (hm.1 m hmem)
  have hinsert : ∀ a : α, (∀ y ∈ l, a < y) → l.orderedInsert (· ≤ ·) a = a :: l := by
    intro a ha
    cases l with
    | nil => rfl
    | cons b l => exact List.orderedInsert_cons_of_le _ l (ha b List.mem_cons_self).le
  have hroom : ∀ a : α, makeRoom c (a :: l) = l := by
    intro a
    exact if_neg (by rw [List.length_cons] at hlen ⊢; omega)
  refine ⟨?_, ?_, hxm, hmx⟩
  · rw [slide, if_neg hxm, hroom, hinsert x hxl]
  · rw [slide, if_neg hmx, hroom, hinsert m hm.1]

/-! ## The place of a number -/

/-- How many entries at the front of `l` are smaller than `x`. -/
def place (l : List α) (x : α) : ℕ := (l.takeWhile (· < x)).length

theorem place_cons_of_lt {m x : α} (l : List α) (h : m < x) : place (m :: l) x = place l x + 1 := by
  rw [place, List.takeWhile_cons_of_pos (by simpa using h), List.length_cons, place]

theorem place_cons_of_le {m x : α} (l : List α) (h : x ≤ m) : place (m :: l) x = 0 := by
  rw [place, List.takeWhile_cons_of_neg (by simpa using h), List.length_nil]

theorem place_le_length (l : List α) (x : α) : place l x ≤ l.length :=
  (List.takeWhile_sublist _).length_le

theorem place_of_forall_lt {l : List α} {x : α} (h : ∀ y ∈ l, y < x) : place l x = l.length := by
  induction l with
  | nil => rfl
  | cons m l ih =>
    rw [place_cons_of_lt l (h m List.mem_cons_self), List.length_cons,
      ih fun y hy => h y (List.mem_cons_of_mem m hy)]

/-- A sorted insertion is an insertion at the place of the number. -/
theorem orderedInsert_eq_place (l : List α) (x : α) :
    l.orderedInsert (· ≤ ·) x = l.take (place l x) ++ x :: l.drop (place l x) := by
  induction l with
  | nil => rfl
  | cons m l ih =>
    by_cases h : x ≤ m
    · rw [List.orderedInsert_cons_of_le _ l h, place_cons_of_le l h]
      rfl
    · rw [List.orderedInsert_of_not_le _ l h, ih, place_cons_of_lt l (not_le.mp h)]
      rfl

/-- A new number is inserted at its place among those that stay. -/
theorem slide_of_notMem {c : ℕ} {l : List α} {x : α} (hx : x ∉ l) :
    slide c l x = (makeRoom c l).take (place (makeRoom c l) x) ++
      x :: (makeRoom c l).drop (place (makeRoom c l) x) := by
  rw [slide, if_neg hx, orderedInsert_eq_place]

/-- A number above all others goes to the end. -/
theorem slide_of_forall_lt {l : List α} {x : α} (h : ∀ y ∈ l, y < x) (c : ℕ) :
    slide c l x = makeRoom c l ++ [x] := by
  have hroom : place (makeRoom c l) x = (makeRoom c l).length :=
    place_of_forall_lt fun y hy => h y ((makeRoom_sublist c l).subset hy)
  rw [slide_of_notMem fun hmem => lt_irrefl x (h x hmem), hroom, List.take_length,
    List.drop_length]

/-- A number of an ascending list is found at its place. -/
theorem getElem?_place_eq_some_iff {l : List α} (hl : l.Pairwise (· < ·)) (x : α) :
    l[place l x]? = some x ↔ x ∈ l := by
  refine ⟨List.mem_of_getElem?, fun hx => ?_⟩
  induction l with
  | nil => cases hx
  | cons m l ih =>
    have hm := List.pairwise_cons.mp hl
    rcases List.mem_cons.mp hx with rfl | hx
    · rw [place_cons_of_le l le_rfl]
      rfl
    · rw [place_cons_of_lt l (hm.1 x hx), List.getElem?_cons_succ]
      exact ih hm.2 hx

/-- Without its smallest entry the list has the place one further to the left. -/
theorem place_tail {l : List α} (hl : l.Pairwise (· < ·)) {x : α} (hx : x ∉ l) :
    place l.tail x = place l x - 1 := by
  cases l with
  | nil => rfl
  | cons m l =>
    have hm := List.pairwise_cons.mp hl
    rcases lt_trichotomy m x with hlt | rfl | hlt
    · rw [place_cons_of_lt l hlt]
      rfl
    · exact absurd List.mem_cons_self hx
    · rw [place_cons_of_le l hlt.le, List.tail_cons]
      cases l with
      | nil => rfl
      | cons b l => exact place_cons_of_le l (hlt.trans (hm.1 b List.mem_cons_self)).le

/-! ## Runs -/

/-- A window that has accepted the numbers of `log`, each once, and remembers the largest. -/
structure Remembers (c : ℕ) (l log : List α) : Prop where
  pairwise : l.Pairwise (· < ·)
  length_le : l.length ≤ c
  subset : l ⊆ log
  nodup : log.Nodup
  forgotten : ∀ y ∈ log, y ∉ l → l.length = c ∧ ∀ z ∈ l, y < z

theorem remembers_nil (c : ℕ) : Remembers c ([] : List α) [] :=
  ⟨List.Pairwise.nil, Nat.zero_le c, List.Subset.refl _, List.nodup_nil,
    fun _ hy => absurd hy List.not_mem_nil⟩

/-- A number that is not in the window, and not below a full one, has never been accepted. -/
theorem Remembers.notMem {c : ℕ} {l log : List α} (h : Remembers c l log) {x : α}
    (hx : NotBelow c l x) (hmem : x ∉ l) : x ∉ log := by
  intro hlog
  obtain ⟨hfull, hbelow⟩ := h.forgotten x hlog hmem
  obtain ⟨y, hy, hyx⟩ := hx hfull
  exact absurd hyx (not_le.mpr (hbelow y hy))

theorem Remembers.slide {c : ℕ} (hc : 0 < c) {l log : List α} (h : Remembers c l log) {x : α}
    (hx : NotBelow c l x) : Remembers c (slide c l x) (log ++ slideAccepted l x) := by
  by_cases hmem : x ∈ l
  · rw [SmipMwp.slide, slideAccepted, if_pos hmem, if_pos hmem, List.append_nil]
    exact h
  rw [slideAccepted, if_neg hmem]
  have hlen : l.length = c → (SmipMwp.slide c l x).length = c := by
    intro hfull
    rw [SmipMwp.slide, if_neg hmem, makeRoom, if_neg (by omega), List.orderedInsert_length,
      List.length_tail]
    omega
  constructor
  case pairwise => exact pairwise_slide h.pairwise c x
  case length_le => exact length_slide_le hc h.length_le x
  case subset =>
    intro y hy
    rcases (mem_slide_of_notMem hmem y).mp hy with rfl | hy
    · exact List.mem_append_right _ List.mem_cons_self
    · exact List.mem_append_left _ (h.subset ((makeRoom_sublist c l).subset hy))
  case nodup =>
    exact h.nodup.append (List.nodup_singleton x)
      (List.disjoint_singleton.mpr (h.notMem hx hmem))
  case forgotten =>
    intro y hy hgone
    rw [mem_slide_of_notMem hmem, not_or] at hgone
    obtain ⟨hyx, hroom⟩ := hgone
    have hylog : y ∈ log :=
      (List.mem_append.mp hy).resolve_right fun hy => hyx (List.mem_singleton.mp hy)
    -- forgotten earlier, or just now: either way the window was full, and `y` at most its smallest
    have hbelow : l.length = c ∧ (∀ z ∈ l, y ≤ z) ∧ ∀ z ∈ makeRoom c l, y < z := by
      by_cases hyl : y ∈ l
      · exact lt_of_notMem_makeRoom h.pairwise h.length_le hyl hroom
      · obtain ⟨hfull, hlt⟩ := h.forgotten y hylog hyl
        exact ⟨hfull, fun z hz => (hlt z hz).le,
          fun z hz => hlt z ((makeRoom_sublist c l).subset hz)⟩
    obtain ⟨hfull, hle, hlt⟩ := hbelow
    refine ⟨hlen hfull, fun z hz => ?_⟩
    rcases (mem_slide_of_notMem hmem z).mp hz with rfl | hz
    · obtain ⟨w, hw, hwz⟩ := hx hfull
      exact lt_of_le_of_ne ((hle w hw).trans hwz) hyx
    · exact hlt z hz

end SmipMwp
