import Mathlib.Algebra.Order.Ring.Nat
import Mathlib.Logic.Function.Basic

/-!
# Direct-mapped caches with epochs

A cache holds one line for each index; a line remembers the epoch it was filled in and the key it
was filled for. A lookup in an epoch returns the value of the line of its key if both match, and
otherwise asks for the answer of the store behind the cache (`own`), with which it fills the line
unless there is none. Nothing else invalidates a line: what keeps a hit from being wrong is the
discipline of the epochs.

Two accounts of a hit are proved here. For the lookups of one thread, the answers are the store's
own exactly when no access finds the line of an earlier one that was asked of a different store
(`answersOwn_iff`). For caches filled in several steps, a hit in an epoch returns a value that the
store had at a moment at which the epoch had been reached (`Sourced.of_epoch_eq`).
-/

namespace SmipMwp

/-- A cache line: the epoch it was filled in, the key and the value. -/
structure Line (κ ν : Type*) where
  epoch : UInt64
  key : κ
  value : ν

/-- A cache with one line for each index. -/
abbrev DirectMapped (ι κ ν : Type*) := ι → Line κ ν

/-- A lookup: the epoch it loads, its key, and the answer of the store behind the cache. -/
structure Access (κ ν : Type*) where
  epoch : UInt64
  key : κ
  own : Option ν

namespace DirectMapped

variable {ι κ ν : Type*} [DecidableEq ι] [DecidableEq κ] (index : κ → ι)

/-- The value of the line of `k`, if it was filled for `k` in this epoch. -/
def check (c : DirectMapped ι κ ν) (epoch : UInt64) (k : κ) : Option ν :=
  if (c (index k)).epoch = epoch ∧ (c (index k)).key = k then some (c (index k)).value else none

def fill (c : DirectMapped ι κ ν) (epoch : UInt64) (k : κ) (v : ν) : DirectMapped ι κ ν :=
  Function.update c (index k) { epoch := epoch, key := k, value := v }

/-- A lookup: the answer, and the cache afterwards. -/
def lookup (c : DirectMapped ι κ ν) (a : Access κ ν) : Option ν × DirectMapped ι κ ν :=
  match c.check index a.epoch a.key with
  | some v => (some v, c)
  | none =>
    match a.own with
    | some v => (some v, c.fill index a.epoch a.key v)
    | none => (none, c)

variable {index}

omit [DecidableEq ι] in
theorem check_eq_some {c : DirectMapped ι κ ν} {epoch : UInt64} {k : κ} {v : ν} :
    c.check index epoch k = some v ↔ c (index k) = { epoch := epoch, key := k, value := v } := by
  unfold check
  rcases c (index k) with ⟨epoch', k', v'⟩
  simp only [Line.mk.injEq, ite_eq_iff, Option.some_inj, reduceCtorEq, and_false, or_false,
    and_assoc]

theorem lookup_of_check {c : DirectMapped ι κ ν} {a : Access κ ν} {v : ν}
    (h : c.check index a.epoch a.key = some v) : c.lookup index a = (some v, c) := by
  rw [lookup, h]

theorem lookup_of_miss {c : DirectMapped ι κ ν} {a : Access κ ν}
    (h : c.check index a.epoch a.key = none) : (c.lookup index a).1 = a.own := by
  rw [lookup, h]
  cases a.own <;> rfl

/-- A lookup without an answer of its own leaves the cache as it is. -/
theorem lookup_of_own_none {c : DirectMapped ι κ ν} {a : Access κ ν} (h : a.own = none) :
    (c.lookup index a).2 = c := by
  rw [lookup, h]
  cases c.check index a.epoch a.key <;> rfl

/-- A lookup touches the line of its key only. -/
theorem lookup_of_index_ne {c : DirectMapped ι κ ν} {a : Access κ ν} {i : ι}
    (h : index a.key ≠ i) : (c.lookup index a).2 i = c i := by
  unfold lookup
  cases c.check index a.epoch a.key with
  | some v => rfl
  | none =>
    cases a.own with
    | some v => exact Function.update_of_ne h.symm _ _
    | none => rfl

/-- A lookup that answers its own `some v` leaves `v` in the line of its key, filled in its
epoch, whether it hit or missed. -/
theorem line_of_answer {c : DirectMapped ι κ ν} {a : Access κ ν} {v : ν} (hown : a.own = some v)
    (h : (c.lookup index a).1 = a.own) :
    (c.lookup index a).2 (index a.key) = { epoch := a.epoch, key := a.key, value := v } := by
  cases hc : c.check index a.epoch a.key with
  | some w =>
    rw [lookup_of_check hc] at h ⊢
    rw [← check_eq_some, hc, ← hown, ← h]
  | none =>
    simp only [lookup, hc, hown]
    exact Function.update_self ..

end DirectMapped

/-! ## The lookups of one thread -/

section Accesses

open DirectMapped

variable {ι κ ν : Type*} [DecidableEq ι] [DecidableEq κ] (index : κ → ι)
  (c₀ : DirectMapped ι κ ν) (access : ℕ → Option (Access κ ν))

/-- The cache before step `n` of a run, of which step `m` is a lookup if `access m` says so. -/
def cacheAt : ℕ → DirectMapped ι κ ν
  | 0 => c₀
  | n + 1 =>
    match access n with
    | some a => ((cacheAt n).lookup index a).2
    | none => cacheAt n

/-- The lookup of step `n`, if there is one, answers what the store behind the cache does. -/
def AnswersOwn (n : ℕ) : Prop :=
  ∀ a, access n = some a → ((cacheAt index c₀ access n).lookup index a).1 = a.own

/-- Step `m` does not find an answer of its own for a key of line `i`. -/
def Spares (i : ι) (m : ℕ) : Prop :=
  ∀ a, access m = some a → index a.key = i → a.own = none

/-- **What a lookup of step `n` finds in its line does not mislead it**: neither the answer of the
last lookup that answered from the line, if it was for the same key in the same epoch, nor the
initial line, if no lookup has answered from it. -/
structure Undisturbed (n : ℕ) (b : Access κ ν) : Prop where
  refilled : ∀ j < n, ∀ a, access j = some a → a.key = b.key → a.epoch = b.epoch →
    (∀ m, j < m → m < n → Spares index access (index b.key) m) →
    ∀ v, a.own = some v → b.own = some v
  initial : (∀ m < n, Spares index access (index b.key) m) →
    ∀ v, c₀ (index b.key) = { epoch := b.epoch, key := b.key, value := v } → b.own = some v

variable {index c₀ access}

theorem cacheAt_succ_of_spares {i : ι} {n : ℕ} (h : Spares index access i n) :
    cacheAt index c₀ access (n + 1) i = cacheAt index c₀ access n i := by
  rw [cacheAt]
  cases ha : access n with
  | none => rfl
  | some a =>
    by_cases hi : index a.key = i
    · simp only [lookup_of_own_none (h a ha hi)]
    · exact lookup_of_index_ne hi

theorem cacheAt_of_spares {i : ι} {j n : ℕ} (hjn : j ≤ n)
    (h : ∀ m, j ≤ m → m < n → Spares index access i m) :
    cacheAt index c₀ access n i = cacheAt index c₀ access j i := by
  induction n, hjn using Nat.le_induction with
  | base => rfl
  | succ n hjn ih =>
    rw [cacheAt_succ_of_spares (h n hjn (by omega)), ih fun m hjm hmn => h m hjm (by omega)]

/-- The line that a lookup with its own answer leaves stays until the next such lookup. -/
theorem cacheAt_of_answersOwn {j n : ℕ} (hjn : j < n) {a : Access κ ν} (ha : access j = some a)
    {v : ν} (hv : a.own = some v) (hj : AnswersOwn index c₀ access j)
    (h : ∀ m, j < m → m < n → Spares index access (index a.key) m) :
    cacheAt index c₀ access n (index a.key) =
      { epoch := a.epoch, key := a.key, value := v } := by
  rw [cacheAt_of_spares hjn fun m hjm hmn => h m (by omega) hmn, cacheAt]
  simp only [ha]
  exact line_of_answer hv (hj a ha)

omit [DecidableEq ι] [DecidableEq κ] in
/-- Either every step before `n` spares a line, or one is the last that does not. -/
theorem spares_or_last (index : κ → ι) (access : ℕ → Option (Access κ ν)) (i : ι) (n : ℕ) :
    (∀ m < n, Spares index access i m) ∨
      ∃ j < n, ¬ Spares index access i j ∧ ∀ m, j < m → m < n → Spares index access i m := by
  induction n with
  | zero => exact .inl fun m hm => absurd hm (Nat.not_lt_zero m)
  | succ n ih =>
    by_cases hn : Spares index access i n
    · rcases ih with h | ⟨j, hj, hnot, h⟩
      · exact .inl fun m hm => (Nat.lt_succ_iff_lt_or_eq.mp hm).elim (h m) (· ▸ hn)
      · refine .inr ⟨j, by omega, hnot, fun m hjm hm => ?_⟩
        exact (Nat.lt_succ_iff_lt_or_eq.mp hm).elim (h m hjm) (· ▸ hn)
    · exact .inr ⟨n, by omega, hn, fun m hnm hm => absurd hm (by omega)⟩

/-- After steps that all answered their own, an undisturbed lookup answers its own. -/
theorem answersOwn_of_undisturbed {n : ℕ} (hbefore : ∀ m < n, AnswersOwn index c₀ access m)
    (h : ∀ b, access n = some b → Undisturbed index c₀ access n b) :
    AnswersOwn index c₀ access n := by
  intro b hb
  cases hc : (cacheAt index c₀ access n).check index b.epoch b.key with
  | none => exact lookup_of_miss hc
  | some w =>
    rw [lookup_of_check hc]
    rw [check_eq_some] at hc
    rcases spares_or_last index access (index b.key) n with
      hall | ⟨j, hj, hnot, hlast⟩
    · rw [cacheAt_of_spares (Nat.zero_le n) fun m _ hm => hall m hm] at hc
      exact ((h b hb).initial hall w hc).symm
    · simp only [Spares, not_forall] at hnot
      obtain ⟨a, ha, hi, hown⟩ := hnot
      obtain ⟨v, hv⟩ := Option.ne_none_iff_exists'.mp hown
      rw [← hi] at hlast hc
      rw [cacheAt_of_answersOwn hj ha hv (hbefore j hj) hlast, Line.mk.injEq] at hc
      obtain ⟨hepoch, hkey, rfl⟩ := hc
      rw [hkey] at hlast
      exact ((h b hb).refilled j hj a ha hkey hepoch hlast v hv).symm

/-- When every step so far has answered its own, so that the lines are as the lookups' own answers
left them, a lookup that does so too is undisturbed. -/
theorem undisturbed_of_answersOwn {n : ℕ} (hbefore : ∀ m ≤ n, AnswersOwn index c₀ access m)
    {b : Access κ ν} (hb : access n = some b) : Undisturbed index c₀ access n b := by
  have hhit : ∀ v, cacheAt index c₀ access n (index b.key) =
      { epoch := b.epoch, key := b.key, value := v } → b.own = some v := by
    intro v hv
    rw [← hbefore n le_rfl b hb, lookup_of_check (check_eq_some.mpr hv)]
  constructor
  · intro j hj a ha hkey hepoch hlast v hv
    apply hhit
    rw [← hkey] at hlast ⊢
    rw [cacheAt_of_answersOwn hj ha hv (hbefore j hj.le) hlast, hepoch]
  · intro hall v hv
    apply hhit
    rw [cacheAt_of_spares (Nat.zero_le n) fun m _ hm => hall m hm]
    exact hv

/-- **The answers are the store's own** throughout a run exactly when every lookup of the run is
undisturbed. -/
theorem answersOwn_iff (N : ℕ) :
    (∀ n < N, AnswersOwn index c₀ access n) ↔
      ∀ n < N, ∀ b, access n = some b → Undisturbed index c₀ access n b := by
  constructor
  · intro h n hn b hb
    exact undisturbed_of_answersOwn (fun m hm => h m (by omega)) hb
  · intro h n
    induction n using Nat.strong_induction_on with
    | _ n ih =>
      intro hn
      exact answersOwn_of_undisturbed (fun m hm => ih m hm (by omega)) (h n hn)

end Accesses

/-! ## Lines over time -/

section Sources

variable {κ ν : Type*} {content : ℕ → κ → Option ν} {clock : ℕ → ℕ}

/-- At time `n` a line is empty (epoch 0), or it holds a value that the store had for its key at a
time at which the clock had reached the line's epoch. The epoch shows one more than the clock. -/
def Sourced (content : ℕ → κ → Option ν) (clock : ℕ → ℕ) (n : ℕ) (l : Line κ ν) : Prop :=
  l.epoch = 0 ∨ ∃ m ≤ n, content m l.key = some l.value ∧ l.epoch.toNat ≤ 1 + clock m

theorem Sourced.mono {n n' : ℕ} (h : n ≤ n') {l : Line κ ν} (hl : Sourced content clock n l) :
    Sourced content clock n' l :=
  hl.imp_right fun ⟨m, hm, hcontent, hepoch⟩ => ⟨m, hm.trans h, hcontent, hepoch⟩

/-- **A hit is fresh**: a sourced line filled in the epoch that a lookup loaded at time `l` holds
a value that the store had after every time `i` at which the clock had not yet come that far. -/
theorem Sourced.of_epoch_eq {n i l : ℕ} {line : Line κ ν} (hl : Sourced content clock n line)
    (hmono : Monotone clock) (hi : clock i < clock l) (hwrap : 1 + clock l < 2 ^ 64)
    (hepoch : line.epoch = UInt64.ofNat (1 + clock l)) :
    ∃ m, i < m ∧ m ≤ n ∧ content m line.key = some line.value := by
  have htoNat : line.epoch.toNat = 1 + clock l := by
    rw [hepoch, UInt64.toNat_ofNat', Nat.mod_eq_of_lt hwrap]
  rcases hl with h0 | ⟨m, hm, hcontent, hle⟩
  · rw [h0, UInt64.toNat_zero] at htoNat
    omega
  · refine ⟨m, ?_, hm, hcontent⟩
    by_contra hmi
    have := hmono (Nat.le_of_not_lt hmi)
    omega

end Sources

end SmipMwp
