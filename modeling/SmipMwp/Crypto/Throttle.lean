import Mathlib.Algebra.Order.Ring.Int
import SmipMwp.Foundations.Spacing

/-!
# The throttle

`DoSThrottle` admits a packet when enough nanoseconds have passed since the last one admitted. The
interval is the second divided by the rate and rounded down, so a run of calls thins its clock
readings by that interval (`admitted_eq_thin`), and as many as `r + 1` packets fit into a second
unless the rate `r` divides it (`allowPacket_rate_iff`).
-/

namespace SmipMwp.Crypto

/-- `i64::saturating_sub`. -/
def saturatingSub (a b : ℤ) : ℤ := max (-2 ^ 63) (min (a - b) (2 ^ 63 - 1))

/-- `DoSThrottle`: the last clock reading at which a packet was admitted, 0 for none, and the
interval between packets, both in nanoseconds. -/
structure DoSThrottle where
  lastPacketTime : ℤ
  rateLimitNs : ℤ
  deriving DecidableEq

namespace DoSThrottle

/-- `window_ns`: a second. -/
def windowNs : ℤ := 1000000000

/-- `DoSThrottle::new`; the rate is an `i32`. -/
def new (ratePerSec : ℤ) : DoSThrottle where
  lastPacketTime := 0
  rateLimitNs := min (1000000000 / max ratePerSec 1) windowNs

/-- `allow_packet`, at the clock reading `now`. -/
def allowPacket (s : DoSThrottle) (now : ℤ) : Bool × DoSThrottle :=
  let lastSeen := s.lastPacketTime
  let elapsed := saturatingSub now lastSeen
  if lastSeen = 0 ∨ elapsed ≥ s.rateLimitNs then (true, { s with lastPacketTime := now })
  else (false, s)

/-- The readings at which a run of calls admits a packet. -/
def admitted (s : DoSThrottle) : List ℤ → List ℤ
  | [] => []
  | now :: ts =>
    if (s.allowPacket now).1 then now :: (s.allowPacket now).2.admitted ts
    else (s.allowPacket now).2.admitted ts

/-! ## The interval -/

theorem le_saturatingSub_iff {limit : ℤ} (h₀ : -2 ^ 63 < limit) (h₁ : limit < 2 ^ 63) (a b : ℤ) :
    limit ≤ saturatingSub a b ↔ b + limit ≤ a := by
  unfold saturatingSub
  omega

/-- The interval is the second divided by the rate. -/
theorem rateLimitNs_new {r : ℤ} (hr : 1 ≤ r) : (new r).rateLimitNs = 1000000000 / r := by
  have hle : (1000000000 : ℤ) / r ≤ windowNs := Int.ediv_le_self r (by decide)
  simp only [new, max_eq_left hr, min_eq_left hle]

/-! ## Runs -/

/-- **A run of calls thins its readings.** -/
theorem admitted_eq_thin {s : DoSThrottle} (h₀ : -2 ^ 63 < s.rateLimitNs)
    (h₁ : s.rateLimitNs < 2 ^ 63) {ts : List ℤ} (hts : ∀ t ∈ ts, 0 < t) :
    s.admitted ts = thin s.rateLimitNs
      (if s.lastPacketTime = 0 then none else some s.lastPacketTime) ts := by
  induction ts generalizing s with
  | nil => split_ifs <;> rfl
  | cons now ts ih =>
    have hnow : now ≠ 0 := (hts now List.mem_cons_self).ne'
    have hts' : ∀ t ∈ ts, 0 < t := fun t ht => hts t (List.mem_cons_of_mem now ht)
    have helapsed := le_saturatingSub_iff h₀ h₁ now s.lastPacketTime
    have hadmit := ih (s := { s with lastPacketTime := now }) h₀ h₁ hts'
    rw [if_neg hnow] at hadmit
    simp only [admitted, allowPacket, ge_iff_le, helapsed]
    by_cases hfirst : s.lastPacketTime = 0
    · simp only [hfirst, true_or, if_true, thin, hadmit]
    · by_cases hle : s.lastPacketTime + s.rateLimitNs ≤ now
      · simp only [hfirst, hle, or_true, if_true, if_false, thin, hadmit]
      · have hskip := ih h₀ h₁ hts'
        rw [if_neg hfirst] at hskip
        simp only [hfirst, hle, or_self, if_false, Bool.false_eq_true, thin, hskip]

/-- What a new throttle admits. -/
theorem admitted_new {r : ℤ} (hr : 1 ≤ r) {ts : List ℤ} (hts : ∀ t ∈ ts, 0 < t) :
    (new r).admitted ts = thin (1000000000 / r) none ts := by
  have hlimit := rateLimitNs_new hr
  have h₀ : 0 ≤ (1000000000 : ℤ) / r := Int.ediv_nonneg (by decide) (by omega)
  have h₁ : (1000000000 : ℤ) / r ≤ 1000000000 := Int.ediv_le_self r (by decide)
  rw [admitted_eq_thin (by omega) (by omega) hts, hlimit]
  rfl

/-- A window of a second, from `w` on. -/
def inWindow (w t : ℤ) : Bool := w ≤ t && t < w + windowNs

/-- With a rate that divides the second, the intervals add up to it. -/
theorem length_filter_admitted_le {r : ℤ} (hr : 1 ≤ r) (hdvd : r ∣ windowNs) {ts : List ℤ}
    (hts : ∀ t ∈ ts, 0 < t) (w : ℤ) :
    ((((new r).admitted ts).filter (inWindow w)).length : ℤ) ≤ r := by
  obtain ⟨d, hd⟩ := hdvd
  have hinterval : (1000000000 : ℤ) / r = d := by
    rw [show (1000000000 : ℤ) = r * d from hd, Int.mul_ediv_cancel_left d (by omega)]
  have hpos : 0 < d := (mul_pos_iff_of_pos_left (by omega)).mp (hd ▸ by decide : 0 < r * d)
  rw [admitted_new hr hts, hinterval]
  have hspaced : Spaced d ((thin d none ts).filter (inWindow w)) :=
    (spaced_thin hpos.le none ts).sublist List.filter_sublist
  cases hn : ((thin d none ts).filter (inWindow w)).length with
  | zero => omega
  | succ n =>
    have hlt := hspaced.nsmul_lt (t := w) (w := windowNs) hn fun x hx => by
      simpa [inWindow] using List.of_mem_filter hx
    rw [hd, nsmul_eq_mul] at hlt
    have hn' : (n : ℤ) < r := lt_of_mul_lt_mul_right hlt hpos.le
    omega

/-- With any other rate `r`, as many as `r + 1` readings an interval apart fit into a second. -/
theorem admitted_progression {r : ℤ} (hr : 1 ≤ r) (hdvd : ¬ r ∣ windowNs) :
    ∃ ts : List ℤ, ts.Pairwise (· ≤ ·) ∧ (∀ t ∈ ts, 0 < t ∧ t < 2 ^ 63) ∧
      r < (((new r).admitted ts).filter (inWindow 1)).length := by
  obtain ⟨n, rfl⟩ := Int.eq_ofNat_of_zero_le (by omega : 0 ≤ r)
  set d : ℤ := 1000000000 / n with hd
  have hd₀ : 0 ≤ d := Int.ediv_nonneg (by decide) (by omega)
  have hlt : n * d < windowNs :=
    lt_of_le_of_ne (Int.mul_ediv_self_le (by omega)) fun h => hdvd ⟨d, h.symm⟩
  set ts : List ℤ := (List.range (n + 1)).map fun i => 1 + i • d with hts
  have hspaced : Spaced d ts := spaced_progression hd₀ 1 (n + 1)
  have hmem : ∀ t ∈ ts, 1 ≤ t ∧ t < 1 + windowNs := by
    intro t ht
    obtain ⟨i, hi, rfl⟩ := List.mem_map.mp ht
    have hin : (i : ℤ) ≤ n := by
      have := List.mem_range.mp hi
      omega
    have hle : i • d ≤ n * d := by
      rw [nsmul_eq_mul]
      exact mul_le_mul_of_nonneg_right hin hd₀
    have hnonneg : 0 ≤ i • d := nsmul_nonneg hd₀ i
    omega
  have hpos : ∀ t ∈ ts, 0 < t ∧ t < 2 ^ 63 := fun t ht => by
    have := hmem t ht
    unfold windowNs at this
    omega
  refine ⟨ts, hspaced.imp fun h => by omega, hpos, ?_⟩
  have hall : ts.filter (inWindow 1) = ts :=
    List.filter_eq_self.mpr fun t ht => by simpa [inWindow] using hmem t ht
  rw [admitted_new hr fun t ht => (hpos t ht).1, ← hd, thin_of_spaced hspaced, hall, hts,
    List.length_map, List.length_range]
  omega

end DoSThrottle

open DoSThrottle

/-- **The rate is kept** exactly when it divides the second. -/
theorem allowPacket_rate_iff {r : ℤ} (hr : 1 ≤ r) :
    (∀ ts : List ℤ, ts.Pairwise (· ≤ ·) → (∀ t ∈ ts, 0 < t ∧ t < 2 ^ 63) → ∀ w : ℤ,
      ((((DoSThrottle.new r).admitted ts).filter (inWindow w)).length : ℤ) ≤ r) ↔
    r ∣ windowNs := by
  constructor
  · intro h
    by_contra hdvd
    obtain ⟨ts, hmono, hts, hlt⟩ := admitted_progression hr hdvd
    exact absurd (h ts hmono hts 1) (not_le.mpr hlt)
  · intro hdvd ts _ hts w
    exact length_filter_admitted_le hr hdvd (fun t ht => (hts t ht).1) w

/-- The rate of the throttle that the tests build. -/
theorem allowPacket_rate_million :
    (1000000 : ℤ) ∣ windowNs ∧
    ∀ ts : List ℤ, ts.Pairwise (· ≤ ·) → (∀ t ∈ ts, 0 < t ∧ t < 2 ^ 63) → ∀ w : ℤ,
      ((((DoSThrottle.new 1000000).admitted ts).filter (inWindow w)).length : ℤ) ≤ 1000000 :=
  ⟨by decide, (allowPacket_rate_iff (by decide)).mpr (by decide)⟩

/-- At three packets a second the interval is 333333333 ns, and four packets pass in less than a
second. -/
theorem allowPacket_exceeds :
    ¬ ∀ r : ℤ, 1 ≤ r → ∀ ts : List ℤ, ts.Pairwise (· ≤ ·) → (∀ t ∈ ts, 0 < t ∧ t < 2 ^ 63) →
      ∀ w : ℤ, ((((DoSThrottle.new r).admitted ts).filter (inWindow w)).length : ℤ) ≤ r := by
  intro h
  exact absurd (h 3 (by decide) [1, 333333334, 666666667, 1000000000] (by decide) (by decide) 1)
    (by decide)

end SmipMwp.Crypto
