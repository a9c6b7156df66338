import SmipMwp.Foundations.RingBuffer
import SmipMwp.Foundations.Runs

/-!
# A ring buffer between two threads

One thread pushes and another pops, without a lock. A push loads the counters, stores its entries
slot by slot and publishes them by storing the producer's counter; a pop loads the counters, loads
the entries slot by slot and gives the slots back by storing the consumer's. A `Spsc` is a ring with
both in the middle of a call, and its steps are their single accesses, in any order.

A push stores only to slots behind the entries, and a pop loads only from slots ahead of them, so
neither sees the other half done: every access is a step of a bounded queue, to which a push appends
when it publishes and from which a pop takes when it stores its counter (`Spsc.Inv.queueStep`). What
is accepted over a run is what is popped and what is left, in order (`Spsc.contents_run`).

Nobody else writes a thread's own counter, so when it is loaded makes no difference; a call is begun
by the load of the other's.
-/

namespace SmipMwp

variable {α : Type*} {w : ℕ}

namespace RingBuffer

/-- The slots of `n` entries from that of a counter, in two chunks. -/
def indices (r : RingBuffer α w) (counter : BitVec w) (n : ℕ) : List ℕ :=
  let start := r.index counter
  let chunk₁ := min n (r.capacity - start)
  List.range' start chunk₁ ++ List.range' 0 (n - chunk₁)

variable {r r' : RingBuffer α w}

theorem length_indices (r : RingBuffer α w) (counter : BitVec w) (n : ℕ) :
    (r.indices counter n).length = n := by
  rw [indices, List.length_append, List.length_range', List.length_range']
  omega

theorem getElem?_indices (h : r.Wf) (counter : BitVec w) {n i : ℕ} (hn : n ≤ r.capacity)
    (hi : i < n) : (r.indices counter n)[i]? = some ((counter.toNat + i) % r.capacity) := by
  have hstart := h.index_lt counter
  have hmod := add_mod_eq_ite (a := counter.toNat) (show i < r.capacity by omega)
  rw [← h.index_eq] at hmod
  rw [indices, hmod, List.getElem?_append, List.length_range']
  by_cases hw : r.index counter + i < r.capacity
  · rw [if_pos (by omega), if_pos hw, List.getElem?_range' (by omega), Nat.one_mul]
  · rw [if_neg (by omega), if_neg hw, List.getElem?_range' (by omega), Nat.one_mul]
    congr 1
    omega

theorem indices_one (r : RingBuffer α w) (counter : BitVec w) :
    r.indices counter 1 = [r.index counter] := by
  have hindex : r.index counter ≤ r.capacity - 1 := Nat.and_le_right
  rcases Nat.eq_zero_or_pos r.capacity with hcap | hcap
  · have hzero : r.index counter = 0 := by omega
    simp only [indices, hcap, hzero]
    rfl
  · have hone : min 1 (r.capacity - r.index counter) = 1 := by omega
    simp only [indices, hone]
    rfl

theorem indices_congr (h : r'.capacity = r.capacity) (counter : BitVec w) (n : ℕ) :
    r'.indices counter n = r.indices counter n := by
  simp only [indices, index, h]

/-- Less than a turn apart, different positions have different slots. -/
theorem eq_of_add_mod_eq {a i j c : ℕ} (hi : i < c) (hj : j < c)
    (h : (a + i) % c = (a + j) % c) : i = j := by
  rw [add_mod_eq_ite hi, add_mod_eq_ite hj] at h
  split_ifs at h <;> omega

/-- The contents are those of the slots between the counters. -/
theorem contents_congr (h : r.Wf) (hprod : r'.prod = r.prod) (hcons : r'.cons = r.cons)
    (hcap : r'.capacity = r.capacity)
    (hslots : ∀ i < r.used, r'.slots[(r.cons.toNat + i) % r.capacity]? =
      r.slots[(r.cons.toNat + i) % r.capacity]?) : r'.Wf ∧ r'.contents = r.contents := by
  have hused : r'.used = r.used := by rw [used, used, hprod, hcons]
  have hwf : r'.Wf := ⟨by rw [hcap]; exact h.exists_capacity, by
    rw [hused, hcap]
    exact h.used_le⟩
  refine ⟨hwf, List.ext_getElem? fun i => ?_⟩
  rw [getElem?_contents hwf, getElem?_contents h, hused, hcons, hcap]
  split_ifs with hi
  · exact hslots i hi
  · rfl

/-- The slot that is `i` behind the entries holds none of them. -/
theorem slot_ne_of_lt (h : r.Wf) {i j : ℕ} (hi : i < r.used) (hj : r.used + j < r.capacity) :
    (r.cons.toNat + i) % r.capacity ≠ (r.prod.toNat + j) % r.capacity := by
  intro heq
  rw [r.prod_eq, h.toNat_add_mod] at heq
  have := eq_of_add_mod_eq (by omega) (by omega) heq
  omega

/-- A store behind the entries leaves them. -/
theorem contents_set (h : r.Wf) {j : ℕ} (hj : r.used + j < r.capacity) (x : α) :
    ({ r with slots := r.slots.set ((r.prod.toNat + j) % r.capacity) x } : RingBuffer α w).Wf ∧
      ({ r with slots := r.slots.set ((r.prod.toNat + j) % r.capacity) x } :
        RingBuffer α w).contents = r.contents := by
  refine contents_congr h rfl rfl List.length_set fun i hi => ?_
  exact List.getElem?_set_ne (slot_ne_of_lt h hi hj).symm

/-- Entries that are in the slots behind the others are published by moving the counter. -/
theorem contents_publish (h : r.Wf) {xs : List α} (hroom : r.used + xs.length ≤ r.capacity)
    (hslots : ∀ j < xs.length, r.slots[(r.prod.toNat + j) % r.capacity]? = xs[j]?) :
    ({ r with prod := r.prod + BitVec.ofNat w xs.length } : RingBuffer α w).Wf ∧
      ({ r with prod := r.prod + BitVec.ofNat w xs.length } : RingBuffer α w).contents =
        r.contents ++ xs := by
  set r' : RingBuffer α w := { r with prod := r.prod + BitVec.ofNat w xs.length }
  have hcap : r'.capacity = r.capacity := rfl
  have hused : r'.used = r.used + xs.length := used_push h hroom
  have hwf : r'.Wf := ⟨h.exists_capacity, by rw [hused, hcap]; exact hroom⟩
  refine ⟨hwf, List.ext_getElem? fun i => ?_⟩
  rw [getElem?_contents hwf, hused, hcap, List.getElem?_append, length_contents h,
    getElem?_contents h]
  change (if _ then r.slots[(r.cons.toNat + i) % r.capacity]? else none) = _
  by_cases hi : i < r.used
  · rw [if_pos (by omega), if_pos hi, if_pos hi]
  · rw [if_neg hi]
    by_cases hix : i < r.used + xs.length
    · have hslot := hslots (i - r.used) (by omega)
      rw [r.prod_eq, h.toNat_add_mod, Nat.add_sub_cancel' (Nat.le_of_not_lt hi)] at hslot
      rw [if_pos hix, hslot]
    · rw [if_neg hix, List.getElem?_eq_none (by omega)]

end RingBuffer

/-! ## The two threads -/

/-- Where the producer is: between calls, or with these entries of a push left to store, each with
its slot. -/
inductive Producer (α : Type*) (w : ℕ)
  | idle
  | storing (prod : BitVec w) (xs : List α) (rest : List (ℕ × α))

/-- Where the consumer is: between calls, or with these slots of a pop of `n` entries left to
load. -/
inductive Consumer (α : Type*) (w : ℕ)
  | idle
  | loading (cons : BitVec w) (n : ℕ) (rest : List ℕ) (got : List α)

structure Spsc (α : Type*) (w : ℕ) where
  ring : RingBuffer α w
  producer : Producer α w
  consumer : Consumer α w

/-- A thread begins a call, or goes on with it: a push takes as many of the entries as there are
slots left below its limit, a pop up to `max` of the entries there are. -/
inductive SpscEvent (α : Type*)
  | push (limit : ℕ) (xs : List α)
  | produce
  | pop (max : ℕ)
  | consume

namespace Spsc

def step (s : Spsc α w) : SpscEvent α → Spsc α w
  | .push limit xs =>
    match s.producer with
    | .idle =>
      let free := limit - s.ring.used
      if free = 0 then s
      else
        let xs := xs.take (min free xs.length)
        { s with
          producer := .storing s.ring.prod xs ((s.ring.indices s.ring.prod xs.length).zip xs) }
    | _ => s
  | .produce =>
    match s.producer with
    | .idle => s
    | .storing prod xs ((i, x) :: rest) =>
      { s with
        ring := { s.ring with slots := s.ring.slots.set i x }
        producer := .storing prod xs rest }
    | .storing prod xs [] =>
      { s with
        ring := { s.ring with prod := prod + BitVec.ofNat w xs.length }
        producer := .idle }
  | .pop max =>
    match s.consumer with
    | .idle =>
      let avail := s.ring.used
      if avail = 0 then s
      else
        let n := min avail max
        { s with consumer := .loading s.ring.cons n (s.ring.indices s.ring.cons n) [] }
    | _ => s
  | .consume =>
    match s.consumer with
    | .idle => s
    | .loading cons n (i :: rest) got =>
      { s with consumer := .loading cons n rest (got ++ s.ring.slots[i]?.toList) }
    | .loading cons n [] _ =>
      { s with
        ring := { s.ring with cons := cons + BitVec.ofNat w n }
        consumer := .idle }

/-- The entries of the push that returns. -/
def accepted (s : Spsc α w) : SpscEvent α → List α
  | .produce =>
    match s.producer with
    | .storing _ xs [] => xs
    | _ => []
  | _ => []

/-- What the pop that returns has got. -/
def popped (s : Spsc α w) : SpscEvent α → List α
  | .consume =>
    match s.consumer with
    | .loading _ _ [] got => got
    | _ => []
  | _ => []

/-! ## The queue they make -/

/-- A step of a queue of at most `cap` entries, with what it takes in and gives out. -/
inductive QueueStep (cap : ℕ) : List α → List α → List α → List α → Prop
  | stutter (q : List α) : QueueStep cap q [] [] q
  | enqueue (q xs : List α) (room : q.length + xs.length ≤ cap) :
    QueueStep cap q xs [] (q ++ xs)
  | dequeue (xs q : List α) : QueueStep cap (xs ++ q) [] xs q

theorem QueueStep.balance {cap : ℕ} {q xs ys q' : List α} (h : QueueStep cap q xs ys q') :
    q ++ xs = ys ++ q' := by
  cases h with
  | stutter => exact List.append_nil _
  | enqueue => rfl
  | dequeue => exact List.append_nil _

/-- The entries of the push fit in behind the others, and so many of them are in their slots. -/
def ProducerInv (r : RingBuffer α w) : Producer α w → Prop
  | .idle => True
  | .storing prod xs rest =>
    prod = r.prod ∧ r.used + xs.length ≤ r.capacity ∧
      ∃ k, rest = ((r.indices r.prod xs.length).zip xs).drop k ∧
        ∀ j < k, j < xs.length → r.slots[(r.prod.toNat + j) % r.capacity]? = xs[j]?

/-- The pop has loaded the first so many entries. -/
def ConsumerInv (r : RingBuffer α w) : Consumer α w → Prop
  | .idle => True
  | .loading cons n rest got =>
    cons = r.cons ∧ n ≤ r.used ∧
      ∃ k ≤ n, rest = (r.indices r.cons n).drop k ∧ got = r.contents.take k

structure Inv (s : Spsc α w) : Prop where
  wf : s.ring.Wf
  producer : ProducerInv s.ring s.producer
  consumer : ConsumerInv s.ring s.consumer

/-- There is room for what a push takes under its limit. -/
def Within (s : Spsc α w) : SpscEvent α → Prop
  | .push limit xs => s.ring.used + min (limit - s.ring.used) xs.length ≤ s.ring.capacity
  | _ => True

theorem within_of_le {s : Spsc α w} {limit : ℕ} (hwf : s.ring.Wf)
    (hlimit : limit ≤ s.ring.capacity) (xs : List α) : s.Within (.push limit xs) := by
  have hle := hwf.used_le
  rw [Within]
  omega

variable {s : Spsc α w}

namespace Inv

/-- A push begins. -/
theorem push (h : s.Inv) {limit : ℕ} {xs : List α} (hwithin : s.Within (.push limit xs)) :
    (s.step (.push limit xs)).Inv ∧ (s.step (.push limit xs)).ring = s.ring := by
  simp only [step]
  cases hp : s.producer with
  | storing prod xs rest => exact ⟨h, rfl⟩
  | idle =>
    simp only
    split_ifs with hfree
    · exact ⟨h, rfl⟩
    · refine ⟨⟨h.wf, ⟨rfl, ?_, 0, rfl, fun j hj => absurd hj (Nat.not_lt_zero j)⟩, h.consumer⟩,
        rfl⟩
      change s.ring.used + (xs.take _).length ≤ s.ring.capacity
      rw [Within] at hwithin
      rw [List.length_take]
      omega

/-- A pop begins. -/
theorem pop (h : s.Inv) (max : ℕ) :
    (s.step (.pop max)).Inv ∧ (s.step (.pop max)).ring = s.ring := by
  simp only [step]
  cases hc : s.consumer with
  | loading cons n rest got => exact ⟨h, rfl⟩
  | idle =>
    simp only
    split_ifs with havail
    · exact ⟨h, rfl⟩
    · exact ⟨⟨h.wf, h.producer, ⟨rfl, Nat.min_le_left _ _, 0, Nat.zero_le _, rfl, rfl⟩⟩, rfl⟩

/-- An entry is stored: nothing of it is seen. -/
theorem store (h : s.Inv) {prod : BitVec w} {xs : List α} {i : ℕ} {x : α} {rest : List (ℕ × α)}
    (hp : s.producer = .storing prod xs ((i, x) :: rest)) :
    (s.step .produce).Inv ∧ (s.step .produce).ring.capacity = s.ring.capacity ∧
      (s.step .produce).ring.contents = s.ring.contents := by
  have hinv := h.producer
  rw [hp] at hinv
  obtain ⟨hprod, hroom, k, hrest, hstored⟩ := hinv
  have hk : k < xs.length := by
    have hlen := congrArg List.length hrest
    rw [List.length_cons, List.length_drop, List.length_zip, RingBuffer.length_indices] at hlen
    omega
  have hfirst := congrArg (fun l => l[0]?) hrest
  simp only [List.getElem?_cons_zero, List.getElem?_drop, Nat.add_zero, List.getElem?_zip_eq_some,
    eq_comm (a := some (i, x))] at hfirst
  obtain ⟨hi, hx⟩ := hfirst
  rw [RingBuffer.getElem?_indices h.wf _ (by omega) hk, Option.some.injEq] at hi
  subst hi
  obtain ⟨hwf, hcontents⟩ := RingBuffer.contents_set h.wf (j := k) (by omega) x
  simp only [step, hp]
  set r : RingBuffer α w :=
    { s.ring with slots := s.ring.slots.set ((s.ring.prod.toNat + k) % s.ring.capacity) x }
  have hcap : r.capacity = s.ring.capacity := List.length_set
  refine ⟨⟨hwf, ⟨hprod, ?_, k + 1, ?_, ?_⟩, ?_⟩, hcap, hcontents⟩
  · rw [hcap]
    exact hroom
  · rw [RingBuffer.indices_congr hcap, ← List.drop_drop, ← hrest]
    rfl
  · intro j hj hjx
    rw [hcap]
    rcases Nat.lt_succ_iff_lt_or_eq.mp hj with hlt | rfl
    · have hne : (s.ring.prod.toNat + k) % s.ring.capacity ≠
          (s.ring.prod.toNat + j) % s.ring.capacity := fun heq =>
        hlt.ne (RingBuffer.eq_of_add_mod_eq (by omega) (by omega) heq.symm)
      exact (List.getElem?_set_ne hne).trans (hstored j hlt hjx)
    · rw [hx]
      exact List.getElem?_set_self (Nat.mod_lt _ h.wf.capacity_pos)
  · have hcons := h.consumer
    cases hc : s.consumer with
    | idle => trivial
    | loading cons n rest got =>
      rw [hc] at hcons
      simp only [ConsumerInv, RingBuffer.indices_congr hcap, hcontents]
      exact hcons

/-- The entries are published: the queue takes them in. -/
theorem publish (h : s.Inv) {prod : BitVec w} {xs : List α}
    (hp : s.producer = .storing prod xs []) :
    (s.step .produce).Inv ∧ (s.step .produce).ring.capacity = s.ring.capacity ∧
      s.ring.contents.length + xs.length ≤ s.ring.capacity ∧
      (s.step .produce).ring.contents = s.ring.contents ++ xs := by
  have hinv := h.producer
  rw [hp] at hinv
  obtain ⟨rfl, hroom, k, hrest, hstored⟩ := hinv
  have hk : xs.length ≤ k := by
    have hlen := congrArg List.length hrest
    rw [List.length_nil, List.length_drop, List.length_zip, RingBuffer.length_indices] at hlen
    omega
  obtain ⟨hwf, hcontents⟩ := RingBuffer.contents_publish h.wf hroom
    fun j hj => hstored j (by omega) hj
  have hused : ({ s.ring with prod := s.ring.prod + BitVec.ofNat w xs.length } :
      RingBuffer α w).used = s.ring.used + xs.length := RingBuffer.used_push h.wf hroom
  simp only [step, hp]
  refine ⟨⟨hwf, trivial, ?_⟩, rfl, ?_, hcontents⟩
  · have hcons := h.consumer
    cases hc : s.consumer with
    | idle => trivial
    | loading cons n rest got =>
      rw [hc] at hcons
      obtain ⟨hcons, hn, j, hj, hrest, hgot⟩ := hcons
      refine ⟨hcons, by rw [hused]; omega, j, hj, hrest, ?_⟩
      rw [hcontents, List.take_append_of_le_length]
      · exact hgot
      · rw [RingBuffer.length_contents h.wf]
        omega
  · rw [RingBuffer.length_contents h.wf]
    exact hroom

/-- An entry is loaded. -/
theorem load (h : s.Inv) {cons : BitVec w} {n i : ℕ} {rest : List ℕ} {got : List α}
    (hc : s.consumer = .loading cons n (i :: rest) got) :
    (s.step .consume).Inv ∧ (s.step .consume).ring = s.ring := by
  have hinv := h.consumer
  rw [hc] at hinv
  obtain ⟨hcons, hn, k, hk, hrest, rfl⟩ := hinv
  have hle := h.wf.used_le
  have hkn : k < n := by
    have hlen := congrArg List.length hrest
    rw [List.length_cons, List.length_drop, RingBuffer.length_indices] at hlen
    omega
  have hfirst := congrArg (fun l => l[0]?) hrest
  simp only [List.getElem?_cons_zero, List.getElem?_drop, Nat.add_zero] at hfirst
  rw [RingBuffer.getElem?_indices h.wf _ (by omega) hkn, Option.some.injEq] at hfirst
  have hentry : s.ring.slots[i]? = s.ring.contents[k]? := by
    rw [RingBuffer.getElem?_contents h.wf, if_pos (by omega), hfirst]
  simp only [step, hc]
  refine ⟨⟨h.wf, h.producer, ⟨hcons, hn, k + 1, hkn, ?_, ?_⟩⟩, trivial⟩
  · rw [← List.drop_drop, ← hrest]
    rfl
  · rw [hentry, List.take_add_one]

/-- A pop that is through has loaded the first entries. -/
theorem loaded (h : s.Inv) {cons : BitVec w} {n : ℕ} {got : List α}
    (hc : s.consumer = .loading cons n [] got) :
    cons = s.ring.cons ∧ n ≤ s.ring.used ∧ got = s.ring.contents.take n := by
  have hinv := h.consumer
  rw [hc] at hinv
  obtain ⟨hcons, hn, k, hk, hrest, hgot⟩ := hinv
  have hkn : k = n := by
    have hlen := congrArg List.length hrest
    rw [List.length_nil, List.length_drop, RingBuffer.length_indices] at hlen
    omega
  rw [hkn] at hgot
  exact ⟨hcons, hn, hgot⟩

/-- The slots are given back: the queue gives out what was loaded. -/
theorem release (h : s.Inv) {cons : BitVec w} {n : ℕ} {got : List α}
    (hc : s.consumer = .loading cons n [] got) :
    (s.step .consume).Inv ∧ (s.step .consume).ring.capacity = s.ring.capacity ∧
      s.ring.contents = got ++ (s.step .consume).ring.contents := by
  obtain ⟨rfl, hn, rfl⟩ := h.loaded hc
  have hcontents := RingBuffer.contents_pop h.wf hn
  have hused := RingBuffer.used_pop h.wf hn
  simp only [step, hc]
  refine ⟨⟨h.wf.pop hn, ?_, trivial⟩, rfl, ?_⟩
  · have hprod := h.producer
    cases hp : s.producer with
    | idle => trivial
    | storing prod xs rest =>
      rw [hp] at hprod
      obtain ⟨hprod, hroom, j, hrest, hstored⟩ := hprod
      refine ⟨hprod, ?_, j, hrest, hstored⟩
      change (s.ring.pop n).2.used + xs.length ≤ s.ring.capacity
      rw [hused]
      omega
  · change s.ring.contents = s.ring.contents.take n ++ (s.ring.pop n).2.contents
    rw [hcontents, List.take_append_drop]

/-- **Every access is a step of the queue.** -/
theorem queueStep (h : s.Inv) {e : SpscEvent α} (hwithin : s.Within e) :
    (s.step e).Inv ∧ (s.step e).ring.capacity = s.ring.capacity ∧
      QueueStep s.ring.capacity s.ring.contents (s.accepted e) (s.popped e)
        (s.step e).ring.contents := by
  cases e with
  | push limit xs =>
    obtain ⟨hinv, hring⟩ := h.push hwithin
    rw [hring]
    exact ⟨hinv, rfl, .stutter _⟩
  | pop max =>
    obtain ⟨hinv, hring⟩ := h.pop max
    rw [hring]
    exact ⟨hinv, rfl, .stutter _⟩
  | produce =>
    rcases hp : s.producer with _ | ⟨prod, xs, _ | ⟨⟨i, x⟩, rest⟩⟩
    · simp only [step, accepted, hp]
      exact ⟨h, trivial, .stutter _⟩
    · obtain ⟨hinv, hcap, hroom, hcontents⟩ := h.publish hp
      simp only [accepted, hp]
      rw [hcontents]
      exact ⟨hinv, hcap, .enqueue _ _ hroom⟩
    · obtain ⟨hinv, hcap, hcontents⟩ := h.store hp
      simp only [accepted, hp]
      rw [hcontents]
      exact ⟨hinv, hcap, .stutter _⟩
  | consume =>
    rcases hc : s.consumer with _ | ⟨cons, n, _ | ⟨i, rest⟩, got⟩
    · simp only [step, popped, hc]
      exact ⟨h, trivial, .stutter _⟩
    · obtain ⟨hinv, hcap, hcontents⟩ := h.release hc
      simp only [popped, hc]
      rw [hcontents]
      exact ⟨hinv, hcap, .dequeue _ _⟩
    · obtain ⟨hinv, hring⟩ := h.load hc
      simp only [popped, hc]
      rw [hring]
      exact ⟨hinv, rfl, .stutter _⟩

end Inv

/-- A ring on which no call is in progress. -/
theorem inv_quiet {r : RingBuffer α w} (h : r.Wf) : Inv ⟨r, .idle, .idle⟩ := ⟨h, trivial, trivial⟩

/-- **The balance of a run**: over any interleaving of the two threads, what is accepted is popped
or still in the ring, in order. -/
theorem contents_run (h : s.Inv) {events : List (SpscEvent α)}
    (hwithin : Along step Within s events) :
    (events.foldl step s).Inv ∧ s.ring.contents ++ runLog step accepted s events =
      runLog step popped s events ++ (events.foldl step s).ring.contents :=
  runLog_balance_along Inv (·.ring.contents)
    (fun _ _ h hwithin => ⟨(h.queueStep hwithin).1, (h.queueStep hwithin).2.2.balance⟩) h hwithin

/-! ## A call without the other thread -/

/-- The rest of a push, alone. -/
theorem foldl_produce {prod : BitVec w} {xs : List α} {rest : List (ℕ × α)}
    (hp : s.producer = .storing prod xs rest) {m : ℕ} (hm : rest.length = m) :
    (List.replicate (m + 1) SpscEvent.produce).foldl step s =
      { s with
        ring :=
          { s.ring with
            slots := rest.foldl (fun slots p => slots.set p.1 p.2) s.ring.slots
            prod := prod + BitVec.ofNat w xs.length }
        producer := .idle } := by
  subst hm
  induction rest generalizing s with
  | nil => simp only [List.length_nil, List.replicate_succ, List.replicate_zero, List.foldl_cons,
      List.foldl_nil, step, hp]
  | cons p rest ih =>
    rw [List.length_cons, List.replicate_succ, List.foldl_cons, List.foldl_cons]
    have hstep : (s.step .produce).producer = .storing prod xs rest := by
      simp only [step, hp]
    rw [ih hstep]
    simp only [step, hp]

/-- A push alone, if there is room below its limit. -/
theorem foldl_push (hp : s.producer = .idle) {limit : ℕ} (hfree : limit - s.ring.used ≠ 0)
    (xs : List α) {n : ℕ} (hn : n = min (limit - s.ring.used) xs.length) :
    (SpscEvent.push limit xs :: List.replicate (n + 1) .produce).foldl step s =
      { s with
        ring :=
          { s.ring with
            slots := ((s.ring.indices s.ring.prod n).zip (xs.take n)).foldl
              (fun slots p => slots.set p.1 p.2) s.ring.slots
            prod := s.ring.prod + BitVec.ofNat w n } } := by
  have hlen : (xs.take n).length = n := by
    rw [List.length_take]
    omega
  have hbegin : s.step (.push limit xs) =
      { s with
        producer := .storing s.ring.prod (xs.take n)
          ((s.ring.indices s.ring.prod n).zip (xs.take n)) } := by
    simp only [step, hp, hfree, if_false, ← hn, hlen]
  have hrest : ((s.ring.indices s.ring.prod n).zip (xs.take n)).length = n := by
    rw [List.length_zip, RingBuffer.length_indices, hlen, min_self]
  rw [List.foldl_cons, hbegin, foldl_produce rfl hrest, hlen, hp]

/-- The rest of a pop, alone. -/
theorem foldl_consume {cons : BitVec w} {n : ℕ} {rest : List ℕ} {got : List α}
    (hc : s.consumer = .loading cons n rest got) {m : ℕ} (hm : rest.length = m) :
    (List.replicate (m + 1) SpscEvent.consume).foldl step s =
        { s with
          ring := { s.ring with cons := cons + BitVec.ofNat w n }
          consumer := .idle } ∧
      runLog step popped s (List.replicate (m + 1) SpscEvent.consume) =
        got ++ rest.filterMap fun i => s.ring.slots[i]? := by
  subst hm
  induction rest generalizing s got with
  | nil =>
    rw [List.length_nil, List.replicate_one]
    simp only [List.foldl_cons, List.foldl_nil, runLog, step, popped, hc, List.filterMap_nil,
      List.append_nil, and_self]
  | cons i rest ih =>
    rw [List.length_cons, List.replicate_succ, List.foldl_cons, runLog]
    have hstep : (s.step .consume).consumer =
        .loading cons n rest (got ++ s.ring.slots[i]?.toList) := by
      simp only [step, hc]
    obtain ⟨hrun, hlog⟩ := ih hstep
    have hnone : s.popped .consume = [] := by simp only [popped, hc]
    have hring : (s.step .consume).ring = s.ring := by simp only [step, hc]
    rw [hrun, hlog, hnone, hring]
    refine ⟨by simp only [step, hc], ?_⟩
    rw [List.nil_append, List.append_assoc, List.filterMap_cons]
    cases s.ring.slots[i]? <;> rfl

/-- A pop alone, if there is anything to pop. -/
theorem foldl_pop (hc : s.consumer = .idle) (havail : s.ring.used ≠ 0) (max : ℕ)
    {n : ℕ} (hn : n = min s.ring.used max) :
    (SpscEvent.pop max :: List.replicate (n + 1) .consume).foldl step s =
        { s with ring := { s.ring with cons := s.ring.cons + BitVec.ofNat w n } } ∧
      runLog step popped s (SpscEvent.pop max :: List.replicate (n + 1) .consume) =
        (s.ring.indices s.ring.cons n).filterMap fun i => s.ring.slots[i]? := by
  have hbegin : s.step (.pop max) =
      { s with consumer := .loading s.ring.cons n (s.ring.indices s.ring.cons n) [] } := by
    simp only [step, hc, havail, if_false, ← hn]
  obtain ⟨hrun, hlog⟩ := foldl_consume
    (s := { s with consumer := .loading s.ring.cons n (s.ring.indices s.ring.cons n) [] }) rfl
    (s.ring.length_indices s.ring.cons n)
  rw [List.foldl_cons, runLog, hbegin, hrun, hlog, hc]
  exact ⟨rfl, rfl⟩

end Spsc

end SmipMwp
