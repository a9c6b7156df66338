import SmipMwp.AfXdp.Conservation

/-!
# The counters of a socket

`send` counts what becomes of its attempts: the frames it allocates and from where, the pushes that
were not taken whole, the frames that found no room on their way back, and the attempts it makes
again. Whatever the kernel does, the counters say how the calls went: `retry` counts the retries of
the calls, eight for each that failed and no more for any other, what `backpressure` counts more are
the calls that failed, and the two allocation counters together count the copies
(`counters_account`).

While every step fits, nothing falls back and nothing is dropped (`counters_of_fits`).
-/

namespace SmipMwp.AfXdp

/-! ## Counters -/

inductive SocketMetric
  | retry
  | backpressure
  | allocFromFreelist
  | allocFallback
  | freePushDrop
  deriving DecidableEq

structure SocketCounters where
  retry : UInt64 := 0
  backpressure : UInt64 := 0
  allocFromFreelist : UInt64 := 0
  allocFallback : UInt64 := 0
  freePushDrop : UInt64 := 0
  deriving DecidableEq

namespace SocketCounters

/-- `fetch_add(1)`, which wraps. -/
def bump (c : SocketCounters) : SocketMetric → SocketCounters
  | .retry => { c with retry := c.retry + 1 }
  | .backpressure => { c with backpressure := c.backpressure + 1 }
  | .allocFromFreelist => { c with allocFromFreelist := c.allocFromFreelist + 1 }
  | .allocFallback => { c with allocFallback := c.allocFallback + 1 }
  | .freePushDrop => { c with freePushDrop := c.freePushDrop + 1 }

def value (c : SocketCounters) : SocketMetric → UInt64
  | .retry => c.retry
  | .backpressure => c.backpressure
  | .allocFromFreelist => c.allocFromFreelist
  | .allocFallback => c.allocFallback
  | .freePushDrop => c.freePushDrop

theorem value_bump (c : SocketCounters) (m m' : SocketMetric) :
    (c.bump m).value m' = c.value m' + UInt64.ofNat ([m].count m') := by
  cases m <;> cases m' <;> first | rfl | exact (UInt64.add_zero _).symm

/-- **What is counted**: a counter has moved by as many as there are entries for it. -/
theorem value_foldl_bump (c : SocketCounters) (ms : List SocketMetric) (m : SocketMetric) :
    (ms.foldl bump c).value m = c.value m + UInt64.ofNat (ms.count m) := by
  induction ms generalizing c with
  | nil => exact (UInt64.add_zero _).symm
  | cons m' ms ih =>
    rw [List.foldl_cons, ih, value_bump, UInt64.add_assoc, ← UInt64.ofNat_add, ← List.count_append]
    rfl

end SocketCounters

/-- The pushes that fail when these are pushed one after the other. -/
def FreeList.dropped (f : FreeList) : List UInt64 → ℕ
  | [] => 0
  | v :: vs => (if (f.tryPush v).1 then 0 else 1) + (f.tryPush v).2.dropped vs

namespace System

/-- What the step counts. An allocation counts where the frame is from; the end of an attempt that
was not pushed whole counts the backpressure, the frames that the free list refuses, and the retry
if there is one. -/
def countedBy (s : System) : Event → List SocketMetric
  | .advance =>
    match s.sender with
    | .allocating _ _ (_ :: _) _ =>
      [if s.socket.freeList.tryPop.1.isSome then .allocFromFreelist else .allocFallback]
    | .allocating _ attempt [] addrs =>
      if (s.socket.ring.txPush addrs).1 = addrs.length then []
      else
        .backpressure ::
          (List.replicate (s.socket.freeList.dropped addrs) .freePushDrop ++
            if attempt = maxRetries then [] else [.retry])
    | _ => []
  | _ => []

/-- The result of the call that the step ends, and the retries that it has made: all attempts but
the first. -/
def returnedBy (s : System) : Event → List (Bool × ℕ)
  | .advance =>
    match s.sender with
    | .allocating _ attempt [] _ => s.advance.sender.result.toList.map fun ok => (ok, attempt)
    | _ => []
  | _ => []

end System

/-! ## Where a call is in its attempts -/

/-- The retries that the call in progress has made. -/
def Sender.retries : Sender → ℕ
  | .idle _ => 0
  | .reclaiming _ attempt | .allocating _ attempt _ _ => attempt

namespace System

/-- What has been counted, by the calls that have returned and the packets copied. -/
structure Accounts (s : System) (counted : List SocketMetric) (returned : List (Bool × ℕ))
    (copied : List ((ℕ × ℕ) × UInt64)) : Prop where
  retry : counted.count .retry = (returned.map Prod.snd).sum + s.sender.retries
  backpressure : counted.count .backpressure =
    counted.count .retry + (returned.map Prod.fst).count false
  allocated : counted.count .allocFromFreelist + counted.count .allocFallback = copied.length
  retries_le : s.sender.retries ≤ maxRetries
  calls : ∀ r ∈ returned, r.2 ≤ maxRetries ∧ (r.1 = false → r.2 = maxRetries)

namespace Accounts

variable {s : System} {counted : List SocketMetric} {returned : List (Bool × ℕ)}
  {copied : List ((ℕ × ℕ) × UInt64)}

/-- A step that neither counts nor ends a call. -/
theorem quiet (h : s.Accounts counted returned copied) {t : System}
    (hsame : t.sender.retries = s.sender.retries) :
    t.Accounts (counted ++ []) (returned ++ []) (copied ++ []) := by
  simp only [List.append_nil]
  exact ⟨hsame ▸ h.retry, h.backpressure, h.allocated, hsame ▸ h.retries_le, h.calls⟩

/-- A frame is allocated, and a packet copied to it. -/
theorem alloc (h : s.Accounts counted returned copied) {req : Request}
    {attempt off len : ℕ} {rest : List (ℕ × ℕ)} {addrs : List UInt64}
    (hs : s.sender = .allocating req attempt ((off, len) :: rest) addrs) :
    s.advance.Accounts (counted ++ s.countedBy .advance) (returned ++ [])
      (copied ++ s.copiedBy .advance) := by
  have hsame : s.advance.sender.retries = s.sender.retries := by
    rw [advance_alloc hs, hs]
    rfl
  obtain ⟨hretry, hback, halloc, hle, hcalls⟩ := h
  rw [← hsame] at hretry hle
  simp only [countedBy, copiedBy, hs, List.append_nil]
  split_ifs with hfree
  all_goals
    refine ⟨?_, ?_, ?_, hle, hcalls⟩
    all_goals simp only [List.count_append, List.length_append, List.length_singleton]
    · simpa using hretry
    · simpa using hback
    · simp
      omega

/-- An attempt ends: all is pushed, or the last attempt was made, or another follows. -/
theorem transmit (h : s.Accounts counted returned copied) {req : Request} {attempt : ℕ}
    {addrs : List UInt64} (hs : s.sender = .allocating req attempt [] addrs) :
    s.advance.Accounts (counted ++ s.countedBy .advance) (returned ++ s.returnedBy .advance)
      (copied ++ []) := by
  obtain ⟨hretry, hback, halloc, hle, hcalls⟩ := h
  simp only [hs, Sender.retries] at hretry hle
  have hsender := sender_transmit hs
  simp only [countedBy, returnedBy, hs, fst_txPush, hsender, List.append_nil]
  by_cases hall : min s.socket.ring.txFree addrs.length = addrs.length
  · -- All is pushed: the call returns `Ok`, and nothing is counted.
    simp only [hall, if_true] at hsender ⊢
    refine ⟨?_, ?_, by simpa using halloc, by simp [hsender, Sender.retries], ?_⟩
    · simpa [hsender, Sender.retries, Sender.result] using hretry
    · simpa [Sender.result] using hback
    · exact List.forall_mem_append.mpr ⟨hcalls, by simpa [Sender.result] using hle⟩
  · by_cases hlast : attempt = maxRetries
    · -- The ninth attempt: the call fails, with the backpressure of this one and no retry.
      simp only [hall, hlast, if_true, if_false] at hsender hretry ⊢
      refine ⟨?_, ?_, by simpa [List.count_replicate] using halloc,
        by simp [hsender, Sender.retries], ?_⟩
      · simpa [hsender, Sender.retries, Sender.result, List.count_replicate] using hretry
      · simp [Sender.result, List.count_replicate]
        omega
      · exact List.forall_mem_append.mpr ⟨hcalls, by simp [Sender.result]⟩
    · -- Another attempt follows, counted on both sides.
      simp only [hall, hlast, if_false] at hsender ⊢
      refine ⟨?_, ?_, by simpa [List.count_replicate] using halloc, ?_, ?_⟩
      · simp [hsender, Sender.retries, Sender.result, List.count_replicate]
        omega
      · simp [Sender.result, List.count_replicate]
        omega
      · rw [hsender]
        exact Nat.lt_of_le_of_ne hle hlast
      · simpa [Sender.result] using hcalls

theorem step (h : s.Accounts counted returned copied) (e : Event) :
    (s.step e).Accounts (counted ++ s.countedBy e) (returned ++ s.returnedBy e)
      (copied ++ s.copiedBy e) := by
  cases e with
  | send req =>
    refine h.quiet ?_
    rw [System.step]
    cases hs : s.sender with
    | idle result => rfl
    | reclaiming req' attempt => rw [hs]
    | allocating req' attempt rest addrs => rw [hs]
  | advance =>
    rcases hs : s.sender with result | ⟨req, attempt⟩ |
      ⟨req, attempt, _ | ⟨⟨off, len⟩, rest⟩, addrs⟩
    · have hquiet := h.quiet (t := s.advance) (by rw [advance_idle hs])
      simpa only [System.step, countedBy, returnedBy, copiedBy, hs] using hquiet
    · have hquiet := h.quiet (t := s.advance) (by rw [advance_reclaim hs, hs]; rfl)
      simpa only [System.step, countedBy, returnedBy, copiedBy, hs] using hquiet
    · have hend := h.transmit hs
      simpa only [System.step, copiedBy, hs] using hend
    · have hone := h.alloc hs
      simpa only [System.step, returnedBy, hs] using hone
  | consume =>
    refine h.quiet (congrArg Sender.retries (sender_step_of_ne_advance ?_ ?_))
    · rintro ⟨⟩
    · rintro req ⟨⟩
  | complete i =>
    refine h.quiet (congrArg Sender.retries (sender_step_of_ne_advance ?_ ?_))
    · rintro ⟨⟩
    · rintro req ⟨⟩

theorem run (h : s.Accounts counted returned copied) (events : List Event) :
    (events.foldl System.step s).Accounts (counted ++ runLog System.step countedBy s events)
      (returned ++ runLog System.step returnedBy s events)
      (copied ++ runLog System.step copiedBy s events) := by
  induction events generalizing s counted returned copied with
  | nil => exact h.quiet rfl
  | cons e events ih =>
    simpa only [runLog, List.foldl_cons, ← List.append_assoc] using ih (h.step e)

end Accounts

/-- The counters of a new socket after a run. -/
def counters (cfg : Config) (events : List Event) : SocketCounters :=
  (runLog step countedBy (new cfg) events).foldl SocketCounters.bump {}

theorem value_counters (cfg : Config) (events : List Event) (m : SocketMetric) :
    (counters cfg events).value m =
      UInt64.ofNat ((runLog step countedBy (new cfg) events).count m) := by
  have hzero : ({} : SocketCounters).value m = 0 := by cases m <;> rfl
  rw [counters, SocketCounters.value_foldl_bump, hzero, UInt64.zero_add]

end System

/-- **The counters account for the calls**: in every run, `retry` is the sum of the retries of the
calls that have returned and of the one in progress, `backpressure` exceeds it by the calls that
failed, and the allocations from either source are the packets copied, modulo `2 ^ 64`. A call that
failed has made eight retries, and no call makes more. -/
theorem counters_account (cfg : Config) (events : List Event) :
    let s := events.foldl System.step (System.new cfg)
    let c := System.counters cfg events
    let returned := runLog System.step System.returnedBy (System.new cfg) events
    let copied := runLog System.step System.copiedBy (System.new cfg) events
    c.retry = UInt64.ofNat ((returned.map Prod.snd).sum + s.sender.retries) ∧
      c.backpressure = c.retry + UInt64.ofNat ((returned.map Prod.fst).count false) ∧
      c.allocFromFreelist + c.allocFallback = UInt64.ofNat copied.length ∧
      s.sender.retries ≤ maxRetries ∧
      ∀ r ∈ returned, r.2 ≤ maxRetries ∧ (r.1 = false → r.2 = maxRetries) := by
  intro s c returned copied
  have hnew : (System.new cfg).Accounts [] [] [] := ⟨rfl, rfl, rfl, Nat.zero_le _, nofun⟩
  have hrun := hnew.run events
  simp only [List.nil_append] at hrun
  have hvalue := System.value_counters cfg events
  have hretry : c.retry = _ := hvalue .retry
  refine ⟨?_, ?_, ?_, hrun.retries_le, hrun.calls⟩
  · rw [hretry, hrun.retry]
  · have hback : c.backpressure = _ := hvalue .backpressure
    rw [hback, hrun.backpressure, UInt64.ofNat_add, ← hretry]
  · have hfree : c.allocFromFreelist = _ := hvalue .allocFromFreelist
    have hfall : c.allocFallback = _ := hvalue .allocFallback
    rw [hfree, hfall, ← UInt64.ofNat_add, hrun.allocated]

/-! ## While every step fits -/

/-- Where there is room for all, no push fails. -/
theorem FreeList.dropped_eq_zero {f : FreeList} (h : f.Wf) {vs : List UInt64}
    (hvs : f.ring.used + vs.length ≤ f.limit) : f.dropped vs = 0 := by
  induction vs generalizing f with
  | nil => rfl
  | cons v vs ih =>
    rw [List.length_cons] at hvs
    have hlt : f.ring.used < f.limit := by omega
    have hok : (f.tryPush v).1 = true := by rw [tryPush, if_neg (Nat.not_le.mpr hlt)]
    have hused : (f.tryPush v).2.ring.used = f.ring.used + 1 := by
      rw [tryPush_of_lt h v hlt]
      exact RingBuffer.used_push h.ring (h.room v hlt)
    have hrest := ih (h.tryPush v) (by rw [hused, limit_tryPush h]; omega)
    rw [dropped, hrest, hok]
    rfl

namespace System

variable {frames : List UInt64} {s : System}

/-- A step that fits allocates from the free list, and gives back what has room there. -/
theorem Conserved.countedBy (h : s.Conserved frames) {e : Event} (hfits : s.Fits e) :
    ∀ m ∈ s.countedBy e, m ≠ .allocFallback ∧ m ≠ .freePushDrop := by
  cases e with
  | advance =>
    rcases hs : s.sender with result | ⟨req, attempt⟩ |
      ⟨req, attempt, _ | ⟨⟨off, len⟩, rest⟩, addrs⟩
    · simp only [System.countedBy, hs]
      exact List.forall_mem_nil _
    · simp only [System.countedBy, hs]
      exact List.forall_mem_nil _
    · have hroom : s.socket.freeList.ring.used + addrs.length ≤ s.socket.freeList.limit := by
        have hlen := h.length_places
        have hhand : s.inHand = addrs := by simp only [inHand, hs]
        rw [hhand] at hlen
        have := h.room
        omega
      have hnone := FreeList.dropped_eq_zero h.wf.freeList hroom
      simp only [System.countedBy, hs, hnone, List.replicate_zero, List.nil_append]
      split_ifs
      all_goals simp
    · simp only [Fits, hs] at hfits
      have hsome : s.socket.freeList.tryPop.1 ≠ none :=
        fun hnone => hfits ((FreeList.tryPop_eq_none_iff h.wf.freeList.ring).mp hnone)
      simp only [System.countedBy, hs, Option.isSome_iff_ne_none.mpr hsome, if_true]
      simp
  | _ => exact List.forall_mem_nil _

end System

/-- **No fallback and no drop while every step fits**: the frames of every attempt are from the free
list, and all that are not pushed go back to it. -/
theorem counters_of_fits (cfg : Config) (hqueues : cfg.Queues) (events : List Event)
    (hfits : Along System.step System.Fits (System.new cfg) events) :
    (System.counters cfg events).allocFallback = 0 ∧
      (System.counters cfg events).freePushDrop = 0 := by
  have hnone := forall_mem_runLog_along (System.Conserved cfg.frames)
    (fun _ _ h hfits => ⟨h.step hfits, h.countedBy hfits⟩) (System.conserved_new hqueues) hfits
  have hfall := System.value_counters cfg events .allocFallback
  have hdrop := System.value_counters cfg events .freePushDrop
  rw [List.count_eq_zero.mpr fun hm => (hnone _ hm).1 rfl] at hfall
  rw [List.count_eq_zero.mpr fun hm => (hnone _ hm).2 rfl] at hdrop
  exact ⟨hfall, hdrop⟩

/-- A packet is sent and completed, and another is sent. -/
theorem counters_of_fits_twoPackets :
    (System.counters smallConfig (onePacket ++ onePacket)).allocFallback = 0 ∧
      (System.counters smallConfig (onePacket ++ onePacket)).freePushDrop = 0 :=
  counters_of_fits smallConfig ⟨⟨1, by decide, by decide⟩, ⟨1, by decide, by decide⟩⟩ _
    (by decide +kernel)

end SmipMwp.AfXdp
