import SmipMwp.Datapath.Nonces

/-!
# The counters of a call

Every path counts what it encrypts either in `LocalMetrics`, which `apply` commits, or in a variable
of its own, which the path commits itself; what a loop leaves there is what it has counted in its
statistics (`Counts.metered`, `Counts.kept`). The frames handled are committed by `apply`, by
`append_outputs` and at the end of a branch, and not every branch has exactly one of these:
`Commits` gives the number for each, and `countsOnce_exec_iff` the calls that count once.
-/

namespace SmipMwp.Datapath

open Crypto Routing Wire

/-! ## What the loops count -/

/-- The counts of a batch that its path commits, and the statistics they are counts of. -/
structure Counts where
  received : ℕ
  encrypted : ℕ
  handleCount : ℕ
  encryptCount : ℕ
  localEncCount : ℕ

namespace Counts

/-- So many packets encrypted, and counted in `metrics.encrypt_count`. -/
def metered (c : Counts) (n : ℕ) : Counts :=
  { c with encrypted := c.encrypted + n, encryptCount := c.encryptCount + n }

/-- So many packets encrypted, and counted in the variable of the path. -/
def kept (c : Counts) (n : ℕ) : Counts :=
  { c with encrypted := c.encrypted + n, localEncCount := c.localEncCount + n }

theorem metered_metered (c : Counts) (m n : ℕ) : (c.metered m).metered n = c.metered (m + n) := by
  simp only [metered, Nat.add_assoc]

theorem kept_kept (c : Counts) (m n : ℕ) : (c.kept m).kept n = c.kept (m + n) := by
  simp only [kept, Nat.add_assoc]

end Counts

namespace Batch

def counts (s : Batch) : Counts where
  received := s.stats.received
  encrypted := s.stats.encrypted
  handleCount := s.metrics.handleCount
  encryptCount := s.metrics.encryptCount
  localEncCount := s.metrics.localEncCount

theorem counts_sealAt {s t : Batch} {S : HybridSession} {start len : ℕ} {seqNum : UInt64}
    {r : Except SessionError Tag} (h : s.sealAt S start len seqNum = (t, r)) :
    t.counts = s.counts := by
  unfold sealAt at h
  rcases hseal : sealRecorded S (s.arena.load start len) seqNum with ⟨_ | ⟨ct, tag⟩, seals⟩ <;>
    simp only [hseal, Prod.mk.injEq] at h <;> rw [← h.1] <;> rfl

/-- A loop whose steps each encrypt a number of packets encrypts a number of packets. -/
theorem counts_foldl {α : Type*} {step : Batch → α → Batch} {add : Counts → ℕ → Counts}
    (hzero : ∀ c, add c 0 = c) (hadd : ∀ c m n, add (add c m) n = add c (m + n))
    (hstep : ∀ s a, ∃ n, (step s a).counts = add s.counts n) (l : List α) (s : Batch) :
    ∃ n, (l.foldl step s).counts = add s.counts n := by
  induction l generalizing s with
  | nil => exact ⟨0, (hzero _).symm⟩
  | cons a l ih =>
    obtain ⟨m, hm⟩ := hstep s a
    obtain ⟨n, hn⟩ := ih (step s a)
    exact ⟨m + n, by rw [List.foldl_cons, hn, hm, hadd]⟩

end Batch

section Steps

variable (routes : Table) (session : Option HybridSession)

theorem counts_lookupRoute {routes : Table} {s t : Batch} {h : HeaderViewRef} {hit : Bool}
    (hlookup : lookupRoute routes s h = (t, hit)) : t.counts = s.counts := by
  unfold lookupRoute at hlookup
  split_ifs at hlookup <;> obtain ⟨rfl, -⟩ := Prod.mk.inj hlookup <;> rfl

theorem counts_handlePacket (s : Batch) (pkt : Bytes) :
    ∃ n, (handlePacket routes session s pkt).1.counts = s.counts.metered n := by
  unfold handlePacket
  cases HeaderViewRef.new pkt with
  | error _ => exact ⟨0, rfl⟩
  | ok h =>
    simp only
    rcases hlookup : lookupRoute routes s h with ⟨t, _ | _⟩
    · exact ⟨0, counts_lookupRoute hlookup⟩
    · replace hlookup := counts_lookupRoute hlookup
      rcases session with _ | S
      · exact ⟨0, hlookup⟩
      · simp only
        split_ifs
        · rcases hseal : (t.append (pkt.take (headerSize + h.length.toNat))).sealAt S
            (t.arena.len + headerSize) h.length.toNat h.seqNum with ⟨u, _ | tag⟩
          · exact ⟨0, (Batch.counts_sealAt hseal).trans hlookup⟩
          · exact ⟨1, congrArg (Counts.metered · 1) ((Batch.counts_sealAt hseal).trans hlookup)⟩
        · exact ⟨0, hlookup⟩
        · exact ⟨0, hlookup⟩

theorem counts_serialStep (s : Batch) (pkt : Bytes) :
    ∃ n, (serialStep routes session s pkt).counts = s.counts.metered n := by
  obtain ⟨n, hn⟩ := counts_handlePacket routes session s pkt
  unfold serialStep
  generalize handlePacket routes session s pkt = r at hn ⊢
  obtain ⟨t, _ | _⟩ := r
  · exact ⟨n, hn⟩
  · exact ⟨n, hn⟩

theorem counts_appendStep (s : Batch) (out : Bytes × PacketOutput × List SealCall) :
    ∃ n, (appendStep s out).counts = s.counts.kept n := by
  obtain ⟨frame, output, seals⟩ := out
  unfold appendStep
  simp only
  split_ifs
  · exact ⟨1, rfl⟩
  · exact ⟨0, rfl⟩
  · exact ⟨1, rfl⟩
  · exact ⟨0, rfl⟩

theorem counts_primaryStep (s : Batch) (pkt : Bytes) :
    ∃ n, (primaryStep routes session s pkt).counts = s.counts.metered n := by
  unfold primaryStep
  cases HeaderViewRef.new pkt with
  | error _ => exact ⟨0, rfl⟩
  | ok h =>
    simp only
    cases routes.lookupSprayPrimary h.dstId h.flowLabel with
    | none => exact ⟨0, rfl⟩
    | some nextHop =>
      simp only
      by_cases hlen : headerSize + h.length.toNat ≤ pkt.length ∧ 0 < h.length.toNat
      · simp only [if_pos hlen]
        cases session with
        | none => exact ⟨0, rfl⟩
        | some S =>
          simp only
          generalize hseal : Batch.sealAt _ S _ _ _ = r
          obtain ⟨u, _ | tag⟩ := r
          · have hu := Batch.counts_sealAt hseal
            exact ⟨0, hu⟩
          · have hu := congrArg (Counts.metered · 1) (Batch.counts_sealAt hseal)
            simp only [Bool.false_eq_true, if_false, if_true]
            split_ifs
            · exact ⟨1, hu⟩
            · exact ⟨1, hu⟩
      · simp only [if_neg hlen, Bool.false_eq_true, if_false]
        split_ifs
        · exact ⟨0, rfl⟩
        · exact ⟨0, rfl⟩

/-- A copy of the full spray counts its encryption in the variable of the path. -/
theorem counts_sprayCopy (h : HeaderViewRef) (pkt : Bytes) (s : Batch) (nh : Option Id) :
    ∃ n, (sprayCopy routes session h pkt s nh).counts = s.counts.kept n := by
  unfold sprayCopy
  cases (routes.lookupOrPredict h.srcId (nh.getD h.dstId) h.flowLabel).isSome with
  | false => exact ⟨0, by cases nh <;> rfl⟩
  | true =>
    simp only [if_true]
    cases session with
    | none => exact ⟨0, by cases nh <;> rfl⟩
    | some S =>
      simp only
      by_cases hlen : headerSize + h.length.toNat ≤ pkt.length ∧ 0 < h.length.toNat
      · simp only [if_pos hlen]
        generalize hseal : Batch.sealAt _ S _ _ _ = r
        obtain ⟨u, _ | tag⟩ := r
        · have hu : u.counts = s.counts := (Batch.counts_sealAt hseal).trans (by cases nh <;> rfl)
          exact ⟨0, by cases nh <;> exact hu⟩
        · have hu : u.counts = s.counts := (Batch.counts_sealAt hseal).trans (by cases nh <;> rfl)
          replace hu := congrArg (Counts.kept · 1) hu
          simp only [Bool.false_eq_true, if_false, if_true]
          split_ifs
          · exact ⟨1, hu⟩
          · exact ⟨1, hu⟩
      · simp only [if_neg hlen, Bool.false_eq_true, if_false]
        split_ifs
        · exact ⟨0, by cases nh <;> rfl⟩
        · exact ⟨0, by cases nh <;> rfl⟩

theorem counts_sprayStep (s : Batch) (pkt : Bytes) :
    ∃ n, (sprayStep routes session s pkt).counts = s.counts.kept n := by
  unfold sprayStep
  cases HeaderViewRef.new pkt with
  | error _ => exact ⟨0, rfl⟩
  | ok h =>
    simp only
    split_ifs
    · exact counts_sprayCopy routes session h pkt _ none
    · exact Batch.counts_foldl (fun _ => rfl) Counts.kept_kept
        (counts_sprayCopy routes session h pkt) _ _

end Steps

/-! ## What a call commits -/

theorem uint64_ofNat_zero : UInt64.ofNat 0 = 0 := rfl

/-- The call has received the frames, counted them `times` times as handled, and counted once what
it encrypted and what it received. -/
structure BatchRun.Commits (r : BatchRun) (g : Telemetry) (received times : ℕ) : Prop where
  received_eq : r.stats.received = received
  handled : r.telemetry.handleCount = g.handleCount + UInt64.ofNat (times * received)
  encrypted : r.telemetry.encryptCount = g.encryptCount + UInt64.ofNat r.stats.encrypted
  processed : r.telemetry.packetsProcessed = g.packetsProcessed + UInt64.ofNat received

/-- **Each packet is counted once.** -/
structure BatchRun.CountsOnce (r : BatchRun) (g : Telemetry) : Prop where
  handled : r.telemetry.handleCount = g.handleCount + UInt64.ofNat r.stats.received
  encrypted : r.telemetry.encryptCount = g.encryptCount + UInt64.ofNat r.stats.encrypted
  processed : r.telemetry.packetsProcessed = g.packetsProcessed + UInt64.ofNat r.stats.received

theorem BatchRun.Commits.countsOnce_iff {r : BatchRun} {g : Telemetry} {received times : ℕ}
    (h : r.Commits g received times) :
    r.CountsOnce g ↔ UInt64.ofNat (times * received) = UInt64.ofNat received := by
  constructor
  · intro honce
    have hhandled := honce.handled
    rw [h.handled, h.received_eq] at hhandled
    exact (UInt64.add_right_inj _).mp hhandled
  · intro heq
    refine ⟨?_, h.encrypted, ?_⟩
    · rw [h.handled, h.received_eq, heq]
    · rw [h.processed, h.received_eq]

theorem ofNat_eq_zero_iff_dvd (n : ℕ) : UInt64.ofNat n = 0 ↔ 2 ^ 64 ∣ n := by
  rw [← UInt64.toNat_inj, UInt64.toNat_ofNat', Nat.dvd_iff_mod_eq_zero]
  rfl

theorem BatchRun.Commits.countsOnce {r : BatchRun} {g : Telemetry} {received : ℕ}
    (h : r.Commits g received 1) : r.CountsOnce g :=
  h.countsOnce_iff.mpr (by rw [Nat.one_mul])

/-- What counts twice or not at all counts once only if there is nothing to count. -/
theorem BatchRun.Commits.countsOnce_iff_dvd {r : BatchRun} {g : Telemetry} {received times : ℕ}
    (h : r.Commits g received times) (htimes : times = 2 ∨ times = 0) :
    r.CountsOnce g ↔ 2 ^ 64 ∣ received := by
  rw [h.countsOnce_iff, ← ofNat_eq_zero_iff_dvd]
  rcases htimes with rfl | rfl
  · rw [Nat.two_mul, UInt64.ofNat_add]
    exact UInt64.add_eq_right
  · rw [Nat.zero_mul]
    exact eq_comm

namespace Forwarder

variable (f : Forwarder) (g : Telemetry)

theorem commits_idle (times : ℕ) : (f.idle g).Commits g 0 times where
  received_eq := rfl
  handled := by
    rw [Nat.mul_zero]
    exact (UInt64.add_zero _).symm
  encrypted := (UInt64.add_zero _).symm
  processed := (UInt64.add_zero _).symm

/-- A batch that has encrypted `n` packets and leaves the counting to `apply`. -/
theorem commits_of_metered {s t : Batch} {received n : ℕ}
    (hs : s.counts = ⟨received, n, 0, n, 0⟩)
    (ht : t = s.meter fun m => { m with handleCount := m.handleCount + received }) :
    (f.finish (g.apply t.metrics) t).Commits g received 1 := by
  subst ht
  obtain ⟨hreceived, hencrypted, hhandle, hencrypt, -⟩ := (Counts.mk.injEq ..).mp hs
  constructor
  case received_eq => exact hreceived
  case handled =>
    simp only [finish, Telemetry.addProcessed, Telemetry.apply, Batch.meter, hhandle, Nat.zero_add,
      Nat.one_mul]
  case encrypted =>
    simp only [finish, Telemetry.addProcessed, Telemetry.apply, Batch.meter, hencrypt, hencrypted]
  case processed =>
    simp only [finish, Telemetry.addProcessed, Telemetry.apply, Batch.meter, hreceived]

/-- The serial branch of `process_batch`. -/
theorem commits_processSerial (frames : List Bytes) :
    (f.processSerial g frames).Commits g frames.length 1 := by
  obtain ⟨n, hn⟩ := Batch.counts_foldl (fun _ => rfl) Counts.metered_metered
    (counts_serialStep f.routes f.session) frames
    (f.startBatch frames.length (batchBytes frames))
  refine f.commits_of_metered g (n := n) (hn.trans ?_) rfl
  simp only [Batch.counts, startBatch, Counts.metered, Nat.zero_add]

theorem commits_processPrimary (frames : List Bytes) :
    (f.processPrimary g (f.startMcr frames) frames).Commits g frames.length 1 := by
  obtain ⟨n, hn⟩ := Batch.counts_foldl (fun _ => rfl) Counts.metered_metered
    (counts_primaryStep f.routes f.session) frames (f.startMcr frames)
  refine Forwarder.commits_of_metered _ g (n := n) (hn.trans ?_) rfl
  simp only [Batch.counts, startMcr, startBatch, Counts.metered, Nat.zero_add]

/-- `append_outputs` counts the frames, and so does the branch that calls it. -/
theorem commits_processParallel (frames : List Bytes) :
    (f.processParallel g frames).Commits g frames.length 2 := by
  simp only [processParallel, appendOutputs]
  generalize frames.map (fun p => (p, processPacketOwned p f.routes f.session)) = outputs
  obtain ⟨n, hn⟩ := Batch.counts_foldl (fun _ => rfl) Counts.kept_kept counts_appendStep outputs
    (f.startBatch frames.length (outputs.map fun o => o.2.1.bytes.length).sum)
  have hs : _ = Counts.mk frames.length n 0 0 n := hn.trans
    (by simp only [Batch.counts, startBatch, Counts.kept, Nat.zero_add])
  obtain ⟨hreceived, hencrypted, hhandle, hencrypt, hlocal⟩ := (Counts.mk.injEq ..).mp hs
  have happend : ∀ g : Telemetry, (g.addAppend f.profileEnabled).handleCount = g.handleCount ∧
      (g.addAppend f.profileEnabled).encryptCount = g.encryptCount ∧
      (g.addAppend f.profileEnabled).packetsProcessed = g.packetsProcessed := by
    intro g
    unfold Telemetry.addAppend
    split_ifs <;> exact ⟨rfl, rfl, rfl⟩
  constructor
  case received_eq => exact hreceived
  case handled =>
    simp only [finish, Telemetry.addProcessed, Telemetry.addHandled, happend,
      Telemetry.addEncrypted, Telemetry.apply, hhandle, hreceived, Nat.two_mul, UInt64.ofNat_add,
      uint64_ofNat_zero, UInt64.add_zero, UInt64.add_assoc]
  case encrypted =>
    simp only [finish, Telemetry.addProcessed, Telemetry.addHandled, happend,
      Telemetry.addEncrypted, Telemetry.apply, hencrypt, hlocal, hencrypted, uint64_ofNat_zero,
      UInt64.add_zero]
  case processed =>
    simp only [finish, Telemetry.addProcessed, Telemetry.addHandled, happend,
      Telemetry.addEncrypted, Telemetry.apply, hreceived]

/-- The serial full spray counts the frames in the metrics, and again at its end. -/
theorem commits_processSpraySerial (frames : List Bytes) :
    (f.processSpraySerial g (f.startMcr frames) frames).Commits g frames.length 2 := by
  obtain ⟨n, hn⟩ := Batch.counts_foldl (fun _ => rfl) Counts.kept_kept
    (counts_sprayStep f.routes f.session) frames (f.startMcr frames)
  have hs : _ = Counts.mk frames.length n 0 0 n := hn.trans
    (by simp only [Batch.counts, startMcr, startBatch, Counts.kept, Nat.zero_add])
  obtain ⟨hreceived, hencrypted, hhandle, hencrypt, hlocal⟩ := (Counts.mk.injEq ..).mp hs
  constructor
  case received_eq => exact hreceived
  case handled =>
    simp only [processSpraySerial, finish, Telemetry.addProcessed, Telemetry.addHandled,
      Telemetry.addEncrypted, Telemetry.apply, Batch.meter, hhandle, hreceived, Nat.zero_add,
      Nat.two_mul, UInt64.ofNat_add, UInt64.add_assoc]
  case encrypted =>
    simp only [processSpraySerial, finish, Telemetry.addProcessed, Telemetry.addHandled,
      Telemetry.addEncrypted, Telemetry.apply, Batch.meter, hencrypt, hlocal, hencrypted,
      uint64_ofNat_zero, UInt64.add_zero]
  case processed =>
    simp only [processSpraySerial, finish, Telemetry.addProcessed, Telemetry.addHandled,
      Telemetry.addEncrypted, Telemetry.apply, Batch.meter, hreceived]

/-- The parallel full spray does not count them at all. -/
theorem commits_processSprayParallel (frames : List Bytes) :
    (f.processSprayParallel g (f.startMcr frames) frames).Commits g frames.length 0 := by
  simp only [processSprayParallel]
  generalize (frames.flatMap fun p => (duplicate f.routes p).map fun copy => (p, copy)).map
    (fun d => (d.1, processPacketOwnedConsuming d.2 f.routes f.session)) = outputs
  generalize hstart : ({ f.startMcr frames with arena := _ } : Batch) = start
  obtain ⟨n, hn⟩ := Batch.counts_foldl (fun _ => rfl) Counts.kept_kept counts_appendStep outputs
    start
  have hs : _ = Counts.mk frames.length n 0 0 n := hn.trans
    (by simp only [← hstart, Batch.counts, startMcr, startBatch, Counts.kept, Nat.zero_add])
  obtain ⟨hreceived, hencrypted, hhandle, hencrypt, hlocal⟩ := (Counts.mk.injEq ..).mp hs
  constructor
  case received_eq => exact hreceived
  case handled =>
    simp only [finish, Telemetry.addProcessed, Telemetry.addEncrypted, Nat.zero_mul,
      uint64_ofNat_zero, UInt64.add_zero]
  case encrypted =>
    simp only [finish, Telemetry.addProcessed, Telemetry.addEncrypted, hlocal, hencrypted]
  case processed =>
    simp only [finish, Telemetry.addProcessed, Telemetry.addEncrypted, hreceived]

theorem commits_processBatchMcr (threads : ℕ) (frames : List Bytes) :
    (f.processBatchMcr g threads frames).Commits g frames.length
      (if f.mcrSprayMode ≠ "full" then 1
        else if frames.length < parallelBatchThreshold ∨ threads ≤ 1 then 2 else 0) := by
  unfold processBatchMcr
  by_cases hempty : frames.isEmpty
  · rw [if_pos hempty, List.isEmpty_iff.mp hempty]
    exact f.commits_idle g _
  · rw [if_neg hempty]
    split_ifs
    · exact f.commits_processPrimary g frames
    · exact f.commits_processSpraySerial g frames
    · exact f.commits_processSprayParallel g frames

end Forwarder

/-- The frames that the socket's poll returned. -/
def BatchCall.frames : BatchCall → List Bytes
  | .processBatch _ frames => frames
  | .processBatchMcr _ frames => frames
  | .processBatchSprayFull _ frames => frames
  | .processBatchSlices _ frames => frames

namespace Forwarder

variable (f : Forwarder) (g : Telemetry)

/-- The call takes a path that counts the frames as handled once: the slice path, the serial branch
of `process_batch`, or a mode other than full. -/
def CommitsOnce : BatchCall → Prop
  | .processBatch threads frames =>
    if f.mcrEnabled then f.mcrSprayMode ≠ "full"
    else frames.length < parallelBatchThreshold ∨ threads ≤ 1
  | .processBatchMcr _ _ => f.mcrSprayMode ≠ "full"
  | .processBatchSprayFull _ _ => f.mcrSprayMode ≠ "full"
  | .processBatchSlices _ _ => True

theorem countsOnce_processBatchMcr_iff (threads : ℕ) (frames : List Bytes) :
    (f.processBatchMcr g threads frames).CountsOnce g ↔
      f.mcrSprayMode ≠ "full" ∨ 2 ^ 64 ∣ frames.length := by
  have h := f.commits_processBatchMcr g threads frames
  split_ifs at h with hmode hserial
  · exact iff_of_true h.countsOnce (Or.inl hmode)
  · rw [or_iff_right hmode]
    exact h.countsOnce_iff_dvd (Or.inl rfl)
  · rw [or_iff_right hmode]
    exact h.countsOnce_iff_dvd (Or.inr rfl)

theorem countsOnce_processBatch_iff (threads : ℕ) (frames : List Bytes) :
    (f.processBatch g threads frames).CountsOnce g ↔
      f.CommitsOnce (.processBatch threads frames) ∨ 2 ^ 64 ∣ frames.length := by
  unfold processBatch CommitsOnce
  split_ifs with hmcr hempty hserial
  · exact f.countsOnce_processBatchMcr_iff g threads frames
  · rw [List.isEmpty_iff.mp hempty]
    exact iff_of_true (f.commits_idle g 1).countsOnce (Or.inr (Nat.dvd_zero _))
  · exact iff_of_true (f.commits_processSerial g frames).countsOnce (Or.inl hserial)
  · rw [or_iff_right hserial]
    exact (f.commits_processParallel g frames).countsOnce_iff_dvd (Or.inl rfl)

/-- The slice path counts once, on every ring. -/
theorem countsOnce_processBatchSlices {ring : SliceRing} {frames : List Bytes}
    {r : BatchRun × SliceRing} (h : f.processBatchSlices g ring frames = some r) :
    r.1.CountsOnce g := by
  rcases le_or_gt frames.length ring.capacity with hle | hgt
  · rcases eq_or_ne frames [] with rfl | hne
    · rw [processBatchSlices_nil] at h
      rw [← Option.some.inj h]
      exact (commits_idle _ g 1).countsOnce
    · obtain ⟨ring', -, -, hr⟩ := f.processBatchSlices_eq_some g hle hne
      rw [hr] at h
      rw [← Option.some.inj h]
      exact (f.commits_processSerial g _).countsOnce
  · rw [f.processBatchSlices_eq_none g hgt] at h
    cases h

/-- **Telemetry counts each packet once exactly on** the paths that commit the handled frames once,
and where there are none to count. -/
theorem countsOnce_exec_iff (c : RunStep) :
    (f.exec g c).CountsOnce g ↔ f.CommitsOnce c.call ∨ 2 ^ 64 ∣ c.call.frames.length := by
  obtain ⟨routes, c⟩ := c
  cases c with
  | processBatch threads frames =>
    exact countsOnce_processBatch_iff { f with routes := routes } g threads frames
  | processBatchMcr threads frames =>
    exact countsOnce_processBatchMcr_iff { f with routes := routes } g threads frames
  | processBatchSprayFull threads frames =>
    exact countsOnce_processBatchMcr_iff { f with routes := routes } g threads frames
  | processBatchSlices ring frames =>
    refine iff_of_true ?_ (Or.inl trivial)
    simp only [exec]
    split
    · rename_i r _ h
      exact countsOnce_processBatchSlices { f with routes := routes } g h
    · exact (commits_idle _ g 1).countsOnce

end Forwarder

/-- In full mode a single packet is counted twice. -/
theorem not_countsOnce_exec :
    ¬ ((zeroForwarder [] true "full").exec {}
      ⟨(zeroForwarder [] true "full").routes, .processBatchMcr 1 [zeroPacket []]⟩).CountsOnce
        {} := by
  intro h
  rcases (Forwarder.countsOnce_processBatchMcr_iff _ {} 1 [zeroPacket []]).mp h with hmode | hdvd
  · exact hmode rfl
  · rw [List.length_singleton, Nat.dvd_one] at hdvd
    exact absurd hdvd (by norm_num)

end SmipMwp.Datapath
