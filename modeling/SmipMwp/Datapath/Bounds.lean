import SmipMwp.Datapath.Paths
import Mathlib.Algebra.Order.BigOperators.Group.List

/-!
# Arena bounds

Every path reserves once and then appends without a capacity check. For each, the appends are in
bounds exactly when the packets it sends fit the capacity after the reservation
(`BatchRun.Sends.inBounds_iff`). The paths with one output for a frame reserve enough for any batch,
and the parallel full spray reserves once more for its copies (`singleOutput_inBounds`). The serial
full spray reserves for three copies of every frame, while a route may have sixteen channels: its
appends are in bounds exactly when the copies fit (`processBatchMcr_inBounds_iff`).
-/

namespace SmipMwp.Datapath

open Crypto Routing Wire

/-- Of an arena that starts empty, the appends are in bounds exactly when what is sent fits. -/
theorem BatchRun.Sends.inBounds_iff {r : BatchRun} {received cap : ℕ} {es : List Emission}
    (h : r.Sends received cap es) :
    (∀ c ∈ r.trace.calls, c.IsAppend → c.InBounds) ↔ (payloadsOf es).length ≤ cap :=
  h.calls.inBounds_iff

/-- All calls, also those on a slice inside what has been written, are in bounds if what is sent
fits. -/
theorem BatchRun.Sends.forall_inBounds {r : BatchRun} {received cap : ℕ} {es : List Emission}
    (h : r.Sends received cap es) (hle : (payloadsOf es).length ≤ cap) :
    ∀ c ∈ r.trace.calls, c.InBounds := by
  intro c hc
  rw [ArenaCall.InBounds, h.calls.cap_eq c hc]
  exact (h.calls.stop_le c hc).trans hle

/-- **The run stays in the arena.** Otherwise the source has written past the allocation, and
nothing is said of what it sends. -/
def BatchRun.Defined (r : BatchRun) : Prop := ∀ c ∈ r.trace.calls, c.InBounds

instance BatchRun.decidableDefined (r : BatchRun) : Decidable r.Defined :=
  inferInstanceAs (Decidable (∀ c ∈ r.trace.calls, c.stop ≤ c.cap))

theorem BatchRun.Sends.defined_iff {r : BatchRun} {received cap : ℕ} {es : List Emission}
    (h : r.Sends received cap es) : r.Defined ↔ (payloadsOf es).length ≤ cap :=
  ⟨fun hd => h.inBounds_iff.mp fun c hc _ => hd c hc, h.forall_inBounds⟩

theorem length_payloadsOf_flatMap (em : Bytes → List Emission) (frames : List Bytes) :
    (payloadsOf (frames.flatMap em)).length =
      (frames.map fun p => (payloadsOf (em p)).length).sum := by
  induction frames with
  | nil => rfl
  | cons p frames ih =>
    rw [List.flatMap_cons, payloadsOf_append, List.length_append, ih, List.map_cons, List.sum_cons]

/-! ## The size of what is sent -/

section Sizes

variable (routes : Table) (session : Option HybridSession) (frame p : Bytes)

/-- The bytes a copy takes in the arena: its own, and a tag if it is encrypted. -/
def copyDemand : ℕ := p.length + if encrypts routes session p then tagSize else 0

theorem length_sealedPacket {p ct : Bytes} (tag : Tag) (trailing : Bytes)
    (hlen : headerSize + Packet.payloadLen p ≤ p.length) (hct : ct.length = Packet.payloadLen p) :
    (sealedPacket p ct tag trailing).length =
      headerSize + Packet.payloadLen p + tagSize + trailing.length := by
  simp only [sealedPacket, List.length_append, List.length_take, hct, Vector.length_toList, tagSize]
  omega

theorem length_emission_spray :
    (emission .spray routes session frame p).bytes.length = copyDemand routes session p := by
  rcases emission_cases .spray routes session frame p with ⟨henc, miss, he⟩ | ⟨henc, -, he⟩ |
    ⟨henc, S, ct, tag, -, -, hle, hok, he⟩
  · simp [he, copyDemand, henc, Emission.plain]
  · rw [he, copyDemand, henc]
    rfl
  · simp only [he, copyDemand, henc, if_true]
    rw [length_sealedPacket tag _ hle (length_ct hle hok), Layout.spray, List.length_drop]
    omega

/-- The bytes the serial full spray of a batch takes in the arena. -/
def sprayDemand (frames : List Bytes) : ℕ :=
  (frames.map fun p => ((duplicate routes p).map (copyDemand routes session)).sum).sum

theorem length_sprayEmissions (frames : List Bytes) :
    (payloadsOf (frames.flatMap (sprayEmissions routes session))).length =
      sprayDemand routes session frames := by
  rw [length_payloadsOf_flatMap, sprayDemand]
  congr 1
  refine List.map_congr_left fun p _ => ?_
  rw [sprayEmissions, payloadsOf, List.length_flatten, List.map_map, List.map_map]
  congr 1
  exact List.map_congr_left fun q _ => length_emission_spray routes session p q

end Sizes

/-! ## The serial full spray -/

section SerialSpray

variable (f : Forwarder) (g : Telemetry)

/-- `process_batch_mcr` on a batch that it full-sprays serially. -/
theorem Forwarder.processBatchMcr_eq_processSpraySerial {threads : ℕ} {frames : List Bytes}
    (hne : frames ≠ []) (hfull : f.mcrSprayMode = "full")
    (hserial : frames.length < parallelBatchThreshold ∨ threads ≤ 1) :
    f.processBatchMcr g threads frames = f.processSpraySerial g (f.startMcr frames) frames := by
  have hempty : ¬ frames.isEmpty = true := by simpa using hne
  rw [Forwarder.processBatchMcr, if_neg hempty, if_neg (not_not.mpr hfull), if_pos hserial]

/-- The single reservation of the full spray is for three copies of each frame. -/
theorem Forwarder.arena_startMcr (hfull : f.mcrSprayMode = "full") (frames : List Bytes) :
    (f.startMcr frames).arena = f.arena.clear.reserve (batchBytes frames * 3) := by
  rw [startMcr, sprayMultiplier, if_pos hfull, startBatch]

/-- The appends of the serial full spray are in bounds exactly when its copies fit. -/
theorem Forwarder.processSpraySerial_inBounds (frames : List Bytes) :
    (∀ c ∈ (f.processSpraySerial g (f.startMcr frames) frames).trace.calls,
        c.IsAppend → c.InBounds) ↔
      sprayDemand f.routes f.session frames ≤ (f.startMcr frames).arena.cap := by
  rw [(f.sends_processSpraySerial g (f.fresh_startMcr frames) frames).inBounds_iff,
    length_sprayEmissions]

/-- So the serial full spray is defined exactly when its copies fit. -/
theorem Forwarder.processSpraySerial_defined_iff (frames : List Bytes) :
    (f.processSpraySerial g (f.startMcr frames) frames).Defined ↔
      sprayDemand f.routes f.session frames ≤ (f.startMcr frames).arena.cap := by
  rw [(f.sends_processSpraySerial g (f.fresh_startMcr frames) frames).defined_iff,
    length_sprayEmissions]

/-- With at most three channels for every frame the reservation is enough. -/
theorem Forwarder.processSpraySerial_inBounds_of_le_three (hfull : f.mcrSprayMode = "full")
    {frames : List Bytes} (h3 : ∀ p ∈ frames, (duplicate f.routes p).length ≤ 3) :
    ∀ c ∈ (f.processSpraySerial g (f.startMcr frames) frames).trace.calls,
      c.IsAppend → c.InBounds := by
  rw [f.processSpraySerial_inBounds, f.arena_startMcr hfull]
  have hcap := f.arena.clear.le_cap_reserve (batchBytes frames * 3)
  rw [AlignedBuffer.len_clear, Nat.zero_add] at hcap
  refine le_trans ?_ hcap
  have hcopy : ∀ p ∈ frames, ((duplicate f.routes p).map (copyDemand f.routes f.session)).sum ≤
      3 * (p.length + tagSize) := fun p hp => by
    refine (List.sum_le_card_nsmul _ (p.length + tagSize) fun d hd => ?_).trans ?_
    · obtain ⟨q, hq, rfl⟩ := List.mem_map.mp hd
      rw [copyDemand, length_of_mem_duplicate hq]
      split_ifs <;> omega
    · rw [List.length_map, nsmul_eq_mul]
      exact Nat.mul_le_mul_right _ (h3 p hp)
  rw [sprayDemand, batchBytes]
  clear hcap h3
  induction frames with
  | nil => simp
  | cons p frames ih =>
    have hp := hcopy p List.mem_cons_self
    have ih := ih fun q hq => hcopy q (List.mem_cons_of_mem _ hq)
    simp only [List.map_cons, List.sum_cons, List.length_cons, Nat.succ_mul] at *
    omega

/-- **The serial full spray stays in the arena exactly when its copies fit the capacity reserved at
the start of the batch**: the frame once for every channel of its route, with a tag if the copy is
encrypted. -/
theorem Forwarder.processBatchMcr_inBounds_iff {threads : ℕ} {frames : List Bytes}
    (hne : frames ≠ []) (hfull : f.mcrSprayMode = "full")
    (hserial : frames.length < parallelBatchThreshold ∨ threads ≤ 1) :
    (∀ c ∈ (f.processBatchMcr g threads frames).trace.calls, c.IsAppend → c.InBounds) ↔
      sprayDemand f.routes f.session frames ≤ (f.startMcr frames).arena.cap := by
  rw [f.processBatchMcr_eq_processSpraySerial g hne hfull hserial]
  exact f.processSpraySerial_inBounds g frames

/-- Two packets that are encrypted and a frame without a header, on a route with three channels. -/
theorem processBatchMcr_inBounds_threeChannels :
    let f := zeroForwarder [Vector.replicate 32 2, Vector.replicate 32 3] true "full"
    let frames := [zeroPacket [], [1, 2, 3], zeroPacket [7]]
    frames ≠ [] ∧ f.mcrSprayMode = "full" ∧ frames.length < parallelBatchThreshold ∧
      sprayDemand f.routes f.session frames = 774 ∧
      ∀ c ∈ (f.processBatchMcr {} 1 frames).trace.calls, c.IsAppend → c.InBounds := by
  intro f frames
  have hdemand : sprayDemand f.routes f.session frames = 774 := by decide +kernel
  refine ⟨List.cons_ne_nil _ _, rfl, by decide, hdemand, ?_⟩
  refine (f.processBatchMcr_inBounds_iff {} (List.cons_ne_nil _ _) rfl (.inr le_rfl)).mpr ?_
  rw [hdemand]
  decide +kernel

end SerialSpray

/-! ## The single-output paths -/

/-- Sixteen bytes more than the frame for every frame fit what the single-output paths reserve. -/
theorem length_payloadsOf_le {em : Bytes → List Emission}
    (hem : ∀ p, (payloadsOf (em p)).length ≤ p.length + tagSize) (frames : List Bytes) :
    (payloadsOf (frames.flatMap em)).length ≤ Forwarder.batchBytes frames := by
  rw [length_payloadsOf_flatMap, Forwarder.batchBytes]
  induction frames with
  | nil => simp
  | cons p frames ih =>
    have := hem p
    simp only [List.map_cons, List.sum_cons, List.length_cons, Nat.succ_mul] at *
    omega

theorem length_serialEmissions_le (routes : Table) (session : Option HybridSession) (p : Bytes) :
    (payloadsOf (serialEmissions routes session p)).length ≤ p.length + tagSize := by
  simp only [serialEmissions, payloadsOf, List.map_singleton, List.flatten_singleton]
  rcases emission_cases .serial routes session p p with ⟨-, miss, he⟩ | ⟨-, -, he⟩ |
    ⟨-, S, ct, tag, -, -, hle, hok, he⟩ <;> rw [he]
  · exact Nat.le_add_right _ _
  · exact Nat.le_add_right _ _
  · rw [length_sealedPacket tag _ hle (length_ct hle hok), Layout.serial, List.length_nil]
    omega

theorem length_primaryEmissions_le (routes : Table) (session : Option HybridSession) (p : Bytes) :
    (payloadsOf (primaryEmissions routes session p)).length ≤ p.length + tagSize := by
  simp only [primaryEmissions, payloadsOf, List.map_singleton, List.flatten_singleton]
  rcases primaryEmission_cases routes session p with ⟨-, bytes, miss, hlen, he⟩ |
    ⟨-, nh, S, ct, tag, -, -, hle, hok, he⟩ <;> rw [he]
  · exact hlen.trans (Nat.le_add_right _ _)
  · have hp : headerSize ≤ p.length := (Nat.le_add_right _ _).trans hle
    have hct := length_ct hle hok
    simp only [sealedPacket, List.length_append, List.length_take, List.length_drop,
      length_redirected hp, hct, Vector.length_toList, tagSize]
    omega

section SingleOutput

variable (f : Forwarder) (g : Telemetry) (frames : List Bytes)

/-- The reservation is for what comes on top of an emptied arena. -/
theorem Forwarder.le_cap_startBatch (received additional : ℕ) :
    additional ≤ (f.startBatch received additional).arena.cap := by
  have hcap := f.arena.clear.le_cap_reserve additional
  rwa [AlignedBuffer.len_clear, Nat.zero_add] at hcap

/-- **The serial branch of `process_batch` stays in the arena**, whatever the batch. -/
theorem Forwarder.processSerial_inBounds :
    ∀ c ∈ (f.processSerial g frames).trace.calls, c.InBounds := by
  refine (f.sends_processSerial g frames).forall_inBounds ?_
  have hle := length_payloadsOf_le (length_serialEmissions_le f.routes f.session) frames
  exact hle.trans (f.le_cap_startBatch _ _)

/-- **The rayon branch of `process_batch` stays in the arena**: it reserves what it appends. -/
theorem Forwarder.processParallel_inBounds :
    ∀ c ∈ (f.processParallel g frames).trace.calls, c.InBounds :=
  (f.sends_processParallel g frames).forall_inBounds (f.le_cap_startBatch _ _)

/-- **The primary branch of `process_batch_mcr` stays in the arena**, whatever the batch. -/
theorem Forwarder.processPrimary_inBounds :
    ∀ c ∈ (f.processPrimary g (f.startMcr frames) frames).trace.calls, c.InBounds := by
  refine (f.sends_processPrimary g (f.fresh_startMcr frames) frames).forall_inBounds ?_
  have hle := length_payloadsOf_le (length_primaryEmissions_le f.routes f.session) frames
  have hmul : batchBytes frames ≤ batchBytes frames * f.sprayMultiplier :=
    Nat.le_mul_of_pos_right _ (by unfold sprayMultiplier; split_ifs <;> decide)
  exact hle.trans (hmul.trans (f.le_cap_startBatch _ _))

/-- **The append loop of the parallel full spray stays in the arena**: before it, a second
reservation makes room for all the copies. -/
theorem Forwarder.processSprayParallel_inBounds :
    ∀ c ∈ (f.processSprayParallel g (f.startMcr frames) frames).trace.calls, c.InBounds := by
  refine (f.sends_processSprayParallel g (f.fresh_startMcr frames) frames).forall_inBounds ?_
  have hcap := (f.startMcr frames).arena.le_cap_reserve
    (payloadsOf (frames.flatMap (sprayOwnedEmissions f.routes f.session))).length
  rwa [(f.fresh_startMcr frames).len, Nat.zero_add] at hcap

/-- **The slice path stays in the arena**, whatever the ring held before. -/
theorem Forwarder.processBatchSlices_inBounds {ring : SliceRing} {r : BatchRun × SliceRing}
    (hr : f.processBatchSlices g ring frames = some r) : ∀ c ∈ r.1.trace.calls, c.InBounds := by
  rcases Nat.lt_or_ge ring.capacity frames.length with hgt | hle
  · rw [f.processBatchSlices_eq_none g hgt] at hr
    cases hr
  rcases eq_or_ne frames [] with rfl | hne
  · rw [f.processBatchSlices_nil] at hr
    obtain rfl := Option.some.inj hr
    exact fun c hc => absurd hc List.not_mem_nil
  · obtain ⟨r', hr', hsends⟩ := f.sends_processBatchSlices g hle hne
    obtain rfl := Option.some.inj (hr.symm.trans hr')
    refine hsends.forall_inBounds ?_
    exact (length_payloadsOf_le (length_serialEmissions_le f.routes f.session) _).trans
      (f.le_cap_startBatch _ _)

/-- The batch does not go through the serial full spray, where one frame has several outputs. -/
def Forwarder.NotSpraySerial (threads : ℕ) : Prop :=
  f.mcrSprayMode = "full" → ¬ (frames.length < parallelBatchThreshold ∨ threads ≤ 1)

theorem Forwarder.processBatchMcr_inBounds {threads : ℕ} (h : f.NotSpraySerial frames threads) :
    ∀ c ∈ (f.processBatchMcr g threads frames).trace.calls, c.InBounds := by
  unfold processBatchMcr
  split_ifs with hempty hmode hserial
  · exact fun c hc => absurd hc List.not_mem_nil
  · exact f.processPrimary_inBounds g frames
  · exact absurd hserial (h (not_not.mp hmode))
  · exact f.processSprayParallel_inBounds g frames

/-- `process_batch_mcr` is defined on every batch that it does not full-spray serially, and on those
whose copies fit. -/
theorem Forwarder.processBatchMcr_defined_iff (threads : ℕ) :
    (f.processBatchMcr g threads frames).Defined ↔
      (f.mcrSprayMode = "full" → frames.length < parallelBatchThreshold ∨ threads ≤ 1 →
        sprayDemand f.routes f.session frames ≤ (f.startMcr frames).arena.cap) := by
  by_cases hspray : f.NotSpraySerial frames threads
  · exact iff_of_true (f.processBatchMcr_inBounds g frames hspray)
      fun hfull hserial => absurd hserial (hspray hfull)
  · unfold NotSpraySerial at hspray
    push Not at hspray
    obtain ⟨hfull, hserial⟩ := hspray
    simp only [hfull, hserial, true_imp_iff]
    rcases eq_or_ne frames [] with rfl | hne
    · exact iff_of_true (fun c hc => absurd hc List.not_mem_nil) (Nat.zero_le _)
    · rw [f.processBatchMcr_eq_processSpraySerial g hne hfull hserial]
      exact f.processSpraySerial_defined_iff g frames

/-- **The paths with one output for a frame, and the parallel full spray, stay inside the reserved
arena**, for every batch and from every earlier state of the forwarder: all ranges of the unchecked
appends and of `as_mut_slice_at_unchecked` end below the capacity reserved at the start of the
batch. -/
theorem singleOutput_inBounds (threads : ℕ) (ring : SliceRing) :
    (f.mcrEnabled = false ∨ f.NotSpraySerial frames threads →
      ∀ c ∈ (f.processBatch g threads frames).trace.calls, c.InBounds) ∧
    (f.NotSpraySerial frames threads →
      ∀ c ∈ (f.processBatchMcr g threads frames).trace.calls, c.InBounds) ∧
    ∀ r, f.processBatchSlices g ring frames = some r → ∀ c ∈ r.1.trace.calls, c.InBounds := by
  refine ⟨fun h => ?_, f.processBatchMcr_inBounds g frames,
    fun r => f.processBatchSlices_inBounds g frames⟩
  unfold Forwarder.processBatch
  split_ifs with hmcr hempty hserial
  · exact f.processBatchMcr_inBounds g frames
      (h.resolve_left fun hfalse => absurd hmcr (by rw [hfalse]; decide))
  · exact fun c hc => absurd hc List.not_mem_nil
  · exact f.processSerial_inBounds g frames
  · exact f.processParallel_inBounds g frames

end SingleOutput

/-- A packet that is encrypted in place. -/
theorem singleOutput_inBounds_zeroPacket :
    (zeroForwarder [] false "primary").mcrEnabled = false ∧
      ∀ c ∈ ((zeroForwarder [] false "primary").processBatch {} 1 [zeroPacket []]).trace.calls,
        c.InBounds :=
  ⟨rfl, (singleOutput_inBounds _ _ _ 1 (.new 1 2048)).1 (.inl rfl)⟩

/-! ## Sixteen channels -/

/-- Equal frames take at least their length for every copy. -/
theorem le_sprayDemand_replicate {routes : Table} (session : Option HybridSession) {p : Bytes}
    {e : RouteEntry} (hp : headerSize ≤ p.length)
    (he : routes.shardEntry (Packet.dstId p) = some e) (n : ℕ) :
    n * (min (1 + e.alternateChannels.length) 16 * p.length) ≤
      sprayDemand routes session (List.replicate n p) := by
  rw [sprayDemand, List.map_replicate, List.sum_replicate_nat,
    ← length_duplicate_of_shardEntry hp he]
  refine Nat.mul_le_mul_left n ?_
  have := List.card_nsmul_le_sum ((duplicate routes p).map (copyDemand routes session)) p.length
    fun d hd => by
      obtain ⟨q, hq, rfl⟩ := List.mem_map.mp hd
      rw [copyDemand, length_of_mem_duplicate hq]
      exact Nat.le_add_right _ _
  simpa using this

/-- A route to destination zero with fifteen alternate channels. -/
def wideRoute : RouteEntry where
  destId := Vector.replicate 32 0
  nextHopId := Vector.replicate 32 1
  alternateChannels := List.replicate 15 (Vector.replicate 32 2)

/-- A new forwarder in full-spray mode with that route. -/
def wideForwarder : Forwarder :=
  .withSession (Table.new.updateRoute wideRoute) none true "full" false

/-- A frame of 2048 bytes for destination zero. -/
def zeroFrame : Bytes := List.replicate 2048 0

theorem length_zeroFrame : zeroFrame.length = 2048 := List.length_replicate

theorem dstId_zeroFrame : Packet.dstId zeroFrame = wideRoute.destId := by
  apply Vector.toList_inj.mp
  rw [Packet.dstId, toList_readArray (by rw [length_zeroFrame]; decide), zeroFrame, slice,
    List.drop_replicate, List.take_replicate, wideRoute, Vector.toList_replicate]
  congr

/-- **A poll of 64 such frames overruns the arena of a new forwarder.** -/
theorem processBatchMcr_not_inBounds :
    ∃ c ∈ (wideForwarder.processBatchMcr {} 1 (List.replicate 64 zeroFrame)).trace.calls,
      c.IsAppend ∧ ¬ c.InBounds := by
  by_contra hall
  push Not at hall
  rw [wideForwarder.processBatchMcr_eq_processSpraySerial {} (by simp) rfl (.inr le_rfl),
    wideForwarder.processSpraySerial_inBounds] at hall
  have hroute : wideForwarder.routes.shardEntry (Packet.dstId zeroFrame) = some wideRoute := by
    rw [dstId_zeroFrame]
    exact (Table.shardEntry_write _ _ _).trans (if_pos rfl)
  have hwide : wideRoute.alternateChannels.length = 15 := List.length_replicate
  have hdemand := le_sprayDemand_replicate wideForwarder.session
    (by rw [length_zeroFrame]; decide) hroute 64
  rw [hwide, length_zeroFrame] at hdemand
  -- the reservation is for three copies of each frame, and at most doubles
  have hbytes : Forwarder.batchBytes (List.replicate 64 zeroFrame) = 132096 := by
    rw [Forwarder.batchBytes, List.map_replicate, List.sum_replicate_nat, length_zeroFrame,
      List.length_replicate, tagSize]
  have hcap : (wideForwarder.startMcr (List.replicate 64 zeroFrame)).arena.cap ≤
      max (2 * (0 + 132096 * 3)) (2 * 262144) := by
    rw [wideForwarder.arena_startMcr rfl, hbytes]
    exact wideForwarder.arena.clear.cap_reserve_le (132096 * 3)
  omega

end SmipMwp.Datapath
