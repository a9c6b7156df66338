import SmipMwp.Datapath.Bounds

/-!
# Serial against parallel

`process_batch` and the full spray each have a serial and a parallel branch, chosen by the size of
the batch and the number of threads. The two place the bytes behind the declared payload
differently: `handle_packet` drops them, the serial full spray keeps them all behind the tag, and
the owned path writes the tag over the first sixteen and keeps the rest. So the branches send the
same packets exactly when no frame has bytes in the places where they differ
(`processSerial_eq_processParallel_iff`, `processSpraySerial_eq_processSprayParallel_iff`). The
serial full spray also counts a frame without a header as a miss, the parallel one does not, and it
does not reserve again for its copies: beyond the capacity there is nothing to compare.
-/

namespace SmipMwp.Datapath

open Crypto Routing Wire

/-- The packets handed to the socket: the buffer cut along the offsets. -/
def BatchRun.packets (r : BatchRun) : Option (List Bytes) := r.sent.map fun s => cut s.1 s.2

theorem BatchRun.Sends.packets_eq {r : BatchRun} {received cap : ℕ} {es : List Emission}
    (h : r.Sends received cap es) : r.packets = some (es.map Emission.bytes) := by
  rw [BatchRun.packets, h.sent, Option.map_some]
  exact congrArg some (cut_offsetsFrom [] (es.map Emission.bytes))

/-! ## Two layouts on one packet -/

section Layouts

variable (l l' : Layout) (routes : Table) (session : Option HybridSession) (frame p : Bytes)

/-- Two layouts send a packet alike exactly when they agree on what follows the tag, if they
encrypt it, and on what is left of it, if the session refuses it. -/
theorem emission_bytes_eq_iff :
    (emission l routes session frame p).bytes = (emission l' routes session frame p).bytes ↔
      (encrypts routes session p → l.trailing p = l'.trailing p) ∧
        (refuses routes session p → l.refused p = l'.refused p) := by
  unfold emission encrypts refuses
  by_cases hp : p.length < headerSize
  · simp [hp, not_le.mpr hp, Emission.plain]
  · by_cases hr : isRouted routes p
    · cases attempt session p <;>
        simp [hp, not_lt.mp hp, hr, Layout.attempted, Attempt.isSealed, Attempt.isRefused,
          Emission.plain, sealedPacket]
    · simp [hp, hr, Emission.plain]

/-- Two layouts count a packet as a miss alike, except if it has no header. -/
theorem emission_miss_eq_iff :
    (emission l routes session frame p).miss = (emission l' routes session frame p).miss ↔
      (p.length < headerSize → l.shortMiss = l'.shortMiss) := by
  unfold emission
  by_cases hp : p.length < headerSize
  · simp [hp, Emission.plain]
  · by_cases hr : isRouted routes p
    · cases attempt session p <;> simp [hp, hr, Layout.attempted, Emission.plain]
    · simp [hp, hr, Emission.plain]

theorem resize_eq_self_iff {q : Bytes} {n : ℕ} : q = resize q n 0 ↔ n ≤ q.length := by
  constructor
  · intro h
    have := congrArg List.length h
    rw [length_resize] at this
    omega
  · exact fun h => (resize_of_le h 0).symm

theorem serial_owned_bytes_eq_iff :
    (emission .serial routes session frame p).bytes =
        (emission .owned routes session frame p).bytes ↔
      (encrypts routes session p → p.length ≤ headerSize + Packet.payloadLen p + tagSize) ∧
        (refuses routes session p → headerSize + Packet.payloadLen p + tagSize ≤ p.length) := by
  rw [emission_bytes_eq_iff]
  refine and_congr (imp_congr_right fun _ => ?_) (imp_congr_right fun _ => resize_eq_self_iff)
  rw [Layout.serial, Layout.owned, eq_comm, List.drop_eq_nil_iff]

theorem spray_owned_bytes_eq_iff :
    (emission .spray routes session frame p).bytes =
        (emission .owned routes session frame p).bytes ↔
      (encrypts routes session p → p.length ≤ headerSize + Packet.payloadLen p) ∧
        (refuses routes session p → headerSize + Packet.payloadLen p + tagSize ≤ p.length) := by
  rw [emission_bytes_eq_iff]
  refine and_congr (imp_congr_right fun _ => ?_) (imp_congr_right fun _ => resize_eq_self_iff)
  simp only [Layout.spray, Layout.owned]
  constructor
  · intro h
    have := congrArg List.length h
    simp only [List.length_drop, tagSize] at this
    omega
  · intro h
    rw [List.drop_of_length_le h, List.drop_of_length_le (h.trans (Nat.le_add_right _ _))]

end Layouts

/-! ## `process_batch` -/

section ProcessBatch

variable (f : Forwarder) (g : Telemetry)

/-- Both branches of `process_batch` return the same statistics, whatever the batch. -/
theorem processSerial_stats_eq (frames : List Bytes) :
    (f.processSerial g frames).stats = (f.processParallel g frames).stats := by
  rw [(f.sends_processSerial g frames).stats, (f.sends_processParallel g frames).stats,
    flatMap_serialEmissions, flatMap_ownedEmissions]
  have hmiss : ∀ p, (emission .serial f.routes f.session p p).miss =
      (emission .owned f.routes f.session p p).miss := fun p =>
    (emission_miss_eq_iff _ _ _ _ p p).mpr fun _ => rfl
  simp only [ForwarderStats.tally, List.countP_map, Function.comp_def, emission_encrypted, hmiss]

/-- They send the same packets exactly when no frame that is encrypted has more than sixteen bytes
behind its payload, and no frame that the session refuses has fewer. -/
theorem processSerial_packets_eq_iff (frames : List Bytes) :
    (f.processSerial g frames).packets = (f.processParallel g frames).packets ↔
      ∀ p ∈ frames,
        (encrypts f.routes f.session p →
          p.length ≤ headerSize + Packet.payloadLen p + tagSize) ∧
        (refuses f.routes f.session p →
          headerSize + Packet.payloadLen p + tagSize ≤ p.length) := by
  rw [(f.sends_processSerial g frames).packets_eq, (f.sends_processParallel g frames).packets_eq,
    flatMap_serialEmissions, flatMap_ownedEmissions, Option.some_inj, List.map_map, List.map_map,
    List.map_inj_left]
  exact forall₂_congr fun p _ => serial_owned_bytes_eq_iff f.routes f.session p p

/-- **The branches of `process_batch` agree exactly when** no frame that is encrypted has more than
sixteen bytes behind its payload, and no frame that the session refuses has fewer. -/
theorem processSerial_eq_processParallel_iff (frames : List Bytes) :
    ((f.processSerial g frames).packets = (f.processParallel g frames).packets ∧
        (f.processSerial g frames).stats = (f.processParallel g frames).stats) ↔
      ∀ p ∈ frames,
        (encrypts f.routes f.session p →
          p.length ≤ headerSize + Packet.payloadLen p + tagSize) ∧
        (refuses f.routes f.session p →
          headerSize + Packet.payloadLen p + tagSize ≤ p.length) := by
  rw [and_iff_left (processSerial_stats_eq f g frames)]
  exact processSerial_packets_eq_iff f g frames

end ProcessBatch

/-- 1024 packets with seventeen bytes behind the payload: one thread drops the bytes, two threads
send the last of them. -/
theorem processBatch_packets_ne :
    ((zeroForwarder [] false "primary").processBatch {} 1
        (List.replicate 1024 (zeroPacket (List.replicate 17 0)))).packets ≠
      ((zeroForwarder [] false "primary").processBatch {} 2
        (List.replicate 1024 (zeroPacket (List.replicate 17 0)))).packets := by
  generalize hframes : List.replicate 1024 (zeroPacket (List.replicate 17 0)) = frames
  have hlen : frames.length = 1024 := by rw [← hframes, List.length_replicate]
  have hmem : zeroPacket (List.replicate 17 0) ∈ frames := by
    rw [← hframes]
    exact List.mem_replicate.mpr ⟨by decide, rfl⟩
  have hempty : ¬ frames.isEmpty = true := fun h => by
    rw [List.isEmpty_iff_length_eq_zero, hlen] at h
    cases h
  have hser : frames.length < parallelBatchThreshold ∨ 1 ≤ 1 := .inr le_rfl
  have hpar : ¬ (frames.length < parallelBatchThreshold ∨ 2 ≤ 1) := by rw [hlen]; decide
  rw [Forwarder.processBatch, Forwarder.processBatch, if_neg (by decide), if_neg hempty,
    if_pos hser, if_neg (by decide), if_neg hempty, if_neg hpar]
  intro h
  have hle := ((processSerial_packets_eq_iff _ _ _).mp h _ hmem).1
    (encrypts_zeroForwarder [] false "primary" _)
  rw [length_zeroPacket, payloadLen_zeroPacket, List.length_replicate] at hle
  revert hle
  decide

/-! ## The full spray -/

/-- Two counts of which one implies the other are equal exactly when the converse holds too. -/
theorem countP_eq_countP_iff {α : Type*} {a b : α → Bool} {l : List α}
    (h : ∀ x ∈ l, b x → a x) : l.countP a = l.countP b ↔ ∀ x ∈ l, a x = b x := by
  induction l with
  | nil => simp
  | cons x l ih =>
    have hx := h x List.mem_cons_self
    have hl : ∀ y ∈ l, b y → a y := fun y hy => h y (List.mem_cons_of_mem _ hy)
    have hle : l.countP b ≤ l.countP a := List.countP_mono_left hl
    rw [List.forall_mem_cons, ← ih hl, List.countP_cons, List.countP_cons]
    cases ha : a x <;> cases hb : b x
    · simp
    · exact absurd (hx hb) (by simp [ha])
    · simp only [if_true, Bool.false_eq_true, if_false, Bool.true_eq_false, false_and, iff_false]
      omega
    · simp

section FullSpray

variable (routes : Table) (session : Option HybridSession)

/-- The copies of a batch, each with its frame. -/
def copiesOf (frames : List Bytes) : List (Bytes × Bytes) :=
  frames.flatMap fun p => (duplicate routes p).map fun q => (p, q)

theorem flatMap_duplicate (l : Layout) (frames : List Bytes) :
    (frames.flatMap fun p => (duplicate routes p).map (emission l routes session p)) =
      (copiesOf routes frames).map fun d => emission l routes session d.1 d.2 := by
  simp only [copiesOf, List.map_flatMap, List.map_map, Function.comp_def]

theorem flatMap_sprayEmissions (frames : List Bytes) :
    frames.flatMap (sprayEmissions routes session) =
      (copiesOf routes frames).map fun d => emission .spray routes session d.1 d.2 :=
  flatMap_duplicate routes session .spray frames

theorem flatMap_sprayOwnedEmissions (frames : List Bytes) :
    frames.flatMap (sprayOwnedEmissions routes session) =
      (copiesOf routes frames).map fun d => emission .owned routes session d.1 d.2 :=
  flatMap_duplicate routes session .owned frames

theorem forall_mem_copiesOf (frames : List Bytes) (P : Bytes → Bytes → Prop) :
    (∀ d ∈ copiesOf routes frames, P d.1 d.2) ↔
      ∀ p ∈ frames, ∀ q ∈ duplicate routes p, P p q := by
  simp only [copiesOf, List.mem_flatMap, List.mem_map]
  constructor
  · exact fun h p hp q hq => h (p, q) ⟨p, hp, q, hq, rfl⟩
  · rintro h d ⟨p, hp, q, hq, rfl⟩
    exact h p hp q hq

/-- The statistics of the two full sprays agree exactly when every frame has a header. -/
theorem tally_spray_eq_iff (received : ℕ) (frames : List Bytes) :
    ForwarderStats.tally { received } (frames.flatMap (sprayEmissions routes session)) =
        ForwarderStats.tally { received } (frames.flatMap (sprayOwnedEmissions routes session)) ↔
      ∀ p ∈ frames, headerSize ≤ p.length := by
  have hmiss : ∀ d : Bytes × Bytes, (emission .owned routes session d.1 d.2).miss →
      (emission .spray routes session d.1 d.2).miss := by
    intro d hm
    by_cases hd : d.2.length < headerSize
    · simp [emission, hd, Emission.plain, Layout.spray]
    · rwa [(emission_miss_eq_iff .spray .owned routes session d.1 d.2).mpr fun h => absurd h hd]
  have hcount := countP_eq_countP_iff (l := copiesOf routes frames) fun d _ => hmiss d
  have hstats : ForwarderStats.tally { received } (frames.flatMap (sprayEmissions routes session)) =
        ForwarderStats.tally { received } (frames.flatMap (sprayOwnedEmissions routes session)) ↔
      (copiesOf routes frames).countP (fun d => (emission .spray routes session d.1 d.2).miss) =
        (copiesOf routes frames).countP fun d => (emission .owned routes session d.1 d.2).miss := by
    simp only [flatMap_sprayEmissions, flatMap_sprayOwnedEmissions, ForwarderStats.tally,
      List.countP_map, Function.comp_def, emission_encrypted, Nat.zero_add, ForwarderStats.mk.injEq,
      true_and]
  rw [hstats, hcount, forall_mem_copiesOf routes frames fun p q =>
    (emission .spray routes session p q).miss = (emission .owned routes session p q).miss]
  refine forall₂_congr fun p _ => ?_
  simp only [emission_miss_eq_iff]
  constructor
  · intro h
    by_contra hp
    rw [not_le] at hp
    have := h p (by rw [duplicate_of_lt hp]; exact List.mem_singleton_self p) hp
    cases this
  · intro hp q hq hlt
    rw [length_of_mem_duplicate hq] at hlt
    omega

variable (f : Forwarder) (g : Telemetry)

/-- They send the same packets exactly when no copy that is encrypted has bytes behind its payload,
and none that the session refuses is too short for the tag. -/
theorem processSpraySerial_packets_eq_iff (frames : List Bytes) :
    (f.processSpraySerial g (f.startMcr frames) frames).packets =
        (f.processSprayParallel g (f.startMcr frames) frames).packets ↔
      ∀ p ∈ frames, ∀ q ∈ duplicate f.routes p,
        (encrypts f.routes f.session q → p.length ≤ headerSize + Packet.payloadLen p) ∧
        (refuses f.routes f.session q →
          headerSize + Packet.payloadLen p + tagSize ≤ p.length) := by
  rw [(f.sends_processSpraySerial g (f.fresh_startMcr frames) frames).packets_eq,
    (f.sends_processSprayParallel g (f.fresh_startMcr frames) frames).packets_eq, Option.some_inj,
    flatMap_sprayEmissions, flatMap_sprayOwnedEmissions, List.map_map, List.map_map,
    List.map_inj_left]
  have hbytes := forall_mem_copiesOf f.routes frames fun p q =>
    (emission .spray f.routes f.session p q).bytes =
      (emission .owned f.routes f.session p q).bytes
  refine hbytes.trans (forall₂_congr fun p _ => forall₂_congr fun q hq => ?_)
  rw [spray_owned_bytes_eq_iff, length_of_mem_duplicate hq, payloadLen_of_mem_duplicate hq]

/-- **The branches of the full spray agree exactly when** the copies fit the arena reserved at the
start of the batch, every frame has a header, no copy that is encrypted has bytes behind its
payload, and none that the session refuses is too short for the tag. -/
theorem processSpraySerial_eq_processSprayParallel_iff (frames : List Bytes) :
    ((f.processSpraySerial g (f.startMcr frames) frames).Defined ∧
        (f.processSprayParallel g (f.startMcr frames) frames).Defined ∧
        (f.processSpraySerial g (f.startMcr frames) frames).packets =
          (f.processSprayParallel g (f.startMcr frames) frames).packets ∧
        (f.processSpraySerial g (f.startMcr frames) frames).stats =
          (f.processSprayParallel g (f.startMcr frames) frames).stats) ↔
      sprayDemand f.routes f.session frames ≤ (f.startMcr frames).arena.cap ∧
        ∀ p ∈ frames, headerSize ≤ p.length ∧ ∀ q ∈ duplicate f.routes p,
          (encrypts f.routes f.session q → p.length ≤ headerSize + Packet.payloadLen p) ∧
          (refuses f.routes f.session q →
            headerSize + Packet.payloadLen p + tagSize ≤ p.length) := by
  have hparallel : (f.processSprayParallel g (f.startMcr frames) frames).Defined :=
    f.processSprayParallel_inBounds g frames
  rw [f.processSpraySerial_defined_iff, and_iff_right hparallel, processSpraySerial_packets_eq_iff,
    (f.sends_processSpraySerial g (f.fresh_startMcr frames) frames).stats,
    (f.sends_processSprayParallel g (f.fresh_startMcr frames) frames).stats, tally_spray_eq_iff]
  refine and_congr_right fun _ => ?_
  rw [and_comm, ← forall₂_and]

end FullSpray

/-- Every copy of the packet is encrypted: the single route serves all destinations. -/
theorem encrypts_copy_zeroForwarder {mcrEnabled : Bool} {mcrSprayMode : String} {trailing q : Bytes}
    (hq : q ∈ duplicate (zeroForwarder [] mcrEnabled mcrSprayMode).routes (zeroPacket trailing)) :
    encrypts (zeroForwarder [] mcrEnabled mcrSprayMode).routes (some .zero) q = true := by
  have hle : headerSize ≤ (zeroPacket trailing).length := by
    rw [length_zeroPacket, headerSize]
    omega
  have hattempt : attempt (some .zero) q = attempt (some .zero) (zeroPacket trailing) := by
    rcases eq_or_redirected_of_mem_duplicate hq with rfl | ⟨-, nh, rfl⟩
    · rfl
    · exact attempt_redirected hle nh _
  rw [encrypts, hattempt, isSealed_attempt_zeroPacket, isRouted_of_singleton rfl,
    decide_eq_true (by rwa [length_of_mem_duplicate hq])]
  rfl

/-- 1024 packets with one byte behind the payload fit the arena of both branches, but one thread
sends the byte behind the tag and two threads drop it. -/
theorem processBatchMcr_packets_ne :
    ((zeroForwarder [] true "full").processBatchMcr {} 1
        (List.replicate 1024 (zeroPacket [7]))).Defined ∧
      ((zeroForwarder [] true "full").processBatchMcr {} 2
        (List.replicate 1024 (zeroPacket [7]))).Defined ∧
      ((zeroForwarder [] true "full").processBatchMcr {} 1
          (List.replicate 1024 (zeroPacket [7]))).packets ≠
        ((zeroForwarder [] true "full").processBatchMcr {} 2
          (List.replicate 1024 (zeroPacket [7]))).packets := by
  generalize hframes : List.replicate 1024 (zeroPacket [7]) = frames
  have hlen : frames.length = 1024 := by rw [← hframes, List.length_replicate]
  have hmem : zeroPacket [7] ∈ frames := by
    rw [← hframes]
    exact List.mem_replicate.mpr ⟨by decide, rfl⟩
  have hempty : ¬ frames.isEmpty = true := fun h => by
    rw [List.isEmpty_iff_length_eq_zero, hlen] at h
    cases h
  have hser : frames.length < parallelBatchThreshold ∨ 1 ≤ 1 := .inr le_rfl
  have hpar : ¬ (frames.length < parallelBatchThreshold ∨ 2 ≤ 1) := by rw [hlen]; decide
  have hfull : ¬ (zeroForwarder [] true "full").mcrSprayMode ≠ "full" := not_not.mpr rfl
  have hroute : (zeroForwarder [] true "full").routes.shardEntry (Packet.dstId (zeroPacket [7])) =
      some (zeroRoute []) := by
    rw [dstId_zeroPacket]
    exact (Table.shardEntry_write _ _ _).trans (if_pos rfl)
  have hcopies := length_duplicate_of_shardEntry (by rw [length_zeroPacket]; decide) hroute
  rw [Forwarder.processBatchMcr, Forwarder.processBatchMcr, if_neg hempty, if_neg hfull,
    if_pos hser, if_neg hempty, if_neg hfull, if_neg hpar]
  refine ⟨?_, Forwarder.processSprayParallel_inBounds _ _ _, fun h => ?_⟩
  · -- the route has one channel, so the reservation is enough
    rw [Forwarder.processSpraySerial_defined_iff, ← Forwarder.processSpraySerial_inBounds _ {}]
    refine Forwarder.processSpraySerial_inBounds_of_le_three _ _ rfl fun p hp => ?_
    rw [← hframes, List.mem_replicate] at hp
    rw [hp.2, hcopies]
    decide
  · obtain ⟨q, hq⟩ := List.exists_mem_of_length_pos
      (l := duplicate (zeroForwarder [] true "full").routes (zeroPacket [7]))
      (by rw [hcopies]; decide)
    have hle := ((processSpraySerial_packets_eq_iff _ _ _).mp h _ hmem q hq).1
      (encrypts_copy_zeroForwarder hq)
    rw [length_zeroPacket, payloadLen_zeroPacket] at hle
    revert hle
    decide

end SmipMwp.Datapath
