import SmipMwp.Datapath.Bounds
import SmipMwp.Datapath.Copies
import SmipMwp.Routing.Spray

/-!
# The full-spray entry point

`process_batch_spray_full` is documented to send each packet over all channels of its route. It
calls `process_batch_mcr`, which looks at the configured mode: in `"full"` mode it sprays, over any
table (`sprays_full`); in every other mode it sends each frame once, and so sprays only frames whose
route has a single channel. A serial spray that does not fit the arena sends nothing.
`processBatchSprayFull_sprays_iff` says which batches that leaves.
-/

namespace SmipMwp.Datapath

open Crypto Routing Wire

/-- **The frame is sprayed**: if it is routed, it is sent once for each channel of its route, up to
sixteen, a copy for a channel carrying that channel as its next hop. -/
structure Sprayed (routes : Table) (p : Bytes) (ds : List Delivery) : Prop where
  frame : ∀ d ∈ ds, d.frame = p
  length : ∀ e, routeOf routes p = some e → ds.length = min e.channels.length 16
  hops : ∀ e, routeOf routes p = some e →
    (ds.map fun d => hopBytes d.bytes).Subperm (e.channels.map Vector.toList)

/-- The run sends the copies of its frames, one group after another. -/
def BatchRun.Sprays (r : BatchRun) (routes : Table) (frames : List Bytes) : Prop :=
  ∃ groups : List (List Delivery),
    r.deliveries = groups.flatten ∧ List.Forall₂ (Sprayed routes) frames groups

section Frame

variable {routes : Table} {session : Option HybridSession} {p : Bytes} {e : RouteEntry}

theorem shardEntry_of_routeOf (h : routeOf routes p = some e) :
    routes.shardEntry (Packet.dstId p) = some e := by
  unfold routeOf at h
  split_ifs at h
  exact h

/-- The channels written for a route are channels of it, each at most once. -/
theorem sprayChannels_subperm {d : Id} (he : routes.shardEntry d = some e) (flowLabel : UInt32) :
    (sprayChannels routes d flowLabel).Subperm e.channels := by
  have hlookup : sprayChannels routes d flowLabel =
      (routes.lookupSpray d flowLabel).map Prod.fst := rfl
  rw [hlookup, Table.map_fst_lookupSpray he]
  have hsub : (List.range (min e.channels.length 16)).Sublist (List.range e.channels.length) :=
    List.range_sublist.mpr (Nat.min_le_left _ _)
  exact (hsub.map _).subperm.trans (e.map_channel_perm flowLabel).subperm

/-- The full spray sends a copy for each channel, whatever it does to each. -/
theorem sprayed_duplicate {l : Layout} (hl : l.Steady) :
    Sprayed routes p
      ((duplicate routes p).map fun q => (emission l routes session p q).delivery) where
  frame := by
    rw [List.forall_mem_map]
    exact fun q _ => emission_frame l routes session p q
  length e he := by
    obtain ⟨hp, -⟩ := duplicate_of_routeOf_some he
    rw [List.length_map, length_duplicate_of_shardEntry hp (shardEntry_of_routeOf he),
      RouteEntry.length_channels]
  hops e he := by
    obtain ⟨hp, hdup⟩ := duplicate_of_routeOf_some he
    have hhops : ((duplicate routes p).map fun q =>
        (emission l routes session p q).delivery).map (fun d => hopBytes d.bytes) =
        (sprayChannels routes (Packet.dstId p) (Packet.flowLabel p)).map Vector.toList := by
      rw [hdup, List.map_map, List.map_map]
      refine List.map_congr_left fun nh _ => ?_
      exact (hopBytes_emission hl p).trans (hopBytes_redirected hp nh)
    obtain ⟨hops, hperm, hsub⟩ :=
      sprayChannels_subperm (shardEntry_of_routeOf he) (Packet.flowLabel p)
    rw [hhops]
    exact ⟨hops.map Vector.toList, hperm.map _, hsub.map _⟩

/-- Primary mode redirects a frame to the hop it selects. -/
theorem hopBytes_primaryEmission {nextHop : Id} (h : selectedHop routes p = some nextHop) :
    hopBytes (primaryEmission routes session p).bytes = nextHop.toList := by
  obtain ⟨hp, he⟩ := primaryEmission_of_some session h
  have hlen : headerSize ≤ (redirected p nextHop).length := by rwa [length_redirected hp]
  rw [← hopBytes_redirected hp nextHop, he]
  apply hopBytes_congr
  cases attempt session p with
  | skipped =>
    split_ifs
    · rw [Emission.plain, List.take_take, Nat.min_eq_left (Nat.le_add_right _ _)]
    · rfl
  | truncated => rfl
  | refused => rfl
  | «sealed» call ct tag => exact take_sealedPacket hlen

/-- Primary mode sprays the routes of one channel. -/
theorem sprayed_primary (h : ∀ e, routeOf routes p = some e → e.alternateChannels = []) :
    Sprayed routes p [(primaryEmission routes session p).delivery] where
  frame d hd := by
    rw [List.mem_singleton.mp hd]
    exact frame_primaryEmission routes session p
  length e he := by
    rw [RouteEntry.length_channels, h e he]
    rfl
  hops e he := by
    obtain ⟨hp, -⟩ := duplicate_of_routeOf_some he
    have hhop : selectedHop routes p = some e.nextHopId := by
      rw [selectedHop, if_neg (not_lt.mpr hp), Table.lookupSprayPrimary, shardEntry_of_routeOf he,
        Option.map_some, Table.sprayPrimary, h e he]
      rfl
    have hchannels : e.channels = [e.nextHopId] := by rw [RouteEntry.channels, h e he]
    rw [hchannels, List.map_singleton, List.map_singleton]
    exact (List.Perm.of_eq (congrArg (fun b => [b]) (hopBytes_primaryEmission hhop))).subperm

end Frame

/-- A routed frame has a delivery for each time it is in the batch and each channel. -/
theorem count_frame_of_sprayed {routes : Table} {frames : List Bytes}
    {groups : List (List Delivery)} (h : List.Forall₂ (Sprayed routes) frames groups) {p : Bytes}
    {e : RouteEntry} (he : routeOf routes p = some e) :
    (groups.flatten.map Delivery.frame).count p = frames.count p * min e.channels.length 16 := by
  induction h with
  | nil => exact (Nat.zero_mul _).symm
  | @cons q ds frames groups hq _ ih =>
    have hds : ds.map Delivery.frame = List.replicate ds.length q := by
      rw [List.eq_replicate_iff, List.length_map]
      exact ⟨rfl, List.forall_mem_map.mpr hq.frame⟩
    rw [List.flatten_cons, List.map_append, List.count_append, ih, hds, List.count_replicate,
      List.count_cons]
    by_cases hqp : q = p
    · subst hqp
      rw [hq.length e he]
      simp only [BEq.rfl, if_true]
      ring
    · rw [if_neg (by simpa using hqp), if_neg (by simpa using hqp), Nat.zero_add, Nat.add_zero]

namespace Forwarder

variable (f : Forwarder) (g : Telemetry) (threads : ℕ) (frames : List Bytes)

/-- In full mode every batch is sprayed. -/
theorem sprays_full (hmode : f.mcrSprayMode = "full") :
    (f.processBatchMcr g threads frames).Sprays f.routes frames := by
  obtain ⟨l, hl, hdeliv⟩ := f.deliveries_processBatchMcr_full g threads frames hmode
  refine ⟨_, hdeliv, ?_⟩
  rw [List.forall₂_map_right_iff, List.forall₂_same]
  exact fun p _ => sprayed_duplicate hl

/-- In any other mode exactly the batches whose routes have one channel each are. -/
theorem sprays_primary_iff (hmode : f.mcrSprayMode ≠ "full") :
    (f.processBatchMcr g threads frames).Sprays f.routes frames ↔
      ∀ p ∈ frames, ∀ e, routeOf f.routes p = some e → e.alternateChannels = [] := by
  have hdeliv := f.deliveries_processBatchMcr_primary g threads frames hmode
  constructor
  · rintro ⟨groups, hgroups, hall⟩ p hp e he
    have hframes : groups.flatten.map Delivery.frame = frames := by
      rw [← hgroups, hdeliv, List.map_map]
      exact (List.map_congr_left fun p _ => frame_primaryEmission f.routes f.session p).trans
        (List.map_id frames)
    have hcount := count_frame_of_sprayed hall he
    rw [hframes] at hcount
    have hone : min e.channels.length 16 = 1 :=
      (Nat.mul_eq_left (List.count_pos_iff.mpr hp).ne').mp hcount.symm
    rw [RouteEntry.length_channels] at hone
    exact List.length_eq_zero_iff.mp (by omega)
  · intro h
    refine ⟨frames.map fun p => [(primaryEmission f.routes f.session p).delivery], ?_, ?_⟩
    · rw [hdeliv, ← List.flatMap_def, ← List.map_eq_flatMap]
    · rw [List.forall₂_map_right_iff, List.forall₂_same]
      exact fun p hp => sprayed_primary (h p hp)

end Forwarder

/-- **The full-spray entry point sprays a batch exactly when** the configured mode is full, and the
copies fit the arena if they are made serially, or no route of the batch has an alternate
channel. -/
theorem processBatchSprayFull_sprays_iff (f : Forwarder) (g : Telemetry) (threads : ℕ)
    (frames : List Bytes) :
    ((f.processBatchSprayFull g threads frames).Defined ∧
        (f.processBatchSprayFull g threads frames).Sprays f.routes frames) ↔
      if f.mcrSprayMode = "full" then
        frames.length < parallelBatchThreshold ∨ threads ≤ 1 →
          sprayDemand f.routes f.session frames ≤ (f.startMcr frames).arena.cap
      else ∀ p ∈ frames, ∀ e, routeOf f.routes p = some e → e.alternateChannels = [] := by
  rw [Forwarder.processBatchSprayFull, f.processBatchMcr_defined_iff]
  by_cases hmode : f.mcrSprayMode = "full"
  · rw [and_iff_left (f.sprays_full g threads frames hmode), if_pos hmode]
    exact forall_prop_of_true hmode
  · rw [if_neg hmode, f.sprays_primary_iff g threads frames hmode,
      and_iff_right fun hfull => absurd hfull hmode]

/-- In primary mode a frame with two channels is sent once. -/
theorem processBatchSprayFull_not_sprays :
    ¬ ((zeroForwarder [zeroId] true "primary").processBatchSprayFull {} 1
      [zeroPacket []]).Sprays (zeroForwarder [zeroId] true "primary").routes [zeroPacket []] := by
  intro h
  have hroute : routeOf (zeroForwarder [zeroId] true "primary").routes (zeroPacket []) =
      some (zeroRoute [zeroId]) := by
    rw [routeOf, if_neg (by decide), dstId_zeroPacket]
    exact (Table.shardEntry_write _ _ _).trans (if_pos rfl)
  have hnil := ((zeroForwarder [zeroId] true "primary").sprays_primary_iff {} 1 [zeroPacket []]
    (by decide)).mp h (zeroPacket []) (List.mem_singleton_self _) _ hroute
  exact absurd hnil (List.cons_ne_nil _ _)

end SmipMwp.Datapath
