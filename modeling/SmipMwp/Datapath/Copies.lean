import SmipMwp.Datapath.Integrity
import SmipMwp.Datapath.Decodable
import SmipMwp.Datapath.OneToOne
import SmipMwp.Routing.Sequential
import Mathlib.Data.List.Forall2

/-!
# The copies of a full spray

A full spray sends a frame once for every channel of its route. Each copy is looked up again under
its own channel, so it could be encrypted while another is not; it never is, because the table has
a route and so predicts a hop for the other channels (`Routing/Sequential.lean`). All copies of a
frame are then the same packet redirected: redirecting commutes with everything either branch does
to a packet (`Layout.Steady`).
-/

namespace SmipMwp.Datapath

open Crypto Routing Wire

/-! ## Packets equal up to the next hop -/

/-- The packets are equal outside bytes 32 to 64. -/
def SameButHop (b c : Bytes) : Prop :=
  b.length = c.length ∧ b.take 32 = c.take 32 ∧ b.drop 64 = c.drop 64

/-- The bytes 32 to 64, where a copy carries its channel. -/
def hopBytes (b : Bytes) : Bytes := slice b 32 32

theorem hopBytes_redirected {b : Bytes} (hb : headerSize ≤ b.length) (nh : Id) :
    hopBytes (redirected b nh) = nh.toList := by
  have hself := slice_overwrite_self (redirected_inBounds hb nh)
  rwa [Vector.length_toList] at hself

theorem sameButHop_redirected {b : Bytes} (hb : headerSize ≤ b.length) (nh nh' : Id) :
    SameButHop (redirected b nh) (redirected b nh') := by
  have hle := redirected_inBounds hb
  refine ⟨?_, ?_, ?_⟩
  · rw [length_redirected hb, length_redirected hb]
  · rw [← slice_zero, ← slice_zero]
    exact (slice_overwrite_of_le (hle nh) le_rfl).trans
      (slice_overwrite_of_le (hle nh') le_rfl).symm
  · have hend : ∀ nh : Id, dstOffset + nh.toList.length ≤ 64 := fun nh => by
      rw [Vector.length_toList]
      decide
    exact (drop_overwrite (hle nh) (hend nh)).trans (drop_overwrite (hle nh') (hend nh')).symm

theorem hopBytes_congr {b c : Bytes} (h : b.take headerSize = c.take headerSize) :
    hopBytes b = hopBytes c := by
  have hin : 32 + 32 ≤ headerSize := by decide
  rw [hopBytes, ← slice_take hin, h, slice_take hin]
  rfl

/-! ## Layouts and redirection -/

/-- What the layout does to a packet does not depend on its next hop, and leaves the header. -/
structure Layout.Steady (l : Layout) : Prop where
  trailing : ∀ p nh, headerSize ≤ p.length → l.trailing (redirected p nh) = l.trailing p
  refused : ∀ p nh, headerSize ≤ p.length →
    l.refused (redirected p nh) = redirected (l.refused p) nh
  take_refused : ∀ p, headerSize ≤ p.length →
    (l.refused p).take headerSize = p.take headerSize

namespace Layout

theorem steady_spray : spray.Steady where
  trailing p nh hp := by
    simp only [spray, payloadLen_redirected hp]
    exact drop_redirected hp nh (Nat.le_add_right _ _)
  refused _ _ _ := rfl
  take_refused _ _ := rfl

theorem steady_owned : owned.Steady where
  trailing p nh hp := by
    simp only [owned, payloadLen_redirected hp]
    exact drop_redirected hp nh (by omega)
  refused p nh hp := by
    simp only [owned, resize, length_redirected hp, payloadLen_redirected hp]
    exact (overwrite_append_left (redirected_inBounds hp nh)).symm
  take_refused p hp := take_resize hp 0

variable {l : Layout} {p : Bytes}

/-- What is sent of a packet has its header. -/
theorem Steady.take_attempted (hl : l.Steady) (hp : headerSize ≤ p.length) (frame : Bytes)
    (a : Attempt) : (l.attempted frame p a).bytes.take headerSize = p.take headerSize := by
  cases a with
  | skipped => rfl
  | truncated => rfl
  | refused => exact hl.take_refused p hp
  | «sealed» call ct tag => exact take_sealedPacket hp

theorem Steady.le_length_attempted (hl : l.Steady) (hp : headerSize ≤ p.length) (frame : Bytes)
    (a : Attempt) : headerSize ≤ (l.attempted frame p a).bytes.length := by
  have hlen := congrArg List.length (hl.take_attempted hp frame a)
  rw [List.length_take, List.length_take] at hlen
  omega

/-- What is sent of the packet redirected is what is sent of the packet, redirected. -/
theorem Steady.attempted_redirected (hl : l.Steady) (hp : headerSize ≤ p.length) (frame : Bytes)
    (nh : Id) (a : Attempt) :
    (l.attempted frame (redirected p nh) a).bytes =
      redirected (l.attempted frame p a).bytes nh := by
  cases a with
  | skipped => rfl
  | truncated => rfl
  | refused => exact hl.refused p nh hp
  | «sealed» call ct tag =>
    have hhead : dstOffset + nh.toList.length ≤ (p.take headerSize).length := by
      rw [List.length_take, Nat.min_eq_left hp, Vector.length_toList]
      decide
    simp only [attempted, sealedPacket, hl.trailing p nh hp, take_redirected nh le_rfl hp,
      List.append_assoc]
    exact (overwrite_append_left hhead).symm

theorem attempted_encrypted (l : Layout) (frame p : Bytes) (a : Attempt) :
    (l.attempted frame p a).encrypted = a.isSealed := by
  cases a <;> rfl

end Layout

/-! ## The group of a frame -/

/-- The route of the frame's destination: none without a header. -/
def routeOf (routes : Table) (p : Bytes) : Option RouteEntry :=
  if p.length < headerSize then none else routes.shardEntry (Packet.dstId p)

/-- **The copies of one frame.** A routed frame is sent once for each channel, up to sixteen, in the
order of `lookup_spray_buf`: the copies carry their channels, all or none of them encrypted, and
are otherwise equal. Any other frame is sent once, with its own destination. -/
structure SprayGroup (routes : Table) (p : Bytes) (ds : List Delivery) : Prop where
  frame : ∀ d ∈ ds, d.frame = p
  routed : ∀ e, routeOf routes p = some e →
    ds.length = min (1 + e.alternateChannels.length) 16 ∧
    ds.map (fun d => hopBytes d.bytes) =
      (sprayChannels routes (Packet.dstId p) (Packet.flowLabel p)).map Vector.toList ∧
    ((∀ d ∈ ds, d.encrypted = true) ∨ ∀ d ∈ ds, d.encrypted = false) ∧
    ∀ d ∈ ds, ∀ d' ∈ ds, SameButHop d.bytes d'.bytes
  unrouted : routeOf routes p = none → ∃ d, ds = [d] ∧ hopBytes d.bytes = hopBytes p

section Group

variable {routes : Table} {session : Option HybridSession} {l : Layout} {p : Bytes}

theorem duplicate_of_routeOf_none (h : routeOf routes p = none) : duplicate routes p = [p] := by
  unfold routeOf at h
  split_ifs at h with hp
  · exact duplicate_of_lt hp
  · obtain ⟨v, hv, -, hdst, -⟩ := HeaderViewRef.new_of_le (not_lt.mp hp)
    have hlen := length_sprayChannels routes v.dstId v.flowLabel
    rw [hdst, h, Option.map_none, Option.getD_none, ← hdst, ← List.isEmpty_iff_length_eq_zero]
      at hlen
    simp only [duplicate, hv, if_pos hlen]

theorem duplicate_of_routeOf_some {e : RouteEntry} (h : routeOf routes p = some e) :
    headerSize ≤ p.length ∧ duplicate routes p =
      (sprayChannels routes (Packet.dstId p) (Packet.flowLabel p)).map (redirected p) := by
  unfold routeOf at h
  split_ifs at h with hp
  obtain ⟨v, hv, -, hdst, hflow, -⟩ := HeaderViewRef.new_of_le (not_lt.mp hp)
  have hlen := length_sprayChannels routes (Packet.dstId p) (Packet.flowLabel p)
  rw [h, Option.map_some, Option.getD_some] at hlen
  have hne : ¬ (sprayChannels routes (Packet.dstId p) (Packet.flowLabel p)).isEmpty = true := by
    rw [List.isEmpty_iff_length_eq_zero, hlen]
    omega
  refine ⟨not_lt.mp hp, ?_⟩
  simp only [duplicate, hv, hdst, hflow, if_neg hne]
  rfl

/-- Where the table predicts, a copy is attempted whatever its channel. -/
theorem emission_redirected (h : routes.inner.predictiveNextHops ≠ [])
    (hp : headerSize ≤ p.length) (nh : Id) :
    emission l routes session p (redirected p nh) =
      l.attempted p (redirected p nh) (attempt session p) := by
  have hr : isRouted routes (redirected p nh) = true := Table.lookupOrPredict_isSome h _ _ _
  rw [emission, length_redirected hp, if_neg (not_lt.mpr hp), if_pos hr, attempt_redirected hp]

theorem hopBytes_emission (hl : l.Steady) (frame : Bytes) :
    hopBytes (emission l routes session frame p).bytes = hopBytes p := by
  unfold emission
  split_ifs with hp
  · rfl
  · exact hopBytes_congr (hl.take_attempted (not_lt.mp hp) frame _)
  · rfl

/-- **What the full spray sends for a frame** on either branch. -/
theorem sprayGroup (hl : l.Steady)
    (hpred : ∀ d e, routes.shardEntry d = some e → routes.inner.predictiveNextHops ≠ []) :
    SprayGroup routes p
      ((duplicate routes p).map fun q => (emission l routes session p q).delivery) where
  frame := by
    rw [List.forall_mem_map]
    exact fun q _ => emission_frame l routes session p q
  routed e he := by
    obtain ⟨hp, hdup⟩ := duplicate_of_routeOf_some he
    have he' : routes.shardEntry (Packet.dstId p) = some e := by
      rwa [routeOf, if_neg (not_lt.mpr hp)] at he
    have hcopy : ∀ nh, (emission l routes session p (redirected p nh)).bytes =
        redirected (l.attempted p p (attempt session p)).bytes nh := fun nh => by
      rw [emission_redirected (hpred _ e he') hp, hl.attempted_redirected hp]
    have hle := hl.le_length_attempted hp p (attempt session p)
    have hmem : ∀ d ∈ ((duplicate routes p).map fun q =>
        (emission l routes session p q).delivery), ∃ nh,
        d.bytes = redirected (l.attempted p p (attempt session p)).bytes nh ∧
        d.encrypted = (attempt session p).isSealed := by
      rw [hdup, List.map_map, List.forall_mem_map]
      intro nh _
      refine ⟨nh, hcopy nh, ?_⟩
      rw [← l.attempted_encrypted p (redirected p nh), ← emission_redirected (hpred _ e he') hp]
      rfl
    refine ⟨?_, ?_, ?_, ?_⟩
    · rw [List.length_map, length_duplicate_of_shardEntry hp he']
    · rw [hdup, List.map_map, List.map_map]
      refine List.map_congr_left fun nh _ => ?_
      exact (congrArg hopBytes (hcopy nh)).trans (hopBytes_redirected hle nh)
    · cases hs : (attempt session p).isSealed with
      | true => exact .inl fun d hd => (hmem d hd).choose_spec.2.trans hs
      | false => exact .inr fun d hd => (hmem d hd).choose_spec.2.trans hs
    · intro d hd d' hd'
      obtain ⟨nh, hnh, -⟩ := hmem d hd
      obtain ⟨nh', hnh', -⟩ := hmem d' hd'
      rw [hnh, hnh']
      exact sameButHop_redirected hle nh nh'
  unrouted h := by
    rw [duplicate_of_routeOf_none h]
    exact ⟨_, rfl, hopBytes_emission hl p⟩

end Group

/-! ## A batch -/

namespace Forwarder

variable (f : Forwarder) (g : Telemetry) (threads : ℕ) (frames : List Bytes)

/-- In full mode a batch sends the copies of its frames, one group after another, and counts each
of them. -/
theorem sends_processBatchMcr_full (hmode : f.mcrSprayMode = "full") (hne : frames ≠ []) :
    ∃ l : Layout, l.Steady ∧ ∃ cap, (f.processBatchMcr g threads frames).Sends frames.length cap
      (frames.flatMap fun p => (duplicate f.routes p).map (emission l f.routes f.session p)) := by
  have hempty : ¬ frames.isEmpty = true := by simpa using hne
  rw [processBatchMcr, if_neg hempty, if_neg (not_not.mpr hmode)]
  split_ifs
  · exact ⟨.spray, Layout.steady_spray, _,
      f.sends_processSpraySerial g (f.fresh_startMcr frames) frames⟩
  · exact ⟨.owned, Layout.steady_owned, _,
      f.sends_processSprayParallel g (f.fresh_startMcr frames) frames⟩

/-- What it delivers, frame by frame. -/
theorem deliveries_processBatchMcr_full (hmode : f.mcrSprayMode = "full") :
    ∃ l : Layout, l.Steady ∧ (f.processBatchMcr g threads frames).deliveries =
      (frames.map fun p => (duplicate f.routes p).map fun q =>
        (emission l f.routes f.session p q).delivery).flatten := by
  by_cases hne : frames = []
  · subst hne
    exact ⟨.spray, Layout.steady_spray, rfl⟩
  · obtain ⟨l, hl, cap, h⟩ := f.sends_processBatchMcr_full g threads frames hmode hne
    refine ⟨l, hl, ?_⟩
    rw [h.deliveries_eq, List.map_flatMap, List.flatMap_def]
    simp only [List.map_map]
    rfl

end Forwarder

/-- **Full-spray copies are complete and identical up to the next hop**, on the serial and on the
parallel branch, over any table that was updated sequentially: the deliveries of a batch are the
copies of its first frame, then those of the second, and so on, and `encrypted` and `forwarded`
together count them. -/
theorem processBatchMcr_full_copies (f : Forwarder) (ws : List Table.Write) (g : Telemetry)
    (threads : ℕ) (frames : List Bytes) (hmode : f.mcrSprayMode = "full")
    (hroutes : f.routes = .ofWrites ws) :
    (∃ groups : List (List Delivery),
      (f.processBatchMcr g threads frames).deliveries = groups.flatten ∧
      List.Forall₂ (SprayGroup f.routes) frames groups) ∧
    (f.processBatchMcr g threads frames).stats.encrypted +
        (f.processBatchMcr g threads frames).stats.forwarded =
      (f.processBatchMcr g threads frames).deliveries.length := by
  have hpred : ∀ d e, f.routes.shardEntry d = some e →
      f.routes.inner.predictiveNextHops ≠ [] := fun d e he => by
    rw [hroutes] at he ⊢
    exact Table.predictiveNextHops_ofWrites_ne_nil he
  constructor
  · obtain ⟨l, hl, hdeliv⟩ := f.deliveries_processBatchMcr_full g threads frames hmode
    refine ⟨_, hdeliv, ?_⟩
    rw [List.forall₂_map_right_iff, List.forall₂_same]
    exact fun p _ => sprayGroup hl hpred
  · by_cases hne : frames = []
    · rw [hne]
      rfl
    · obtain ⟨l, -, cap, h⟩ := f.sends_processBatchMcr_full g threads frames hmode hne
      rw [h.stats, tally_encrypted_add_forwarded, h.deliveries_eq, List.length_map]

/-- A route with one alternate channel: the packet of zeros is sent twice. -/
theorem processBatchMcr_full_copies_zeroPacket :
    (zeroForwarder [Vector.replicate 32 2] true "full").mcrSprayMode = "full" ∧
    (zeroForwarder [Vector.replicate 32 2] true "full").routes =
      .ofWrites [.update (zeroRoute [Vector.replicate 32 2])] ∧
    ((zeroForwarder [Vector.replicate 32 2] true "full").processBatchMcr {} 1
      [zeroPacket []]).deliveries.length = 2 := by
  refine ⟨rfl, rfl, ?_⟩
  obtain ⟨⟨groups, hgroups, hall⟩, -⟩ := processBatchMcr_full_copies
    (zeroForwarder [Vector.replicate 32 2] true "full")
    [.update (zeroRoute [Vector.replicate 32 2])] {} 1 [zeroPacket []] rfl rfl
  obtain ⟨ds, rest, hds, hrest, rfl⟩ := List.forall₂_cons_left_iff.mp hall
  obtain rfl := List.forall₂_nil_left_iff.mp hrest
  have hroute : routeOf (zeroForwarder [Vector.replicate 32 2] true "full").routes
      (zeroPacket []) = some (zeroRoute [Vector.replicate 32 2]) := by
    rw [routeOf, if_neg (by decide), dstId_zeroPacket]
    exact (Table.shardEntry_write _ _ _).trans (if_pos rfl)
  rw [hgroups, List.flatten_cons, List.flatten_nil, List.append_nil, (hds.routed _ hroute).1]
  rfl

end SmipMwp.Datapath
