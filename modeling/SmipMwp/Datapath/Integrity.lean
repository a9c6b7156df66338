import SmipMwp.Datapath.Paths

/-!
# What primary mode keeps of a frame

A `Delivery` is a packet as the socket gets it, with the frame it was made of. Primary mode sends
one for each frame: an encrypted one has the whole frame in it, redirected, with the payload
replaced by ciphertext and the tag put in behind it; any other one should be the frame, redirected
if its destination has a route. It is, except where the branch that would encrypt has nothing to
encrypt with: it copies the frame up to the end of the declared payload, and what lies behind is
lost. `processBatchMcr_keepsBytes_iff` says exactly which batches lose nothing.
-/

namespace SmipMwp.Datapath

open Crypto Routing Wire

/-! ## Deliveries -/

/-- A packet handed to the socket: the frame it was made of, its bytes, and whether it was counted
in `stats.encrypted`. -/
structure Delivery where
  frame : Bytes
  bytes : Bytes
  encrypted : Bool
  deriving DecidableEq

/-- The packets of a run: the buffer cut along the offsets passed to `send`. -/
def BatchRun.deliveries (r : BatchRun) : List Delivery :=
  match r.sent with
  | some (buf, offs) =>
    List.zipWith (fun o out => ⟨out.frame, slice buf o.1 o.2, out.encrypted⟩) offs r.trace.outputs
  | none => []

def Emission.delivery (e : Emission) : Delivery := ⟨e.frame, e.bytes, e.encrypted⟩

/-- The deliveries of a run are what it sends. -/
theorem BatchRun.Sends.deliveries_eq {r : BatchRun} {received cap : ℕ} {es : List Emission}
    (h : r.Sends received cap es) : r.deliveries = es.map Emission.delivery := by
  have hcut := cut_offsetsFrom [] (es.map Emission.bytes)
  simp only [List.nil_append, List.length_nil] at hcut
  simp only [deliveries, h.sent, h.outputs]
  apply List.ext_getElem?
  intro i
  have hbytes := congrArg (fun l => l[i]?) hcut
  simp only [cut, List.getElem?_map] at hbytes
  simp only [recordsOf, List.getElem?_zipWith, List.getElem?_map]
  change _ = Option.map _ es[i]?
  change Option.map _ (offsetsOf 0 es)[i]? = _ at hbytes
  cases he : es[i]? with
  | none => simp
  | some e =>
    rw [he] at hbytes
    cases ho : (offsetsOf 0 es)[i]? with
    | none => simp [ho] at hbytes
    | some o =>
      rw [ho] at hbytes
      have hslice : slice (payloadsOf es) o.1 o.2 = e.bytes := Option.some.inj hbytes
      simp [hslice, Emission.delivery]

/-! ## Primary mode -/

/-- The next hop that primary mode selects for a frame: none without a header or a route. -/
def selectedHop (routes : Table) (p : Bytes) : Option Id :=
  if p.length < headerSize then none
  else routes.lookupSprayPrimary (Packet.dstId p) (Packet.flowLabel p)

/-- The frame with the selected next hop in bytes 32 to 64, or as it is. -/
def readdressed (routes : Table) (p : Bytes) : Bytes :=
  match selectedHop routes p with
  | some nextHop => redirected p nextHop
  | none => p

/-- **Nothing is lost.** An encrypted delivery is the frame redirected, its payload replaced by the
ciphertext, and the tag put between that and the remaining bytes; any other is the frame,
redirected to the selected next hop if there is one. -/
def Delivery.KeepsBytes (routes : Table) (session : Option HybridSession) (d : Delivery) : Prop :=
  if d.encrypted then
    ∃ nextHop S ct tag, selectedHop routes d.frame = some nextHop ∧ session = some S ∧
      S.encryptIntoSlice (Packet.payload d.frame) (Packet.seqNum d.frame) = .ok (ct, tag) ∧
      ct.length = Packet.payloadLen d.frame ∧
      d.bytes = (redirected d.frame nextHop).take headerSize ++ ct ++ tag.toList ++
        d.frame.drop (headerSize + Packet.payloadLen d.frame)
  else d.bytes = readdressed routes d.frame

/-- The frame is routed and there is nothing to encrypt: no session, or no payload. -/
def forwardsInClear (routes : Table) (session : Option HybridSession) (p : Bytes) : Bool :=
  (selectedHop routes p).isSome && (session.isNone || Packet.payloadLen p == 0)

section Frame

variable {routes : Table} {session : Option HybridSession} {p : Bytes}

theorem primaryEmission_of_none (h : selectedHop routes p = none) :
    primaryEmission routes session p = .plain p p true := by
  unfold selectedHop at h
  unfold primaryEmission
  split_ifs at h ⊢
  · rfl
  · rw [h]

theorem primaryEmission_of_some (session : Option HybridSession) {nextHop : Id}
    (h : selectedHop routes p = some nextHop) :
    headerSize ≤ p.length ∧ primaryEmission routes session p =
      match attempt session p with
      | .skipped =>
        if headerSize + Packet.payloadLen p ≤ p.length then
          .plain p ((redirected p nextHop).take (headerSize + Packet.payloadLen p)) false
        else .plain p (redirected p nextHop) true
      | .truncated => .plain p (redirected p nextHop) true
      | .refused => .plain p (redirected p nextHop) true
      | .sealed call ct tag =>
        ⟨p, sealedPacket (redirected p nextHop) ct tag
          (p.drop (headerSize + Packet.payloadLen p)), some call, false⟩ := by
  unfold selectedHop at h
  split_ifs at h with hp
  replace hp := not_lt.mp hp
  have hdrop := drop_redirected hp nextHop (Nat.le_add_right headerSize (Packet.payloadLen p))
  refine ⟨hp, ?_⟩
  cases hattempt : attempt session p <;>
    simp only [primaryEmission, if_neg (not_lt.mpr hp), h, attempt_redirected hp, hattempt,
      length_redirected hp, hdrop]

theorem keepsBytes_plain_iff (frame bytes : Bytes) (miss : Bool) :
    (Emission.plain frame bytes miss).delivery.KeepsBytes routes session ↔
      bytes = readdressed routes frame := Iff.rfl

/-- **One frame** keeps its bytes exactly when it is not forwarded in the clear with bytes behind
its declared payload. -/
theorem keepsBytes_primaryEmission_iff :
    (primaryEmission routes session p).delivery.KeepsBytes routes session ↔
      (forwardsInClear routes session p → p.length ≤ headerSize + Packet.payloadLen p) := by
  cases hhop : selectedHop routes p with
  | none =>
    rw [primaryEmission_of_none hhop, keepsBytes_plain_iff, readdressed, hhop, forwardsInClear,
      hhop]
    simp
  | some nextHop =>
    obtain ⟨hp, he⟩ := primaryEmission_of_some session hhop
    have hto : readdressed routes p = redirected p nextHop := by rw [readdressed, hhop]
    have hlen := length_redirected hp nextHop
    rcases attempt_cases session p with ⟨hskip, ha⟩ | ⟨S, rfl, hpos, hlt, ha⟩ |
      ⟨S, e, rfl, hpos, hle, -, ha⟩ | ⟨S, ct, tag, rfl, hpos, hle, hok, ha⟩
    · have hclear : forwardsInClear routes session p := by
        rw [forwardsInClear, hhop]
        rcases hskip with rfl | h0
        · rfl
        · simp [h0]
      rw [he, ha]
      simp only [hclear, true_imp_iff]
      split_ifs with hstop
      · -- the frame is cut behind its declared payload
        rw [keepsBytes_plain_iff, hto, ← hlen]
        exact ⟨fun h => by simpa using congrArg List.length h, List.take_of_length_le⟩
      · rw [keepsBytes_plain_iff, hto]
        exact iff_of_true rfl (by omega)
    all_goals
      have hseal : ¬ forwardsInClear routes (some S) p := by
        simp [forwardsInClear, hpos.ne']
      rw [he, ha]
      refine iff_of_true ?_ fun h => absurd h hseal
    · exact hto.symm
    · exact hto.symm
    · refine ⟨nextHop, S, ct, tag, hhop, rfl, hok, length_ct hle hok, ?_⟩
      rfl

end Frame

namespace Forwarder

variable (f : Forwarder) (g : Telemetry)

theorem deliveries_processPrimary (frames : List Bytes) :
    (f.processPrimary g (f.startMcr frames) frames).deliveries =
      frames.map fun p => (primaryEmission f.routes f.session p).delivery := by
  rw [(f.sends_processPrimary g (f.fresh_startMcr frames) frames).deliveries_eq,
    flatMap_primaryEmissions, List.map_map]
  rfl

end Forwarder

theorem frame_primaryEmission (routes : Table) (session : Option HybridSession) (p : Bytes) :
    (primaryEmission routes session p).frame = p := by
  rcases primaryEmission_cases routes session p with ⟨-, bytes, miss, -, he⟩ |
    ⟨-, nh, S, ct, tag, -, -, -, -, he⟩
  · rw [he]
    rfl
  · rw [he]

theorem Forwarder.deliveries_processBatchMcr_primary (f : Forwarder) (g : Telemetry) (threads : ℕ)
    (frames : List Bytes) (hmode : f.mcrSprayMode ≠ "full") :
    (f.processBatchMcr g threads frames).deliveries =
      frames.map fun p => (primaryEmission f.routes f.session p).delivery := by
  rw [processBatchMcr, if_pos hmode]
  split_ifs with hempty
  · rw [List.isEmpty_iff.mp hempty]
    rfl
  · exact f.deliveries_processPrimary g frames

/-- **Primary mode loses no bytes exactly when** no routed frame that it forwards in the clear, for
want of a session or of a payload, has bytes behind its declared payload. There is one delivery for
each frame, in order. -/
theorem processBatchMcr_keepsBytes_iff (f : Forwarder) (g : Telemetry) (threads : ℕ)
    (frames : List Bytes) (hmode : f.mcrSprayMode ≠ "full") :
    ((f.processBatchMcr g threads frames).deliveries.map Delivery.frame = frames ∧
        ∀ d ∈ (f.processBatchMcr g threads frames).deliveries,
          d.KeepsBytes f.routes f.session) ↔
      ∀ p ∈ frames, forwardsInClear f.routes f.session p →
        p.length ≤ headerSize + Packet.payloadLen p := by
  have hdeliv := f.deliveries_processBatchMcr_primary g threads frames hmode
  have hframes : (f.processBatchMcr g threads frames).deliveries.map Delivery.frame = frames := by
    rw [hdeliv, List.map_map]
    exact (List.map_congr_left fun p _ => frame_primaryEmission f.routes f.session p).trans
      (List.map_id frames)
  rw [and_iff_right hframes, hdeliv, List.forall_mem_map]
  exact forall₂_congr fun p _ => keepsBytes_primaryEmission_iff

/-- A routed packet of zeros whose payload is encrypted, with a byte behind it. -/
theorem processBatchMcr_keepsBytes_zeroPacket :
    (zeroForwarder [] true "primary").mcrSprayMode ≠ "full" ∧
      ((zeroForwarder [] true "primary").processBatchMcr {} 1 [zeroPacket [7]]).deliveries.map
        Delivery.frame = [zeroPacket [7]] := by
  refine ⟨by decide, ((processBatchMcr_keepsBytes_iff (zeroForwarder [] true "primary") {} 1
    [zeroPacket [7]] (by decide)).mpr ?_).1⟩
  intro p hp hclear
  obtain rfl := List.mem_singleton.mp hp
  rw [forwardsInClear, payloadLen_zeroPacket] at hclear
  simp [zeroForwarder, Forwarder.withSession] at hclear

/-- A header of zeros, which declares no payload, and one byte behind it. -/
def zeroHeader : Bytes := List.replicate 97 0

/-- **The byte behind the header is lost.** -/
theorem not_keepsBytes_zeroHeader :
    ¬ ∀ d ∈ ((zeroForwarder [] true "primary").processBatchMcr {} 1 [zeroHeader]).deliveries,
      d.KeepsBytes (zeroForwarder [] true "primary").routes
        (zeroForwarder [] true "primary").session := by
  rw [Forwarder.deliveries_processBatchMcr_primary _ _ _ _ (by decide), List.forall_mem_map]
  intro h
  have hkeeps := keepsBytes_primaryEmission_iff.mp (h zeroHeader (List.mem_singleton_self _))
  have hroute : (zeroForwarder [] true "primary").routes.shardEntry (Packet.dstId zeroHeader) =
      some (zeroRoute []) := by
    have hdst : Packet.dstId zeroHeader = (zeroRoute []).destId := by decide
    rw [hdst]
    exact (Table.shardEntry_write _ _ _).trans (if_pos rfl)
  have hlen : Packet.payloadLen zeroHeader = 0 := by decide
  have hlong : ¬ zeroHeader.length < headerSize := by decide
  have hclear : forwardsInClear (zeroForwarder [] true "primary").routes
      (zeroForwarder [] true "primary").session zeroHeader := by
    rw [forwardsInClear, selectedHop, if_neg hlong, Table.lookupSprayPrimary, hroute, hlen]
    simp
  have hle := hkeeps hclear
  rw [hlen] at hle
  exact absurd hle (by decide)

end SmipMwp.Datapath
