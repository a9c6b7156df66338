import SmipMwp.Datapath.Forwarder

/-!
# What the paths emit

The abstract side of the datapath: an `Emission` is one packet leaving the forwarder, with the
frame it came from, the session call that sealed it, if any, and whether it was counted as a miss.
Each path emits, for a frame, packets that are a function of the frame, the routes and the session
(`serialEmissions`, `ownedEmissions`, `primaryEmissions`, `sprayEmissions`,
`sprayOwnedEmissions`). Three of the paths differ only in a `Layout`: what follows the tag of a
sealed packet, what is left of a packet the cipher refused, and whether a frame too short for a
header is a miss.
-/

namespace SmipMwp.Datapath

open Crypto Routing Wire

structure Emission where
  /-- The input frame. -/
  frame : Bytes
  /-- The packet sent. -/
  bytes : Bytes
  /-- The session call whose ciphertext the packet carries. -/
  sealed : Option SealCall
  miss : Bool
  deriving DecidableEq

/-- The packet is counted in `stats.encrypted`. -/
def Emission.encrypted (e : Emission) : Bool := e.sealed.isSome

/-- A packet sent without encryption. -/
def Emission.plain (frame bytes : Bytes) (miss : Bool) : Emission := ⟨frame, bytes, none, miss⟩

/-! ## Encrypting the payload -/

/-- The outcome of encrypting the declared payload of a packet. -/
inductive Attempt
  /-- No session, or no payload. -/
  | skipped
  /-- The packet is shorter than the header declares. -/
  | truncated
  /-- The session refused. -/
  | refused
  | sealed (call : SealCall) (ct : Bytes) (tag : Tag)

def attempt (session : Option HybridSession) (p : Bytes) : Attempt :=
  match session with
  | none => .skipped
  | some session =>
    if Packet.payloadLen p = 0 then .skipped
    else if p.length < headerSize + Packet.payloadLen p then .truncated
    else
      match session.encryptIntoSlice (Packet.payload p) (Packet.seqNum p) with
      | .ok (ct, tag) => .sealed ⟨session.buildNonce (Packet.seqNum p), Packet.payload p⟩ ct tag
      | .error _ => .refused

/-- The four outcomes, with what each says of the packet. -/
theorem attempt_cases (session : Option HybridSession) (p : Bytes) :
    ((session = none ∨ Packet.payloadLen p = 0) ∧ attempt session p = .skipped) ∨
    (∃ S, session = some S ∧ 0 < Packet.payloadLen p ∧
      p.length < headerSize + Packet.payloadLen p ∧ attempt session p = .truncated) ∨
    (∃ S e, session = some S ∧ 0 < Packet.payloadLen p ∧
      headerSize + Packet.payloadLen p ≤ p.length ∧
      S.encryptIntoSlice (Packet.payload p) (Packet.seqNum p) = .error e ∧
      attempt session p = .refused) ∨
    (∃ S ct tag, session = some S ∧ 0 < Packet.payloadLen p ∧
      headerSize + Packet.payloadLen p ≤ p.length ∧
      S.encryptIntoSlice (Packet.payload p) (Packet.seqNum p) = .ok (ct, tag) ∧
      attempt session p =
        .sealed ⟨S.buildNonce (Packet.seqNum p), Packet.payload p⟩ ct tag) := by
  rcases session with _ | S
  · exact .inl ⟨.inl rfl, rfl⟩
  by_cases h0 : Packet.payloadLen p = 0
  · exact .inl ⟨.inr h0, by simp only [attempt, if_pos h0]⟩
  by_cases hlen : p.length < headerSize + Packet.payloadLen p
  · exact .inr (.inl ⟨S, rfl, by omega, hlen, by simp only [attempt, if_neg h0, if_pos hlen]⟩)
  rcases hr : S.encryptIntoSlice (Packet.payload p) (Packet.seqNum p) with e | ⟨ct, tag⟩
  · exact .inr (.inr (.inl ⟨S, e, rfl, by omega, by omega, hr,
      by simp only [attempt, if_neg h0, if_neg hlen, hr]⟩))
  · exact .inr (.inr (.inr ⟨S, ct, tag, rfl, by omega, by omega, hr,
      by simp only [attempt, if_neg h0, if_neg hlen, hr]⟩))

/-- The attempt sealed the payload. -/
def Attempt.isSealed : Attempt → Bool
  | .sealed _ _ _ => true
  | _ => false

/-- The session refused the payload. -/
def Attempt.isRefused : Attempt → Bool
  | .refused => true
  | _ => false

/-- Header, ciphertext and tag, and what the path puts after them. -/
def sealedPacket (p ct : Bytes) (tag : Tag) (trailing : Bytes) : Bytes :=
  p.take headerSize ++ ct ++ tag.toList ++ trailing

/-! ## Layouts -/

structure Layout where
  /-- What follows the tag. -/
  trailing : Bytes → Bytes
  /-- What is sent of a packet whose encryption the session refused. -/
  refused : Bytes → Bytes
  /-- Whether a frame without a whole header is a miss. -/
  shortMiss : Bool

namespace Layout

/-- `handle_packet`: the bytes after the declared payload are dropped. -/
def serial : Layout where
  trailing := fun _ => []
  refused := id
  shortMiss := false

/-- `process_packet_owned`: the tag replaces the 16 bytes after the payload. -/
def owned : Layout where
  trailing := fun p => p.drop (headerSize + Packet.payloadLen p + tagSize)
  refused := fun p => resize p (headerSize + Packet.payloadLen p + tagSize) 0
  shortMiss := false

/-- The serial full spray: the tag is put before the bytes after the payload. -/
def spray : Layout where
  trailing := fun p => p.drop (headerSize + Packet.payloadLen p)
  refused := id
  shortMiss := true

end Layout

/-- `lookup_or_predict` finds a hop for the packet. -/
def isRouted (routes : Table) (p : Bytes) : Bool :=
  (routes.lookupOrPredict (Packet.srcId p) (Packet.dstId p) (Packet.flowLabel p)).isSome

/-- What is sent of the routed packet `p`, by the outcome of its encryption. -/
def Layout.attempted (l : Layout) (frame p : Bytes) : Attempt → Emission
  | .skipped => .plain frame p false
  | .truncated => .plain frame p true
  | .refused => .plain frame (l.refused p) true
  | .sealed call ct tag => ⟨frame, sealedPacket p ct tag (l.trailing p), some call, false⟩

/-- The packet `p` made of `frame`, as a path of the given layout sends it. -/
def emission (l : Layout) (routes : Table) (session : Option HybridSession) (frame p : Bytes) :
    Emission :=
  if p.length < headerSize then .plain frame p l.shortMiss
  else if isRouted routes p then l.attempted frame p (attempt session p)
  else .plain frame p true

theorem emission_frame (l : Layout) (routes : Table) (session : Option HybridSession)
    (frame p : Bytes) : (emission l routes session frame p).frame = frame := by
  unfold emission
  split_ifs
  · rfl
  · cases attempt session p <;> rfl
  · rfl

/-- The packet has a header, a route, and a payload that the session seals. -/
def encrypts (routes : Table) (session : Option HybridSession) (p : Bytes) : Bool :=
  decide (headerSize ≤ p.length) && isRouted routes p && (attempt session p).isSealed

/-- The packet has a header and a route, and the session refuses its payload. -/
def refuses (routes : Table) (session : Option HybridSession) (p : Bytes) : Bool :=
  decide (headerSize ≤ p.length) && isRouted routes p && (attempt session p).isRefused

/-- What is sent of a packet: itself, what is left of it when the session refuses it, or its sealed
form. -/
theorem emission_cases (l : Layout) (routes : Table) (session : Option HybridSession)
    (frame p : Bytes) :
    (encrypts routes session p = false ∧
      ∃ miss, emission l routes session frame p = .plain frame p miss) ∨
    (encrypts routes session p = false ∧ refuses routes session p = true ∧
      emission l routes session frame p = .plain frame (l.refused p) true) ∨
    (encrypts routes session p = true ∧ ∃ S ct tag, session = some S ∧ 0 < Packet.payloadLen p ∧
      headerSize + Packet.payloadLen p ≤ p.length ∧
      S.encryptIntoSlice (Packet.payload p) (Packet.seqNum p) = .ok (ct, tag) ∧
      emission l routes session frame p = ⟨frame, sealedPacket p ct tag (l.trailing p),
        some ⟨S.buildNonce (Packet.seqNum p), Packet.payload p⟩, false⟩) := by
  unfold emission encrypts refuses
  split_ifs with hp hr
  · exact .inl ⟨by rw [decide_eq_false (not_le.mpr hp)]; rfl, _, rfl⟩
  · rw [decide_eq_true (not_lt.mp hp), hr]
    rcases attempt_cases session p with ⟨-, ha⟩ | ⟨S, -, -, -, ha⟩ | ⟨S, e, -, -, -, -, ha⟩ |
      ⟨S, ct, tag, hS, hpos, hle, hok, ha⟩ <;> rw [ha]
    · exact .inl ⟨rfl, _, rfl⟩
    · exact .inl ⟨rfl, _, rfl⟩
    · exact .inr (.inl ⟨rfl, rfl, rfl⟩)
    · exact .inr (.inr ⟨rfl, S, ct, tag, hS, hpos, hle, hok, rfl⟩)
  · exact .inl ⟨by rw [Bool.eq_false_iff.mpr hr, Bool.and_false]; rfl, _, rfl⟩

/-- Which packets are encrypted does not depend on the layout. -/
theorem emission_encrypted (l : Layout) (routes : Table) (session : Option HybridSession)
    (frame p : Bytes) :
    (emission l routes session frame p).encrypted = encrypts routes session p := by
  rcases emission_cases l routes session frame p with ⟨henc, miss, he⟩ | ⟨henc, -, he⟩ |
    ⟨henc, S, ct, tag, -, -, -, -, he⟩ <;> rw [he, henc] <;> rfl

/-! ## A packet that is encrypted -/

/-- A packet of zeros with a payload of sixteen, and `trailing` behind it. -/
def zeroPacket (trailing : Bytes) : Bytes :=
  List.replicate 95 0 ++ [16] ++ List.replicate 16 0 ++ trailing

/-- A route to destination zero. -/
def zeroRoute (alternates : List Id) : RouteEntry where
  destId := Vector.replicate 32 0
  nextHopId := Vector.replicate 32 1
  alternateChannels := alternates

theorem length_zeroPacket (trailing : Bytes) :
    (zeroPacket trailing).length = 112 + trailing.length := by
  simp [zeroPacket]
  omega

theorem slice_zeroPacket (trailing : Bytes) {off n : ℕ} (h : off + n ≤ 112) :
    slice (zeroPacket trailing) off n = slice (zeroPacket []) off n := by
  rw [zeroPacket, slice_append_left (by simpa using h), zeroPacket, List.append_nil]

theorem dstId_zeroPacket (trailing : Bytes) :
    Packet.dstId (zeroPacket trailing) = Vector.replicate 32 0 :=
  (readArray_congr (slice_zeroPacket trailing (by decide))).trans (by decide)

theorem payloadLen_zeroPacket (trailing : Bytes) :
    Packet.payloadLen (zeroPacket trailing) = 16 := by
  rw [Packet.payloadLen, readBe, slice_zeroPacket trailing (by decide)]
  rfl

theorem seqNum_zeroPacket (trailing : Bytes) : Packet.seqNum (zeroPacket trailing) = 0 := by
  rw [Packet.seqNum, readBe, slice_zeroPacket trailing (by decide)]
  rfl

theorem payload_zeroPacket (trailing : Bytes) :
    Packet.payload (zeroPacket trailing) = List.replicate 16 0 := by
  rw [Packet.payload, payloadLen_zeroPacket, slice_zeroPacket trailing (by decide)]
  rfl

theorem isSealed_attempt_zeroPacket (trailing : Bytes) :
    (attempt (some .zero) (zeroPacket trailing)).isSealed = true := by
  have hpos : ¬ Packet.payloadLen (zeroPacket trailing) = 0 := by
    rw [payloadLen_zeroPacket]
    decide
  have hfit : ¬ (zeroPacket trailing).length <
      headerSize + Packet.payloadLen (zeroPacket trailing) := by
    rw [payloadLen_zeroPacket, length_zeroPacket, headerSize]
    omega
  simp only [attempt, hpos, hfit, if_false, payload_zeroPacket]
  rfl

/-- It is encrypted wherever its destination has a route. -/
theorem encrypts_zeroPacket {routes : Table} {e : RouteEntry} (trailing : Bytes)
    (he : routes.shardEntry (Vector.replicate 32 0) = some e) :
    encrypts routes (some .zero) (zeroPacket trailing) = true := by
  have hle : headerSize ≤ (zeroPacket trailing).length := by
    rw [length_zeroPacket, headerSize]
    omega
  have hr : isRouted routes (zeroPacket trailing) = true := by
    rw [isRouted, Table.lookupOrPredict, Table.lookupNextHop, dstId_zeroPacket, he]
    rfl
  rw [encrypts, decide_eq_true hle, hr, isSealed_attempt_zeroPacket]
  rfl

/-- A new forwarder with one route to destination zero. -/
def zeroForwarder (alternates : List Id) (mcrEnabled : Bool) (mcrSprayMode : String) : Forwarder :=
  .withSession (Table.new.updateRoute (zeroRoute alternates)) (some .zero) mcrEnabled mcrSprayMode
    false

theorem encrypts_zeroForwarder (alternates : List Id) (mcrEnabled : Bool) (mcrSprayMode : String)
    (trailing : Bytes) :
    encrypts (zeroForwarder alternates mcrEnabled mcrSprayMode).routes (some .zero)
      (zeroPacket trailing) = true :=
  encrypts_zeroPacket trailing ((Table.shardEntry_write _ _ _).trans (if_pos rfl))

/-! ## Redirected packets -/

/-- The frame with its destination rewritten to the next hop. -/
def redirected (p : Bytes) (nextHop : Id) : Bytes := overwrite p dstOffset nextHop.toList

section Redirected

variable {p : Bytes} (h : headerSize ≤ p.length) (nh : Id)

include h

theorem redirected_inBounds : dstOffset + nh.toList.length ≤ p.length := by
  simp only [headerSize, dstOffset, Vector.length_toList] at *
  omega

@[simp] theorem length_redirected : (redirected p nh).length = p.length :=
  length_overwrite (redirected_inBounds h nh)

theorem srcId_redirected : Packet.srcId (redirected p nh) = Packet.srcId p :=
  readArray_congr (slice_overwrite_of_le (redirected_inBounds h nh) (by decide))

theorem dstId_redirected : Packet.dstId (redirected p nh) = nh := by
  apply Vector.toList_inj.mp
  have hle := redirected_inBounds h nh
  have hself := slice_overwrite_self hle
  rw [Vector.length_toList] at hle hself
  rwa [Packet.dstId, toList_readArray (by rwa [length_redirected h])]

/-- A field that lies behind the destination is not changed. -/
theorem slice_redirected {off n : ℕ} (hoff : flowOffset ≤ off) :
    slice (redirected p nh) off n = slice p off n :=
  slice_overwrite_of_ge (redirected_inBounds h nh) (by rwa [Vector.length_toList])

theorem flowLabel_redirected : Packet.flowLabel (redirected p nh) = Packet.flowLabel p := by
  rw [Packet.flowLabel, readBe, slice_redirected h nh (by decide)]
  rfl

theorem seqNum_redirected : Packet.seqNum (redirected p nh) = Packet.seqNum p := by
  rw [Packet.seqNum, readBe, slice_redirected h nh (by decide)]
  rfl

theorem payloadLen_redirected : Packet.payloadLen (redirected p nh) = Packet.payloadLen p := by
  rw [Packet.payloadLen, readBe, slice_redirected h nh (by decide)]
  rfl

theorem payload_redirected : Packet.payload (redirected p nh) = Packet.payload p := by
  rw [Packet.payload, slice_redirected h nh (by decide), payloadLen_redirected h]
  rfl

theorem header_redirected :
    Packet.header (redirected p nh) = { Packet.header p with dstId := nh } := by
  simp only [Packet.header, srcId_redirected h, dstId_redirected h, flowLabel_redirected h,
    seqNum_redirected h, readArray, readBe]
  rw [slice_redirected h nh (by decide), slice_redirected h nh (by decide),
    slice_redirected h nh (by decide)]

theorem drop_redirected {n : ℕ} (hn : headerSize ≤ n) : (redirected p nh).drop n = p.drop n :=
  drop_overwrite (redirected_inBounds h nh) (by simp only [headerSize, dstOffset] at *; simp; omega)

omit h in
theorem take_redirected (nh : Id) {n : ℕ} (hn : headerSize ≤ n) (hn' : n ≤ p.length) :
    (redirected p nh).take n = redirected (p.take n) nh :=
  take_overwrite_of_ge (by simp only [headerSize, dstOffset] at *; simp; omega) hn'

theorem attempt_redirected (session : Option HybridSession) :
    attempt session (redirected p nh) = attempt session p := by
  simp only [attempt, payloadLen_redirected h, seqNum_redirected h, payload_redirected h,
    length_redirected h]

end Redirected

/-- A table with a single route predicts its next hop for every destination. -/
theorem isRouted_of_singleton {routes : Table} {nh : Id}
    (h : routes.inner.predictiveNextHops = [nh]) (p : Bytes) : isRouted routes p = true := by
  rw [isRouted, Table.lookupOrPredict]
  cases routes.lookupNextHop (Packet.dstId p) (Packet.flowLabel p) with
  | some nh' => rfl
  | none =>
    simp only [Table.lookupPredictiveFallback, h]
    rfl

/-! ## Copies -/

theorem length_sprayChannels (routes : Table) (d : Id) (flowLabel : UInt32) :
    (sprayChannels routes d flowLabel).length =
      ((routes.shardEntry d).map fun e => min (1 + e.alternateChannels.length) 16).getD 0 := by
  have hcount := routes.lookupSprayBuf_count d flowLabel channelsBuf
  have hlen := routes.length_lookupSprayBuf d flowLabel channelsBuf
  have hbuf : channelsBuf.length = 16 := List.length_replicate
  rw [hbuf] at hcount hlen
  simp only [sprayChannels, List.length_map, List.length_take, hcount, hlen]
  cases routes.shardEntry d with
  | none => rfl
  | some e =>
    simp only [Option.map_some, Option.getD_some]
    omega

section Duplicate

variable {routes : Table} {p q : Bytes}

/-- A copy is the frame, or the frame redirected to a channel. -/
theorem eq_or_redirected_of_mem_duplicate (hq : q ∈ duplicate routes p) :
    q = p ∨ headerSize ≤ p.length ∧ ∃ nh, q = redirected p nh := by
  by_cases hp : p.length < headerSize
  · rw [duplicate, HeaderViewRef.new_of_lt hp] at hq
    exact .inl (List.mem_singleton.mp hq)
  obtain ⟨v, hv, -⟩ := HeaderViewRef.new_of_le (not_lt.mp hp)
  simp only [duplicate, hv] at hq
  split_ifs at hq
  · exact .inl (List.mem_singleton.mp hq)
  · obtain ⟨nh, -, rfl⟩ := List.mem_map.mp hq
    exact .inr ⟨not_lt.mp hp, nh, rfl⟩

theorem length_of_mem_duplicate (hq : q ∈ duplicate routes p) : q.length = p.length := by
  rcases eq_or_redirected_of_mem_duplicate hq with rfl | ⟨hp, nh, rfl⟩
  · rfl
  · exact length_redirected hp nh

theorem payloadLen_of_mem_duplicate (hq : q ∈ duplicate routes p) :
    Packet.payloadLen q = Packet.payloadLen p := by
  rcases eq_or_redirected_of_mem_duplicate hq with rfl | ⟨hp, nh, rfl⟩
  · rfl
  · exact payloadLen_redirected hp nh

theorem duplicate_of_lt (hp : p.length < headerSize) : duplicate routes p = [p] := by
  rw [duplicate, HeaderViewRef.new_of_lt hp]

/-- A frame whose destination has a route is copied once for each channel. -/
theorem length_duplicate_of_shardEntry {e : RouteEntry}
    (hp : headerSize ≤ p.length) (he : routes.shardEntry (Packet.dstId p) = some e) :
    (duplicate routes p).length = min (1 + e.alternateChannels.length) 16 := by
  obtain ⟨v, hv, -, hdst, -⟩ := HeaderViewRef.new_of_le hp
  have hlen := length_sprayChannels routes v.dstId v.flowLabel
  rw [hdst, he, Option.map_some, Option.getD_some] at hlen
  have hne : ¬ (sprayChannels routes v.dstId v.flowLabel).isEmpty = true := by
    rw [hdst, List.isEmpty_iff_length_eq_zero, hlen]
    omega
  simp only [duplicate, hv, if_neg hne]
  rw [List.length_map, hdst, hlen]

end Duplicate

/-! ## The five paths -/

section Paths

variable (routes : Table) (session : Option HybridSession) (frame : Bytes)

/-- The serial branch of `process_batch`, and `process_batch_slices`. -/
def serialEmissions : List Emission := [emission .serial routes session frame frame]

/-- The rayon branch of `process_batch`. -/
def ownedEmissions : List Emission := [emission .owned routes session frame frame]

theorem flatMap_serialEmissions (frames : List Bytes) :
    frames.flatMap (serialEmissions routes session) =
      frames.map fun p => emission .serial routes session p p :=
  List.map_eq_flatMap.symm

theorem flatMap_ownedEmissions (frames : List Bytes) :
    frames.flatMap (ownedEmissions routes session) =
      frames.map fun p => emission .owned routes session p p :=
  List.map_eq_flatMap.symm

/-- What the primary branch of `process_batch_mcr` sends for a frame. A packet that is not
encrypted is cut to the declared length, unless it is a miss. -/
def primaryEmission : Emission :=
  if frame.length < headerSize then .plain frame frame true
  else
    match routes.lookupSprayPrimary (Packet.dstId frame) (Packet.flowLabel frame) with
    | none => .plain frame frame true
    | some nextHop =>
      let p := redirected frame nextHop
      let stop := headerSize + Packet.payloadLen frame
      match attempt session p with
      | .skipped =>
        if stop ≤ p.length then .plain frame (p.take stop) false else .plain frame p true
      | .truncated => .plain frame p true
      | .refused => .plain frame p true
      | .sealed call ct tag => ⟨frame, sealedPacket p ct tag (p.drop stop), some call, false⟩

/-- The primary branch encrypts the frame. -/
def encryptsPrimary : Bool :=
  decide (headerSize ≤ frame.length) &&
    (routes.lookupSprayPrimary (Packet.dstId frame) (Packet.flowLabel frame)).isSome &&
    (attempt session frame).isSealed

/-- What the primary branch sends: bytes no longer than the frame, or the sealed frame with its
destination rewritten. -/
theorem primaryEmission_cases :
    (encryptsPrimary routes session frame = false ∧ ∃ bytes miss, bytes.length ≤ frame.length ∧
      primaryEmission routes session frame = .plain frame bytes miss) ∨
    (encryptsPrimary routes session frame = true ∧ ∃ nh S ct tag, session = some S ∧
      0 < Packet.payloadLen frame ∧ headerSize + Packet.payloadLen frame ≤ frame.length ∧
      S.encryptIntoSlice (Packet.payload frame) (Packet.seqNum frame) = .ok (ct, tag) ∧
      primaryEmission routes session frame =
        ⟨frame, sealedPacket (redirected frame nh) ct tag
            (frame.drop (headerSize + Packet.payloadLen frame)),
          some ⟨S.buildNonce (Packet.seqNum frame), Packet.payload frame⟩, false⟩) := by
  unfold primaryEmission encryptsPrimary
  split_ifs with hp
  · exact .inl ⟨by rw [decide_eq_false (not_le.mpr hp)]; rfl, _, _, le_rfl, rfl⟩
  replace hp := not_lt.mp hp
  rw [decide_eq_true hp, Bool.true_and]
  cases routes.lookupSprayPrimary (Packet.dstId frame) (Packet.flowLabel frame) with
  | none => exact .inl ⟨rfl, _, _, le_rfl, rfl⟩
  | some nh =>
    have hlen := length_redirected hp nh
    have hdrop := drop_redirected hp nh (Nat.le_add_right headerSize (Packet.payloadLen frame))
    simp only [hdrop, attempt_redirected hp, Option.isSome_some, Bool.true_and]
    rcases attempt_cases session frame with ⟨-, ha⟩ | ⟨S, -, -, -, ha⟩ |
      ⟨S, e, -, -, -, -, ha⟩ | ⟨S, ct, tag, hS, hpos, hle, hok, ha⟩ <;> simp only [ha]
    · refine .inl ⟨rfl, ?_⟩
      split_ifs with hstop
      · exact ⟨_, _, by rw [List.length_take, hlen]; omega, rfl⟩
      · exact ⟨_, _, hlen.le, rfl⟩
    · exact .inl ⟨rfl, _, _, hlen.le, rfl⟩
    · exact .inl ⟨rfl, _, _, hlen.le, rfl⟩
    · exact .inr ⟨rfl, nh, S, ct, tag, hS, hpos, hle, hok, rfl⟩

/-- The primary branch of `process_batch_mcr`. -/
def primaryEmissions : List Emission := [primaryEmission routes session frame]

theorem flatMap_primaryEmissions (frames : List Bytes) :
    frames.flatMap (primaryEmissions routes session) =
      frames.map (primaryEmission routes session) :=
  List.map_eq_flatMap.symm

/-- The serial full-spray branch. -/
def sprayEmissions : List Emission :=
  (duplicate routes frame).map (emission .spray routes session frame)

/-- The parallel full-spray branch. -/
def sprayOwnedEmissions : List Emission :=
  (duplicate routes frame).map (emission .owned routes session frame)

end Paths

/-! ## What a list of emissions amounts to -/

/-- The statistics after the emissions. -/
def ForwarderStats.tally (st : ForwarderStats) (es : List Emission) : ForwarderStats where
  received := st.received
  forwarded := st.forwarded + es.countP (!·.encrypted)
  encrypted := st.encrypted + es.countP (·.encrypted)
  routeMisses := st.routeMisses + es.countP (·.miss)

/-- The bytes of the emissions, one packet after another. -/
def payloadsOf (es : List Emission) : Bytes := (es.map Emission.bytes).flatten

/-- The offsets of the emissions, written from `start`. -/
def offsetsOf (start : ℕ) (es : List Emission) : List (ℕ × ℕ) :=
  offsetsFrom start (es.map Emission.bytes)

/-- The records of the emissions, written from `start`. -/
def recordsOf (start : ℕ) (es : List Emission) : List OutputRecord :=
  List.zipWith (fun e o => ⟨e.frame, o.1, o.2, e.encrypted⟩) es (offsetsOf start es)

@[simp] theorem tally_nil (st : ForwarderStats) : st.tally [] = st := by
  simp [ForwarderStats.tally]

theorem tally_append (st : ForwarderStats) (es fs : List Emission) :
    st.tally (es ++ fs) = (st.tally es).tally fs := by
  simp [ForwarderStats.tally, List.countP_append, Nat.add_assoc]

@[simp] theorem payloadsOf_nil : payloadsOf [] = [] := rfl

theorem payloadsOf_append (es fs : List Emission) :
    payloadsOf (es ++ fs) = payloadsOf es ++ payloadsOf fs := by
  simp [payloadsOf]

@[simp] theorem length_offsetsOf (start : ℕ) (es : List Emission) :
    (offsetsOf start es).length = es.length := by
  simp [offsetsOf]

theorem offsetsOf_append (start : ℕ) (es fs : List Emission) :
    offsetsOf start (es ++ fs) =
      offsetsOf start es ++ offsetsOf (start + (payloadsOf es).length) fs := by
  rw [offsetsOf, List.map_append, offsetsFrom_append]
  rfl

theorem recordsOf_append (start : ℕ) (es fs : List Emission) :
    recordsOf start (es ++ fs) =
      recordsOf start es ++ recordsOf (start + (payloadsOf es).length) fs := by
  rw [recordsOf, offsetsOf_append, List.zipWith_append (by simp)]
  rfl

end SmipMwp.Datapath
