import Mathlib.Order.Interval.Finset.Nat
import SmipMwp.Routing.Isolation

/-!
# Spray channels

A route with `t` channels, the next hop and then the alternates, is sprayed in the order that
exchanges the positions `0` and `flow_label mod t`. Three lookups compute this order on their own:
`lookup_spray_buf` writes a prefix of it into a buffer, `lookup_spray_primary` answers its first
element from a cache, and `lookup_spray_single` picks one element. They agree on one table
(`lookupSprayBuf_law`), and consecutive flow labels take turns as the first element
(`primary_fair`). `lookup_spray` goes through a buffer of 16 entries, and agrees with
`lookup_spray_single` on exactly the routes that fit (`lookupSpray_agrees_iff`).
-/

namespace SmipMwp.Routing

open Wire (Id)

/-! ## The channels of a route -/

namespace RouteEntry

/-- The channel at a position, as the lookups read it. -/
def channel (e : RouteEntry) (i : ℕ) : Id :=
  if i = 0 then e.nextHopId else e.alternateChannels.getD (i - 1) e.nextHopId

theorem length_channels (e : RouteEntry) :
    e.channels.length = 1 + e.alternateChannels.length := by
  rw [channels, List.length_cons, Nat.add_comm]

theorem length_channels_pos (e : RouteEntry) : 0 < e.channels.length := Nat.succ_pos _

theorem getElem?_channels {e : RouteEntry} {i : ℕ} (hi : i < e.channels.length) :
    e.channels[i]? = some (e.channel i) := by
  cases i with
  | zero => rfl
  | succ i =>
    rw [length_channels] at hi
    rw [channels, List.getElem?_cons_succ, channel, if_neg (Nat.succ_ne_zero i),
      Nat.add_sub_cancel, List.getD_eq_getElem?_getD, List.getElem?_eq_getElem (by omega),
      Option.getD_some]

/-- The position of the channel that the spray order has at `i`. -/
def sprayPosition (e : RouteEntry) (flowLabel : UInt32) (i : ℕ) : ℕ :=
  Equiv.swap 0 (flowLabel.toNat % e.channels.length) i

theorem sprayPosition_zero (e : RouteEntry) (flowLabel : UInt32) :
    e.sprayPosition flowLabel 0 = flowLabel.toNat % e.channels.length :=
  Equiv.swap_apply_left _ _

theorem sprayPosition_of_ne {e : RouteEntry} {flowLabel : UInt32} {i : ℕ} (hi : i ≠ 0) :
    e.sprayPosition flowLabel i =
      if i = flowLabel.toNat % e.channels.length then 0 else i := by
  rw [sprayPosition, Equiv.swap_apply_def, if_neg hi]

theorem sprayPosition_injective (e : RouteEntry) (flowLabel : UInt32) :
    Function.Injective (e.sprayPosition flowLabel) := (Equiv.swap _ _).injective

theorem sprayPosition_lt {e : RouteEntry} (flowLabel : UInt32) {i : ℕ}
    (hi : i < e.channels.length) : e.sprayPosition flowLabel i < e.channels.length := by
  have hmod := Nat.mod_lt flowLabel.toNat e.length_channels_pos
  rcases eq_or_ne i 0 with rfl | hne
  · rwa [sprayPosition_zero]
  · rw [sprayPosition_of_ne hne]
    split_ifs
    · exact e.length_channels_pos
    · exact hi

/-- The spray order goes through every position once. -/
theorem sprayPosition_perm (e : RouteEntry) (flowLabel : UInt32) :
    ((List.range e.channels.length).map (e.sprayPosition flowLabel)).Perm
      (List.range e.channels.length) := by
  have hnodup : ((List.range e.channels.length).map (e.sprayPosition flowLabel)).Nodup :=
    List.nodup_range.map (e.sprayPosition_injective flowLabel)
  refine (List.subperm_of_subset hnodup fun i hi => ?_).perm_of_length_le (by simp)
  obtain ⟨j, hj, rfl⟩ := List.mem_map.mp hi
  exact List.mem_range.mpr (sprayPosition_lt flowLabel (List.mem_range.mp hj))

/-- A route with one channel sprays over that one. -/
theorem sprayPosition_zero_of_nil {e : RouteEntry} (h : e.alternateChannels = [])
    (flowLabel : UInt32) : e.sprayPosition flowLabel 0 = 0 := by
  rw [sprayPosition_zero, length_channels, h]
  exact Nat.mod_one _

end RouteEntry

/-! ## The lookups -/

namespace Table

/-- `lookup_spray`: a stack buffer of 16 entries, cut to the number written. -/
def lookupSpray (t : Table) (dstId : Id) (flowLabel : UInt32) : List (Id × Bool) :=
  let (buf, count) := t.lookupSprayBuf dstId flowLabel (List.replicate 16 (zeroId, false))
  buf.take count

/-- `lookup_spray_single`. -/
def lookupSpraySingle (t : Table) (dstId : Id) (flowLabel : UInt32) (channelIdx : ℕ) :
    Option Id :=
  match t.shardEntry dstId with
  | some e =>
    let count := 1 + e.alternateChannels.length
    let flowIdx := if count > 1 then flowIndex count flowLabel else 0
    let targetIdx :=
      if isPowerOfTwo count then channelIdx &&& (count - 1) else channelIdx % count
    if targetIdx = 0 then
      if flowIdx = 0 then some e.nextHopId
      else some (e.alternateChannels.getD (flowIdx - 1) e.nextHopId)
    else if targetIdx = flowIdx then some e.nextHopId
    else some (e.alternateChannels.getD (targetIdx - 1) e.nextHopId)
  | none => none

/-- The first channel of the spray order. -/
theorem sprayPrimary_eq (e : RouteEntry) (flowLabel : UInt32) :
    sprayPrimary e flowLabel = e.channel (e.sprayPosition flowLabel 0) := by
  unfold sprayPrimary
  split_ifs with hempty
  · rw [RouteEntry.sprayPosition_zero_of_nil (List.isEmpty_iff.mp hempty)]
    rfl
  · rw [RouteEntry.sprayPosition_zero, RouteEntry.length_channels, flowIndex_eq_mod]
    rfl

/-- Any channel of the spray order, by its index. -/
theorem lookupSpraySingle_eq {t : Table} {d : Id} {e : RouteEntry} (he : t.shardEntry d = some e)
    (flowLabel : UInt32) (k : ℕ) :
    t.lookupSpraySingle d flowLabel k =
      some (e.channel (e.sprayPosition flowLabel (k % e.channels.length))) := by
  have hflow : (if 1 + e.alternateChannels.length > 1 then
      flowIndex (1 + e.alternateChannels.length) flowLabel else 0) =
      flowLabel.toNat % e.channels.length := by
    rw [flowIndex_eq_mod, RouteEntry.length_channels]
    split_ifs with h
    · rfl
    · rw [show 1 + e.alternateChannels.length = 1 by omega, Nat.mod_one]
  simp only [lookupSpraySingle, he, hflow, mask_or_mod]
  rw [← RouteEntry.length_channels]
  by_cases hk : k % e.channels.length = 0
  · rw [if_pos hk, hk, RouteEntry.sprayPosition_zero, RouteEntry.channel]
    split_ifs <;> rfl
  · rw [if_neg hk, RouteEntry.sprayPosition_of_ne hk]
    split_ifs
    · rfl
    · rw [RouteEntry.channel, if_neg hk]

/-- The entries that `lookup_spray_buf` writes: a prefix of the spray order, the first flagged. -/
theorem getElem?_lookupSprayBuf {t : Table} {d : Id} {e : RouteEntry}
    (he : t.shardEntry d = some e) (flowLabel : UInt32) (buf : List (Id × Bool)) (i : ℕ) :
    (t.lookupSprayBuf d flowLabel buf).1[i]? =
      if i < min e.channels.length buf.length then
        some (e.channel (e.sprayPosition flowLabel i), decide (i = 0))
      else buf[i]? := by
  simp only [lookupSprayBuf, he]
  rw [← RouteEntry.length_channels]
  by_cases hcount : min e.channels.length buf.length = 0
  · rw [if_pos hcount, if_neg (by omega)]
  · rw [if_neg hcount]
    by_cases hone : e.channels.length = 1
    · rw [if_pos hone, List.getElem?_set]
      rcases eq_or_ne i 0 with rfl | hi
      · have hnil : e.alternateChannels = [] := by
          rw [RouteEntry.length_channels] at hone
          exact List.length_eq_zero_iff.mp (by omega)
        rw [if_pos rfl, if_pos (by omega), if_pos (by omega),
          RouteEntry.sprayPosition_zero_of_nil hnil]
        rfl
      · rw [if_neg hi.symm, if_neg (by omega)]
    · rw [if_neg hone, getElem?_foldl_set_range' _ (by rw [List.length_set]; omega),
        List.getElem?_set, flowIndex_eq_mod]
      rcases eq_or_ne i 0 with rfl | hi
      · -- the primary channel, chosen by the flow
        have hmin : 0 < min e.channels.length buf.length := by omega
        have hbuf : 0 < buf.length := by omega
        rw [if_neg (by omega), if_pos rfl, if_pos hbuf, if_pos hmin, RouteEntry.sprayPosition_zero]
        rfl
      · -- the others in order, with the next hop in the place of the primary
        rw [if_neg hi.symm]
        refine if_congr (by omega) ?_ rfl
        rw [RouteEntry.sprayPosition_of_ne hi, decide_eq_false hi]
        split_ifs with hflow
        · rfl
        · rw [RouteEntry.channel, if_neg hi]

theorem lookupSprayBuf_count_eq {t : Table} {d : Id} {e : RouteEntry}
    (he : t.shardEntry d = some e) (flowLabel : UInt32) (buf : List (Id × Bool)) :
    (t.lookupSprayBuf d flowLabel buf).2 = min e.channels.length buf.length := by
  rw [lookupSprayBuf_count, he, RouteEntry.length_channels]
  rfl

end Table

/-! ## The list of one spray -/

/-- **The channel list law** for a route `e` of `d` on the table of a thread: `lookup_spray_buf`
writes the first channels of the spray order, as many as the route has and the buffer holds, each
position at most once, and flags the first. That one is also what `lookup_spray_primary` and
`lookup_spray_single` with index 0 answer. -/
structure SprayLaw (s : Thread Unit) (d : Id) (e : RouteEntry) (flowLabel : UInt32)
    (buf : List (Id × Bool)) : Prop where
  count : ((s.tables ()).lookupSprayBuf d flowLabel buf).2 = min e.channels.length buf.length
  entry : ∀ i < min e.channels.length buf.length,
    ((s.tables ()).lookupSprayBuf d flowLabel buf).1[i]? =
      e.channels[e.sprayPosition flowLabel i]?.map fun nh => (nh, decide (i = 0))
  rest : ∀ i ≥ min e.channels.length buf.length,
    ((s.tables ()).lookupSprayBuf d flowLabel buf).1[i]? = buf[i]?
  nodup : ((List.range (min e.channels.length buf.length)).map
    (e.sprayPosition flowLabel)).Nodup
  perm : e.channels.length ≤ buf.length →
    ((List.range (min e.channels.length buf.length)).map (e.sprayPosition flowLabel)).Perm
      (List.range e.channels.length)
  primary : 0 < buf.length → ∃ nh,
    ((s.tables ()).lookupSprayBuf d flowLabel buf).1[0]? = some (nh, true) ∧
      (s.tables ()).lookupSprayPrimary d flowLabel = some nh ∧
      s.answer () (.sprayPrimary d flowLabel) = some nh ∧
      (s.tables ()).lookupSpraySingle d flowLabel 0 = some nh

/-- **Spray channel lists on one table**: the law holds for every route, flow label and buffer,
after every run of up to `2^64 - 2` updates and any lookups. -/
theorem lookupSprayBuf_law {ops : List (Op Unit)} (hops : updates ops < 2 ^ 64 - 1) {d : Id}
    {e : RouteEntry} (he : Table.liveRoute (writes ops) d = some e) (flowLabel : UInt32)
    (buf : List (Id × Bool)) : SprayLaw (Thread.run ops) d e flowLabel buf := by
  have hshard : ((Thread.run ops).tables ()).shardEntry d = some e := by
    rw [tables_run, Table.shardEntry_ofWrites_eq_liveRoute, he]
  have hprimary : ((Thread.run ops).tables ()).lookupSprayPrimary d flowLabel =
      some (e.channel (e.sprayPosition flowLabel 0)) := by
    rw [Table.lookupSprayPrimary, hshard, Option.map_some, Table.sprayPrimary_eq]
  have hpos := e.length_channels_pos
  constructor
  case count => exact Table.lookupSprayBuf_count_eq hshard flowLabel buf
  case entry =>
    intro i hi
    have hlt := RouteEntry.sprayPosition_lt (e := e) flowLabel (i := i) (by omega)
    rw [Table.getElem?_lookupSprayBuf hshard, if_pos hi, RouteEntry.getElem?_channels hlt]
    rfl
  case rest =>
    intro i hi
    rw [Table.getElem?_lookupSprayBuf hshard, if_neg (by omega)]
  case nodup => exact List.nodup_range.map (e.sprayPosition_injective flowLabel)
  case perm =>
    intro hle
    rw [Nat.min_eq_left hle]
    exact e.sprayPosition_perm flowLabel
  case primary =>
    intro hbuf
    refine ⟨e.channel (e.sprayPosition flowLabel 0), ?_, hprimary, ?_, ?_⟩
    · rw [Table.getElem?_lookupSprayBuf hshard, if_pos (by omega)]
      rfl
    · rw [answer_run_eq hops, Table.answer_sprayPrimary, hprimary]
    · rw [Table.lookupSpraySingle_eq hshard, Nat.zero_mod]

/-- A route of three channels, sprayed into a buffer for two from its last channel on, after it took
the place of another and was looked up. -/
theorem lookupSprayBuf_law_three :
    let e := { zeroDestRoute 1 with
      alternateChannels := [Vector.replicate 32 2, Vector.replicate 32 3] }
    let ops := [Op.write () (.update (zeroDestRoute 4)), .lookup () (.sprayPrimary zeroId 5),
      .write () (.update { zeroDestRoute 5 with destId := Vector.replicate 32 9 }),
      .write () (.update e), .lookup () (.sprayPrimary zeroId 5)]
    updates ops < 2 ^ 64 - 1 ∧ Table.liveRoute (writes ops) zeroId = some e ∧
      SprayLaw (Thread.run ops) zeroId e 5 [(zeroId, false), (zeroId, false)] := by
  intro e ops
  have hops : updates ops < 2 ^ 64 - 1 := by decide
  have he : Table.liveRoute (writes ops) zeroId = some e := by decide
  exact ⟨hops, he, lookupSprayBuf_law hops he 5 _⟩

/-- A history of `2^64 - 1` updates that leaves the zero destination a route. -/
theorem exists_writes_wrap :
    ∃ ws : List Table.Write, ws.length = 2 ^ 64 - 1 ∧
      Table.liveRoute ws zeroId = some (zeroDestRoute 1) := by
  obtain ⟨ws, hws⟩ : ∃ ws : List Table.Write, ws.length = 2 ^ 64 - 2 :=
    ⟨List.replicate (2 ^ 64 - 2) (.remove zeroId), List.length_replicate⟩
  refine ⟨ws ++ [.update (zeroDestRoute 1)], ?_, ?_⟩
  · rw [List.length_append, hws]
    rfl
  · rw [Table.liveRoute_concat]
    rfl

/-- After `2^64 - 1` updates the cached primary of the zero destination is the zero line, not the
first channel of the list. -/
theorem sprayLaw_fails :
    ¬ ∀ (ops : List (Op Unit)) (d : Id) (e : RouteEntry),
      Table.liveRoute (writes ops) d = some e → ∀ flowLabel buf,
      SprayLaw (Thread.run ops) d e flowLabel buf := by
  intro h
  obtain ⟨ws, hws, hlive⟩ := exists_writes_wrap
  have hlaw := h (writeCalls ws) zeroId (zeroDestRoute 1) (by rw [writes_writeCalls, hlive]) 0
    [(zeroId, false)]
  obtain ⟨nh, -, hprimary, hanswer, -⟩ := hlaw.primary (by decide)
  rw [answer_run_writeCalls hws rfl] at hanswer
  obtain rfl := Option.some.inj hanswer
  rw [tables_run, writes_writeCalls, Table.lookupSprayPrimary,
    Table.shardEntry_ofWrites_eq_liveRoute, hlive] at hprimary
  exact absurd hprimary (by decide)

/-! ## Consecutive flow labels -/

/-- The `t` labels from `start` select each of the channels once: the answers are the channels at
the positions `position`, and these are all positions. -/
structure SelectsEach (channels : List Id) (start : ℕ) (position : UInt32 → ℕ)
    (answer : UInt32 → Option Id) : Prop where
  answers : ∀ i < channels.length, answer (UInt32.ofNat (start + i)) =
    channels[position (UInt32.ofNat (start + i))]?
  perm : ((List.range channels.length).map fun i => position (UInt32.ofNat (start + i))).Perm
    (List.range channels.length)

/-- Consecutive numbers have all remainders. -/
theorem map_add_mod_perm (start t : ℕ) :
    ((List.range t).map fun i => (start + i) % t).Perm (List.range t) := by
  have hmod : (Multiset.Ico start (start + t)).map (· % t) = Multiset.range t :=
    Nat.multiset_Ico_map_mod start t
  have hrange : Multiset.Ico start (start + t) = ↑((List.range t).map (start + ·)) := by
    rw [← List.range'_eq_map_range]
    exact congrArg (fun n => (↑(List.range' start n) : Multiset ℕ))
      (Nat.add_sub_cancel_left start t)
  rw [hrange, Multiset.map_coe, List.map_map] at hmod
  exact Multiset.coe_eq_coe.mp hmod

/-- **Primary channels are fair**: on one table, `t` consecutive flow labels that do not wrap select
each of the `t` channels of a route once. Each label may be looked up after a run of its own, of up
to `2^64 - 2` updates and any lookups, that leaves the route live. -/
theorem primary_fair {ops : UInt32 → List (Op Unit)}
    (hops : ∀ flowLabel, updates (ops flowLabel) < 2 ^ 64 - 1) {d : Id} {e : RouteEntry}
    (he : ∀ flowLabel, Table.liveRoute (writes (ops flowLabel)) d = some e) {start : ℕ}
    (hstart : start + e.channels.length ≤ 2 ^ 32) :
    SelectsEach e.channels start (flowIndex e.channels.length)
      fun flowLabel => (Thread.run (ops flowLabel)).answer () (.sprayPrimary d flowLabel) := by
  constructor
  case answers =>
    intro i hi
    have hlt : flowIndex e.channels.length (UInt32.ofNat (start + i)) < e.channels.length := by
      rw [flowIndex_eq_mod]
      exact Nat.mod_lt _ e.length_channels_pos
    rw [answer_run_eq (hops _), Table.answer_sprayPrimary, Table.lookupSprayPrimary, tables_run,
      Table.shardEntry_ofWrites_eq_liveRoute, he, Option.map_some, Table.sprayPrimary_eq,
      RouteEntry.getElem?_channels hlt, RouteEntry.sprayPosition_zero, flowIndex_eq_mod]
  case perm =>
    have hlabels : (List.range e.channels.length).map
        (fun i => flowIndex e.channels.length (UInt32.ofNat (start + i))) =
        (List.range e.channels.length).map fun i => (start + i) % e.channels.length := by
      refine List.map_congr_left fun i hi => ?_
      rw [flowIndex_eq_mod, UInt32.toNat_ofNat_of_lt']
      have := List.mem_range.mp hi
      exact (by omega : start + i < 2 ^ 32)
    rw [hlabels]
    exact map_add_mod_perm start _

/-- The labels 7 and 8 on the two channels of a route. -/
theorem primary_fair_two :
    ∃ e : RouteEntry, e.channels = [zeroId, Vector.replicate 32 1] ∧
      SelectsEach e.channels 7 (flowIndex 2) fun flowLabel =>
        (Thread.run [Op.write () (.update e)]).answer () (.sprayPrimary zeroId flowLabel) := by
  refine ⟨⟨zeroId, zeroId, 1, 1, [Vector.replicate 32 1], 1⟩, rfl, ?_⟩
  exact @primary_fair (fun _ => [_]) (fun _ => by decide) zeroId _ (fun _ => rfl) 7 (by decide)

/-- After `2^64 - 1` updates the one label of a route with one channel selects none. -/
theorem primary_not_fair :
    ¬ ∀ (ops : UInt32 → List (Op Unit)) (d : Id) (e : RouteEntry),
      (∀ flowLabel, Table.liveRoute (writes (ops flowLabel)) d = some e) →
      ∀ start, start + e.channels.length ≤ 2 ^ 32 → ∃ position,
        SelectsEach e.channels start position fun flowLabel =>
          (Thread.run (ops flowLabel)).answer () (.sprayPrimary d flowLabel) := by
  intro h
  obtain ⟨ws, hws, hlive⟩ := exists_writes_wrap
  obtain ⟨position, hselects⟩ := h (fun _ => writeCalls ws) zeroId (zeroDestRoute 1)
    (fun _ => by rw [writes_writeCalls, hlive]) 0 (by decide)
  have hanswer := hselects.answers 0 (by decide)
  rw [answer_run_writeCalls hws rfl] at hanswer
  have hmem : zeroId ∈ (zeroDestRoute 1).channels := List.mem_of_getElem? hanswer.symm
  exact absurd hmem (by decide)

/-! ## Listed and indexed channels -/

/-- `lookup_spray` returns the channels of a route in the spray order, up to 16 of them. -/
theorem Table.map_fst_lookupSpray {t : Table} {d : Id} {e : RouteEntry}
    (he : t.shardEntry d = some e) (flowLabel : UInt32) :
    (t.lookupSpray d flowLabel).map Prod.fst =
      (List.range (min e.channels.length 16)).map
        fun i => e.channel (e.sprayPosition flowLabel i) := by
  apply List.ext_getElem?
  intro i
  simp only [lookupSpray, List.getElem?_map, List.getElem?_take, getElem?_lookupSprayBuf he,
    lookupSprayBuf_count_eq he, List.length_replicate]
  by_cases hi : i < min e.channels.length 16
  · rw [if_pos hi, if_pos hi, List.getElem?_range hi]
    rfl
  · rw [if_neg hi, List.getElem?_eq_none (by rw [List.length_range]; omega)]
    rfl

/-- The whole spray order is a permutation of the channels. -/
theorem RouteEntry.map_channel_perm (e : RouteEntry) (flowLabel : UInt32) :
    ((List.range e.channels.length).map fun i => e.channel (e.sprayPosition flowLabel i)).Perm
      e.channels := by
  have hchannels : (List.range e.channels.length).map e.channel = e.channels := by
    apply List.ext_getElem?
    intro i
    rw [List.getElem?_map]
    by_cases hi : i < e.channels.length
    · rw [List.getElem?_range hi, getElem?_channels hi]
      rfl
    · rw [List.getElem?_eq_none (Nat.le_of_not_lt hi),
        List.getElem?_eq_none (by rw [List.length_range]; omega)]
      rfl
  have hperm := (e.sprayPosition_perm flowLabel).map e.channel
  rwa [List.map_map, hchannels] at hperm

/-- **Listed and indexed spray agree** on a route exactly when its channels fit the buffer of 16:
then `lookup_spray` returns each of them once, and `lookup_spray_single` picks the element at its
index modulo their number. -/
theorem lookupSpray_agrees_iff {t : Table} {d : Id} {e : RouteEntry}
    (he : t.shardEntry d = some e) (flowLabel : UInt32) :
    (((t.lookupSpray d flowLabel).map Prod.fst).Perm e.channels ∧
      ∀ k, t.lookupSpraySingle d flowLabel k =
        ((t.lookupSpray d flowLabel).map Prod.fst)[k % (t.lookupSpray d flowLabel).length]?) ↔
      1 + e.alternateChannels.length ≤ 16 := by
  have hlist := Table.map_fst_lookupSpray he flowLabel
  have hlength : (t.lookupSpray d flowLabel).length = min e.channels.length 16 := by
    have := congrArg List.length hlist
    rwa [List.length_map, List.length_map, List.length_range] at this
  rw [← RouteEntry.length_channels, hlist]
  constructor
  · rintro ⟨hperm, -⟩
    have hlen := hperm.length_eq
    rw [List.length_map, List.length_range] at hlen
    omega
  · intro hle
    rw [hlength, Nat.min_eq_left hle]
    refine ⟨e.map_channel_perm flowLabel, fun k => ?_⟩
    rw [Table.lookupSpraySingle_eq he, List.getElem?_map,
      List.getElem?_range (Nat.mod_lt k e.length_channels_pos)]
    rfl

/-- A route for the zero destination with `n` alternates. -/
def sprayRoute (n : ℕ) : RouteEntry where
  destId := zeroId
  nextHopId := zeroId
  alternateChannels := (List.range n).map fun i => Vector.replicate 32 (UInt8.ofNat (i + 1))

theorem shardEntry_sprayRoute (n : ℕ) :
    (Table.new.updateRoute (sprayRoute n)).shardEntry zeroId = some (sprayRoute n) := by
  rw [Table.updateRoute, Table.shardEntry_write]
  rfl

/-- Three channels are listed and indexed alike. -/
theorem lookupSpray_agrees_iff_three :
    (Table.new.updateRoute (sprayRoute 2)).shardEntry zeroId = some (sprayRoute 2) ∧
      (((Table.new.updateRoute (sprayRoute 2)).lookupSpray zeroId 7).map Prod.fst).Perm
        (sprayRoute 2).channels := by
  have he := shardEntry_sprayRoute 2
  exact ⟨he, ((lookupSpray_agrees_iff he 7).mpr (by decide)).1⟩

/-- Of seventeen channels only sixteen are listed. -/
theorem lookupSpray_not_agrees :
    ¬ ∀ (t : Table) (d : Id) (e : RouteEntry), t.shardEntry d = some e → ∀ flowLabel,
      ((t.lookupSpray d flowLabel).map Prod.fst).Perm e.channels ∧
        ∀ k, t.lookupSpraySingle d flowLabel k =
          ((t.lookupSpray d flowLabel).map Prod.fst)[
            k % (t.lookupSpray d flowLabel).length]? := by
  intro h
  obtain ⟨hperm, -⟩ := h _ _ _ (shardEntry_sprayRoute 16) 0
  rw [Table.map_fst_lookupSpray (shardEntry_sprayRoute 16)] at hperm
  have hlen := hperm.length_eq
  rw [List.length_map, List.length_range] at hlen
  exact absurd hlen (by decide)

end SmipMwp.Routing
