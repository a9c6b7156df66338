import SmipMwp.Foundations.PowersOfTwo
import SmipMwp.Routing.Isolation

/-!
# Predicted routes

`lookup_or_predict` asks the cached exact lookup first. Where the destination has no route, it
hashes the flow to a position of the predictive list, with a mask where the length of the list is a
power of two and with the high half of a product where it is not.

On one table the answer is that of the history of its updates (`lookupOrPredict_correct`): the live
route of the destination, or else the live route at the hashed position in ascending order of the
destinations. Both reductions stay inside the list, but the product sees only the high bits of the
hash, and the flow label is in the low ones: the labels of a pair of nodes reach every position
exactly when the length of the list is a power of two (`predictedIndex_surjective_iff`).
-/

namespace SmipMwp.Routing

open Wire (Id)

namespace Table

/-- `lookup_or_predict` with the epoch loaded: the cached exact lookup, then the fallback. -/
def lookupOrPredictCached (t : Table) (c : Caches) (epoch : UInt64) (srcId dstId : Id)
    (flowLabel : UInt32) : Option Id × Caches :=
  match t.lookup c epoch (.nextHop dstId flowLabel) with
  | (some nh, c) => (some nh, c)
  | (none, c) => (t.lookupPredictiveFallback srcId dstId flowLabel, c)

/-- The position that `lookup_predictive_fallback` reads. -/
def predictedIndex (t : Table) (srcId dstId : Id) (flowLabel : UInt32) : ℕ :=
  predictiveIndex t.inner.predictiveNextHops.length (fastFlowHash srcId dstId flowLabel)

theorem predictiveIndex_two_pow (k : ℕ) (hash : UInt64) :
    predictiveIndex (2 ^ k) hash = hash.toNat &&& (2 ^ k - 1) :=
  if_pos (isPowerOfTwo_iff.mpr ⟨k, rfl⟩)

theorem predictiveIndex_of_not_two_pow {n : ℕ} (hn : ¬ ∃ k, n = 2 ^ k) (hash : UInt64) :
    predictiveIndex n hash = (hash.toNat * n) >>> 64 :=
  if_neg fun h => hn (isPowerOfTwo_iff.mp h)

/-- A list of one hop needs no case of its own. -/
theorem predictiveIndex_one (hash : UInt64) : predictiveIndex 1 hash = 0 := Nat.and_zero _

theorem lookupPredictiveFallback_eq (t : Table) (srcId dstId : Id) (flowLabel : UInt32) :
    t.lookupPredictiveFallback srcId dstId flowLabel =
      t.inner.predictiveNextHops[t.predictedIndex srcId dstId flowLabel]? := by
  simp only [lookupPredictiveFallback, predictedIndex]
  split_ifs with h₀ h₁
  · rw [List.getElem?_eq_none (by rw [h₀]; exact Nat.zero_le _)]
  · rw [h₁, predictiveIndex_one]
  · rfl

end Table

/-! ## The answers of one table -/

namespace Thread

variable {τ : Type*}

/-- What a `lookup_or_predict` answers. -/
def answerOrPredict (s : Thread τ) (table : τ) (srcId dstId : Id) (flowLabel : UInt32) :
    Option Id :=
  ((s.tables table).lookupOrPredictCached s.caches s.epoch srcId dstId flowLabel).1

theorem answerOrPredict_eq (s : Thread τ) (table : τ) (srcId dstId : Id) (flowLabel : UInt32) :
    s.answerOrPredict table srcId dstId flowLabel =
      (s.answer table (.nextHop dstId flowLabel)).or
        ((s.tables table).lookupPredictiveFallback srcId dstId flowLabel) := by
  unfold answerOrPredict answer Table.lookupOrPredictCached
  rcases (s.tables table).lookup s.caches s.epoch (.nextHop dstId flowLabel) with ⟨_ | nh, c⟩
  · rfl
  · rfl

end Thread

open Table in
/-- **What the history of a table predicts**: the next hop of the live route of the destination.
If it has none, the next hop of the live route at the hashed position in ascending order, and
nothing exactly when no route is live. Every answer is the next hop of a live route. -/
structure Predicts (ws : List Write) (srcId dstId : Id) (flowLabel : UInt32)
    (answer : Option Id) : Prop where
  routed : ∀ e, liveRoute ws dstId = some e → answer = some e.nextHopId
  none_iff : liveRoute ws dstId = none → (answer = none ↔ ∀ d, liveRoute ws d = none)
  position : liveRoute ws dstId = none → ∃ routes, LiveRoutes ws routes ∧ (routes ≠ [] →
    ∃ e, routes[predictiveIndex routes.length (fastFlowHash srcId dstId flowLabel)]? = some e ∧
      answer = some e.nextHopId)
  live : ∀ nh, answer = some nh → ∃ d e, liveRoute ws d = some e ∧ nh = e.nextHopId

namespace Table

/-- No route is live exactly when the ascending list is empty. -/
theorem LiveRoutes.eq_nil_iff {ws : List Write} {routes : List RouteEntry}
    (h : LiveRoutes ws routes) : routes = [] ↔ ∀ d, liveRoute ws d = none := by
  constructor
  · rintro rfl d
    rw [Option.eq_none_iff_forall_ne_some]
    intro e he
    have hmem := (h.mem_iff e).mpr (by rw [destId_of_liveRoute he, he])
    cases hmem
  · intro hnone
    rw [List.eq_nil_iff_forall_not_mem]
    intro e he
    have hlive := (h.mem_iff e).mp he
    rw [hnone] at hlive
    cases hlive

/-- With a live route the exact lookup answers. -/
theorem lookupOrPredict_of_some {ws : List Write} {dstId : Id} {e : RouteEntry}
    (he : liveRoute ws dstId = some e) (srcId : Id) (flowLabel : UInt32) :
    (ofWrites ws).lookupOrPredict srcId dstId flowLabel = some e.nextHopId := by
  rw [lookupOrPredict, lookupNextHop, shardEntry_ofWrites_eq_liveRoute, he]
  rfl

/-- Without one the fallback answers, from the live routes. -/
theorem LiveRoutes.lookupOrPredict_of_none {ws : List Write} {routes : List RouteEntry}
    (h : LiveRoutes ws routes) {dstId : Id} (hnone : liveRoute ws dstId = none) (srcId : Id)
    (flowLabel : UInt32) :
    (ofWrites ws).lookupOrPredict srcId dstId flowLabel =
      (routes[predictiveIndex routes.length (fastFlowHash srcId dstId flowLabel)]?).map
        RouteEntry.nextHopId := by
  rw [lookupOrPredict, lookupNextHop, shardEntry_ofWrites_eq_liveRoute, hnone]
  simp only [Option.map_none]
  rw [lookupPredictiveFallback_eq, predictedIndex, h.length_eq, h.predictiveNextHops_eq,
    List.getElem?_map]

/-- The table answers what its history predicts. -/
theorem predicts_lookupOrPredict (ws : List Write) (srcId dstId : Id) (flowLabel : UInt32) :
    Predicts ws srcId dstId flowLabel ((ofWrites ws).lookupOrPredict srcId dstId flowLabel) := by
  obtain ⟨routes, hroutes, -⟩ := exists_liveRoutes ws
  have hfallback := fun hnone : liveRoute ws dstId = none =>
    hroutes.lookupOrPredict_of_none hnone srcId flowLabel
  have hposition : routes ≠ [] → ∃ e,
      routes[predictiveIndex routes.length (fastFlowHash srcId dstId flowLabel)]? = some e :=
    fun hne => ⟨_, List.getElem?_eq_getElem
      (predictiveIndex_lt (List.length_pos_iff.mpr hne) _)⟩
  constructor
  case routed => exact fun e he => lookupOrPredict_of_some he srcId flowLabel
  case none_iff =>
    intro hnone
    rw [hfallback hnone, ← hroutes.eq_nil_iff, Option.map_eq_none_iff]
    constructor
    · intro hget
      by_contra hne
      obtain ⟨e, he⟩ := hposition hne
      rw [he] at hget
      cases hget
    · rintro rfl
      rfl
  case position =>
    refine fun hnone => ⟨routes, hroutes, fun hne => ?_⟩
    obtain ⟨e, he⟩ := hposition hne
    exact ⟨e, he, by rw [hfallback hnone, he, Option.map_some]⟩
  case live =>
    intro nh hnh
    cases hlive : liveRoute ws dstId with
    | some e =>
      rw [lookupOrPredict_of_some hlive] at hnh
      exact ⟨dstId, e, hlive, (Option.some.inj hnh).symm⟩
    | none =>
      rw [hfallback hlive] at hnh
      obtain ⟨e, he, rfl⟩ := Option.map_eq_some_iff.mp hnh
      exact ⟨e.destId, e, (hroutes.mem_iff e).mp (List.mem_of_getElem? he), rfl⟩

end Table

/-- **`lookup_or_predict` is correct over whole runs** of calls on one table, up to `2^64 - 2`
updates: it answers what the history of the updates predicts. The position is the masked hash for a
power of two and the high half of the product otherwise, and lies inside the list for every hash. -/
theorem lookupOrPredict_correct (ops : List (Op Unit)) (hops : updates ops < 2 ^ 64 - 1)
    (srcId dstId : Id) (flowLabel : UInt32) :
    Predicts (writes ops) srcId dstId flowLabel
        ((Thread.run ops).answerOrPredict () srcId dstId flowLabel) ∧
      ∀ n > 0, ∀ hash : UInt64, Table.predictiveIndex n hash < n ∧
        ((∃ k, n = 2 ^ k) → Table.predictiveIndex n hash = hash.toNat &&& (n - 1)) ∧
        ((¬ ∃ k, n = 2 ^ k) → Table.predictiveIndex n hash = (hash.toNat * n) >>> 64) := by
  constructor
  · have hexact := answer_run_eq hops () (.nextHop dstId flowLabel)
    have hpredicts := Table.predicts_lookupOrPredict (writes ops) srcId dstId flowLabel
    rw [Thread.answerOrPredict_eq, hexact, tables_run]
    rw [Table.lookupOrPredict] at hpredicts
    rw [Table.answer_nextHop]
    cases hnh : (Table.ofWrites (writes ops)).lookupNextHop dstId flowLabel with
    | none =>
      rw [hnh] at hpredicts
      exact hpredicts
    | some nh =>
      rw [hnh] at hpredicts
      exact hpredicts
  · refine fun n hn hash => ⟨Table.predictiveIndex_lt hn hash, ?_, fun hnot => ?_⟩
    · rintro ⟨k, rfl⟩
      exact Table.predictiveIndex_two_pow k hash
    · exact Table.predictiveIndex_of_not_two_pow hnot hash

/-- Three routes, of which one is removed again after a lookup, and a packet to no destination of
the table. -/
theorem lookupOrPredict_correct_removed :
    let other : RouteEntry := { zeroDestRoute 2 with destId := Vector.replicate 32 7 }
    let third : RouteEntry := { zeroDestRoute 3 with destId := Vector.replicate 32 9 }
    let ops := [Op.write () (.update (zeroDestRoute 1)), .write () (.update other),
      .lookup () (.nextHop zeroId 0), .write () (.update third), .write () (.remove zeroId)]
    updates ops < 2 ^ 64 - 1 ∧
      Predicts [.update (zeroDestRoute 1), .update other, .update third, .remove zeroId]
        zeroId zeroId 3 ((Thread.run ops).answerOrPredict () zeroId zeroId 3) := by
  intro other third ops
  have hops : updates ops < 2 ^ 64 - 1 := by decide
  exact ⟨hops, (lookupOrPredict_correct ops hops zeroId zeroId 3).1⟩

/-- With `2^64 - 1` removals before it, a lookup of the zero destination is answered from the zero
line, although no route was ever live. -/
theorem lookupOrPredict_fails :
    ¬ ∀ (ops : List (Op Unit)) (srcId dstId : Id) (flowLabel : UInt32),
      Predicts (writes ops) srcId dstId flowLabel
        ((Thread.run ops).answerOrPredict () srcId dstId flowLabel) := by
  intro h
  obtain ⟨ws, hws, hremove⟩ : ∃ ws : List Table.Write, ws.length = 2 ^ 64 - 1 ∧
      ∀ w ∈ ws, w = .remove zeroId :=
    ⟨List.replicate (2 ^ 64 - 1) (.remove zeroId), List.length_replicate,
      fun _ => List.eq_of_mem_replicate⟩
  have hpredicts := h (writeCalls ws) zeroId zeroId 0
  rw [Thread.answerOrPredict_eq, answer_run_writeCalls hws rfl, writes_writeCalls] at hpredicts
  obtain ⟨d, e, hlive, -⟩ := hpredicts.live zeroId rfl
  rw [Table.liveRoute_removals hremove] at hlive
  cases hlive

/-! ## The positions a flow label reaches -/

namespace Table

/-- The flow label enters the low 32 bits of the hash. -/
theorem toNat_fastFlowHash (srcId dstId : Id) (flowLabel : UInt32) :
    (fastFlowHash srcId dstId flowLabel).toNat =
      (fastFlowHash srcId dstId 0).toNat ^^^ flowLabel.toNat := by
  have hzero : fastFlowHash srcId dstId flowLabel =
      fastFlowHash srcId dstId 0 ^^^ flowLabel.toUInt64 := by
    unfold fastFlowHash
    rw [show (0 : UInt32).toUInt64 = 0 from rfl, UInt64.xor_zero]
  rw [hzero, UInt64.toNat_xor, UInt32.toNat_toUInt64]

/-- The labels of a pair of nodes reach every position of a list whose length is a power of two. -/
theorem exists_predictiveIndex_eq {k i : ℕ} (hk : 2 ^ k ≤ 2 ^ 32) (hi : i < 2 ^ k)
    (srcId dstId : Id) :
    ∃ flowLabel, predictiveIndex (2 ^ k) (fastFlowHash srcId dstId flowLabel) = i := by
  have hlt : ((fastFlowHash srcId dstId 0).toNat ^^^ i) % 2 ^ k < 2 ^ 32 :=
    (Nat.mod_lt _ (Nat.two_pow_pos k)).trans_le hk
  refine ⟨UInt32.ofNat (((fastFlowHash srcId dstId 0).toNat ^^^ i) % 2 ^ k), ?_⟩
  rw [predictiveIndex_two_pow, Nat.and_two_pow_sub_one_eq_mod, toNat_fastFlowHash,
    UInt32.toNat_ofNat_of_lt' hlt, xor_xor_mod_two_pow _ hi]

/-- The labels of a pair of nodes reach at most two neighbouring positions of any other list. -/
theorem exists_predictiveIndex_mem_pair {n : ℕ} (hn : n ≤ 2 ^ 32) (hnot : ¬ ∃ k, n = 2 ^ k)
    (srcId dstId : Id) :
    ∃ p, ∀ flowLabel, predictiveIndex n (fastFlowHash srcId dstId flowLabel) = p ∨
      predictiveIndex n (fastFlowHash srcId dstId flowLabel) = p + 1 := by
  -- the lowest hash with the high bits that all the labels leave alone
  refine ⟨(fastFlowHash srcId dstId 0).toNat / 2 ^ 32 * 2 ^ 32 * n / 2 ^ 64, fun flowLabel => ?_⟩
  have hhigh : (fastFlowHash srcId dstId flowLabel).toNat / 2 ^ 32 =
      (fastFlowHash srcId dstId 0).toNat / 2 ^ 32 := by
    rw [toNat_fastFlowHash, Nat.xor_div_two_pow, Nat.div_eq_of_lt flowLabel.toNat_lt,
      Nat.xor_zero]
  rw [predictiveIndex_of_not_two_pow hnot, Nat.shiftRight_eq_div_pow, ← hhigh]
  generalize (fastFlowHash srcId dstId flowLabel).toNat = h
  refine mul_div_mem_pair (Nat.div_mul_le_self h _) ?_
  have hsub : h - h / 2 ^ 32 * 2 ^ 32 ≤ 2 ^ 32 - 1 := by omega
  calc (h - h / 2 ^ 32 * 2 ^ 32) * n ≤ (2 ^ 32 - 1) * 2 ^ 32 := Nat.mul_le_mul hsub hn
    _ < 2 ^ 64 := by decide

end Table

/-- **The flow labels of a pair of nodes reach every position** of the predictive list exactly when
the number of live routes is a power of two. -/
theorem predictedIndex_surjective_iff {ws : List Table.Write} {routes : List RouteEntry}
    (hroutes : Table.LiveRoutes ws routes) (hlow : 2 ≤ routes.length)
    (hhigh : routes.length ≤ 2 ^ 32) (srcId dstId : Id) :
    (∀ i < routes.length, ∃ flowLabel,
      (Table.ofWrites ws).predictedIndex srcId dstId flowLabel = i ∧
        (Table.ofWrites ws).lookupPredictiveFallback srcId dstId flowLabel =
          routes[i]?.map RouteEntry.nextHopId) ↔
      ∃ k, routes.length = 2 ^ k := by
  simp only [Table.lookupPredictiveFallback_eq, Table.predictedIndex, hroutes.predictiveNextHops_eq,
    List.length_map, List.getElem?_map]
  constructor
  · intro h
    by_contra hnot
    obtain ⟨p, hp⟩ := Table.exists_predictiveIndex_mem_pair hhigh hnot srcId dstId
    have hthree : 3 ≤ routes.length := by
      by_contra hlt
      exact hnot ⟨1, by omega⟩
    -- three positions do not fit into a pair
    obtain ⟨l₀, h₀, -⟩ := h 0 (by omega)
    obtain ⟨l₁, h₁, -⟩ := h 1 (by omega)
    obtain ⟨l₂, h₂, -⟩ := h 2 (by omega)
    have hp₀ := hp l₀
    have hp₁ := hp l₁
    have hp₂ := hp l₂
    omega
  · rintro ⟨k, hk⟩ i hi
    rw [hk] at hi hhigh
    obtain ⟨flowLabel, hindex⟩ := Table.exists_predictiveIndex_eq hhigh hi srcId dstId
    rw [← hk] at hindex
    exact ⟨flowLabel, hindex, by rw [hindex]⟩

/-- Three updates, of destinations other than zero. -/
def threeRoutes : List Table.Write :=
  [1, 2, 3].map fun b =>
    .update { destId := Vector.replicate 32 b, nextHopId := zeroId, alternateChannels := [] }

/-- Two routes, for two destinations: each is reached. -/
theorem predictedIndex_surjective_iff_two :
    ∃ routes, Table.LiveRoutes (threeRoutes.take 2) routes ∧ routes.length = 2 ∧
      ∀ i < routes.length, ∃ flowLabel,
        (Table.ofWrites (threeRoutes.take 2)).predictedIndex zeroId zeroId flowLabel = i := by
  obtain ⟨routes, hroutes, hlist⟩ := Table.exists_liveRoutes (threeRoutes.take 2)
  have hlen : routes.length = 2 := by
    rw [← hroutes.length_eq]
    decide +kernel
  refine ⟨routes, hroutes, hlen, fun i hi => ?_⟩
  obtain ⟨flowLabel, hindex, -⟩ := (predictedIndex_surjective_iff hroutes (by omega)
    (by omega) zeroId zeroId).mpr ⟨1, hlen⟩ i hi
  exact ⟨flowLabel, hindex⟩

/-- With three routes every flow from the zero node to itself is sent to the first of them. -/
theorem predictedIndex_not_surjective :
    ¬ ∀ (ws : List Table.Write) (routes : List RouteEntry), Table.LiveRoutes ws routes →
      2 ≤ routes.length → routes.length ≤ 2 ^ 32 → ∀ srcId dstId,
      Table.liveRoute ws dstId = none → ∀ i < routes.length, ∃ flowLabel,
        (Table.ofWrites ws).predictedIndex srcId dstId flowLabel = i := by
  intro h
  obtain ⟨routes, hroutes, -⟩ := Table.exists_liveRoutes threeRoutes
  have hlen : routes.length = 3 := by
    rw [← hroutes.length_eq]
    decide +kernel
  obtain ⟨flowLabel, hindex⟩ := h _ routes hroutes (by omega) (by omega) zeroId zeroId
    (by decide +kernel) 1 (by omega)
  have hhash : (fastFlowHash zeroId zeroId flowLabel).toNat = flowLabel.toNat := by
    rw [Table.toNat_fastFlowHash, show fastFlowHash zeroId zeroId 0 = 0 by decide +kernel]
    exact Nat.zero_xor _
  have hnot : ¬ ∃ k, 3 = 2 ^ k := fun hpow =>
    absurd (isPowerOfTwo_iff.mpr hpow) (by decide)
  have hlt := flowLabel.toNat_lt
  rw [Table.predictedIndex, hroutes.length_eq, hlen, Table.predictiveIndex_of_not_two_pow hnot,
    hhash, Nat.shiftRight_eq_div_pow] at hindex
  omega

end SmipMwp.Routing
