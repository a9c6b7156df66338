import SmipMwp.Routing.Interleaving

/-!
# A table used sequentially

Updates and removals that follow one another leave the two indices of a table with the same routes,
and the predictive list rebuilt from them. The routes are the live ones of the history
(`liveRoute`), and the predictive list has their next hops in ascending order of the destinations
(`exists_liveRoutes`). A table with a route then predicts a hop for every flow, whatever its
destination.
-/

namespace SmipMwp.Routing

open Wire (Id)

namespace Table

/-- The table after calls of `update_route` and `remove_route`, one after another. -/
def ofWrites (ws : List Write) : Table := ws.foldl write new

theorem ofWrites_append_singleton (ws : List Write) (w : Write) :
    ofWrites (ws ++ [w]) = (ofWrites ws).write w := by
  rw [ofWrites, List.foldl_append]
  rfl

theorem rebuilt_ofWrites (ws : List Write) : (ofWrites ws).Rebuilt := by
  induction ws using List.reverseRecOn with
  | nil => rfl
  | append_singleton ws w ih =>
    rw [ofWrites_append_singleton]
    rfl

/-- The shards and the main entries have the same route for every destination. -/
theorem shardEntry_ofWrites (ws : List Write) (d : Id) :
    (ofWrites ws).shardEntry d = (ofWrites ws).inner.entries[d]? := by
  induction ws using List.reverseRecOn with
  | nil => exact Std.TreeMap.getElem?_emptyc.trans Std.TreeMap.getElem?_emptyc.symm
  | append_singleton ws w ih =>
    rw [ofWrites_append_singleton, shardEntry_write, ih]
    exact (entries_writeMain _ w d).symm

/-- The live route of a destination: that of the last call for it, if this is an update. -/
def liveRoute (ws : List Write) (d : Id) : Option RouteEntry :=
  (lastWrite (fun w : Write => some w.dest) Write.content ws d).getD none

theorem liveRoute_concat (ws : List Write) (w : Write) (d : Id) :
    liveRoute (ws ++ [w]) d = if d = w.dest then w.content else liveRoute ws d := by
  unfold liveRoute
  rw [lastWrite_concat]
  simp only [Option.some.injEq, eq_comm (a := d)]
  split_ifs <;> rfl

/-- The exact lookups find the live route. -/
theorem shardEntry_ofWrites_eq_liveRoute (ws : List Write) (d : Id) :
    (ofWrites ws).shardEntry d = liveRoute ws d := by
  induction ws using List.reverseRecOn with
  | nil => exact Std.TreeMap.getElem?_emptyc
  | append_singleton ws w ih =>
    rw [ofWrites_append_singleton, shardEntry_write, liveRoute_concat, ih]

/-- A live route is a route for its destination. -/
theorem destId_of_liveRoute {ws : List Write} {d : Id} {e : RouteEntry}
    (h : liveRoute ws d = some e) : e.destId = d := by
  induction ws using List.reverseRecOn with
  | nil => cases h
  | append_singleton ws w ih =>
    rw [liveRoute_concat] at h
    split_ifs at h with hd
    · cases w with
      | update e' =>
        obtain rfl : e' = e := Option.some.inj h
        exact hd.symm
      | remove d' => cases h
    · exact ih h

/-- Removals leave no live route. -/
theorem liveRoute_removals {ws : List Write} {d' : Id} (h : ∀ w ∈ ws, w = .remove d') (d : Id) :
    liveRoute ws d = none := by
  induction ws using List.reverseRecOn with
  | nil => rfl
  | append_singleton ws w ih =>
    rw [liveRoute_concat, h w (by simp), ih fun w' hw' => h w' (List.mem_append_left _ hw')]
    exact ite_self none

/-! ## Prediction -/

/-- Both reductions of the hash stay below the length of the list. -/
theorem predictiveIndex_lt {n : ℕ} (hn : 0 < n) (hash : UInt64) : predictiveIndex n hash < n := by
  unfold predictiveIndex
  split_ifs
  · have hle : hash.toNat &&& (n - 1) ≤ n - 1 := Nat.and_le_right
    omega
  · have hmul : hash.toNat * n < 2 ^ 64 * n := Nat.mul_lt_mul_of_pos_right hash.toNat_lt hn
    rw [Nat.shiftRight_eq_div_pow]
    exact Nat.div_lt_of_lt_mul hmul

/-- The live routes in ascending order of their destinations. -/
structure LiveRoutes (ws : List Write) (routes : List RouteEntry) : Prop where
  ascending : routes.Pairwise fun e e' => compare e.destId e'.destId = .lt
  mem_iff : ∀ e, e ∈ routes ↔ liveRoute ws e.destId = some e

/-- The predictive list has the next hops of the live routes, in ascending order. -/
theorem exists_liveRoutes (ws : List Write) :
    ∃ routes, LiveRoutes ws routes ∧
      (ofWrites ws).inner.predictiveNextHops = routes.map RouteEntry.nextHopId := by
  have hmem : ∀ p : Id × RouteEntry,
      p ∈ (ofWrites ws).inner.entries.toList ↔ liveRoute ws p.1 = some p.2 := by
    intro p
    rw [← shardEntry_ofWrites_eq_liveRoute, shardEntry_ofWrites]
    exact Std.TreeMap.mem_toList_iff_getElem?_eq_some
  refine ⟨(ofWrites ws).inner.entries.values, ⟨?_, fun e => ?_⟩, ?_⟩
  · rw [values_eq_map_toList, List.pairwise_map]
    refine Std.TreeMap.ordered_keys_toList.imp_of_mem fun {p q} hp hq hlt => ?_
    rwa [destId_of_liveRoute ((hmem p).mp hp), destId_of_liveRoute ((hmem q).mp hq)]
  · rw [values_eq_map_toList, List.mem_map]
    constructor
    · rintro ⟨p, hp, rfl⟩
      have hlive := (hmem p).mp hp
      rwa [destId_of_liveRoute hlive]
    · exact fun hlive => ⟨(e.destId, e), (hmem _).mpr hlive, rfl⟩
  · rw [rebuilt_ofWrites ws]
    rfl

/-- There is one list of the live routes in ascending order. -/
theorem LiveRoutes.unique {ws : List Write} {routes routes' : List RouteEntry}
    (h : LiveRoutes ws routes) (h' : LiveRoutes ws routes') : routes = routes' := by
  have hirrefl : ∀ e : RouteEntry, compare e.destId e.destId ≠ .lt := by
    intro e hlt
    rw [Std.compare_self] at hlt
    cases hlt
  have hnodup : ∀ l : List RouteEntry,
      l.Pairwise (fun e e' => compare e.destId e'.destId = .lt) → l.Nodup := by
    intro l hl
    refine hl.imp fun {e e'} hlt heq => ?_
    rw [heq] at hlt
    exact hirrefl e' hlt
  have hperm : routes.Perm routes' :=
    (List.perm_ext_iff_of_nodup (hnodup _ h.ascending) (hnodup _ h'.ascending)).mpr fun e => by
      rw [h.mem_iff, h'.mem_iff]
  refine hperm.eq_of_pairwise (fun e e' _ _ hlt hgt => ?_) h.ascending h'.ascending
  have hswap : compare e.destId e'.destId = (compare e'.destId e.destId).swap :=
    Std.OrientedCmp.eq_swap
  rw [hlt, hgt] at hswap
  cases hswap

/-- The predictive list has the next hops of the live routes. -/
theorem LiveRoutes.predictiveNextHops_eq {ws : List Write} {routes : List RouteEntry}
    (h : LiveRoutes ws routes) :
    (ofWrites ws).inner.predictiveNextHops = routes.map RouteEntry.nextHopId := by
  obtain ⟨routes', hroutes', hlist⟩ := exists_liveRoutes ws
  rw [hlist, h.unique hroutes']

theorem LiveRoutes.length_eq {ws : List Write} {routes : List RouteEntry}
    (h : LiveRoutes ws routes) :
    (ofWrites ws).inner.predictiveNextHops.length = routes.length := by
  rw [h.predictiveNextHops_eq, List.length_map]

theorem lookupPredictiveFallback_isSome {t : Table} (h : t.inner.predictiveNextHops ≠ [])
    (srcId dstId : Id) (flowLabel : UInt32) :
    (t.lookupPredictiveFallback srcId dstId flowLabel).isSome := by
  have hpos : 0 < t.inner.predictiveNextHops.length := List.length_pos_iff.mpr h
  simp only [lookupPredictiveFallback, if_neg hpos.ne']
  split_ifs
  · rw [List.getElem?_eq_getElem hpos]
    rfl
  · rw [List.getElem?_eq_getElem (predictiveIndex_lt hpos _)]
    rfl

theorem lookupOrPredict_isSome {t : Table} (h : t.inner.predictiveNextHops ≠ [])
    (srcId dstId : Id) (flowLabel : UInt32) :
    (t.lookupOrPredict srcId dstId flowLabel).isSome := by
  unfold lookupOrPredict
  cases t.lookupNextHop dstId flowLabel with
  | some nh => rfl
  | none => exact lookupPredictiveFallback_isSome h srcId dstId flowLabel

/-- **A table with a route predicts.** -/
theorem predictiveNextHops_ofWrites_ne_nil {ws : List Write} {d : Id} {e : RouteEntry}
    (h : (ofWrites ws).shardEntry d = some e) : (ofWrites ws).inner.predictiveNextHops ≠ [] := by
  rw [shardEntry_ofWrites_eq_liveRoute] at h
  obtain ⟨routes, hroutes, hlist⟩ := exists_liveRoutes ws
  have hmem : e ∈ routes := (hroutes.mem_iff e).mpr (by rw [destId_of_liveRoute h, h])
  rw [hlist]
  exact List.ne_nil_of_mem (List.mem_map_of_mem hmem)

end Table

end SmipMwp.Routing
