import DataLineage.Proofs.LayoutRanks
import DataLineage.Proofs.RankColumns

/-!
# The orders of a layout

A layout puts the nodes of each rank at the places from zero on. A node that has no edge to or from
another node has rank zero, and stands there after all nodes that have one.

* `Layout.isIsolated_iff`: what the layout takes for isolated.
* `Layout.sound_arrangement`: the arrangement of a graph is in step with its ranks.
* `Layout.orders_are_slots`: the statement, for any number of sweeps.
-/

namespace DataLineage

variable {g : Graph} {n v : ℕ}

/-- Whether a node has no edges, apart from those that lead from it to itself. -/
def Graph.Isolated (g : Graph) (a : String) : Prop :=
  ∀ e ∈ g.edges, e.source = a ∨ e.target = a → e.source = e.target

theorem isolatedNodes_append (n : ℕ) (ends : List EdgeEnds) (x : EdgeEnds) :
    isolatedNodes n (ends ++ [x]) =
      if x.source = x.target then isolatedNodes n ends
      else ((isolatedNodes n ends).setIfInBounds x.source false).setIfInBounds x.target false := by
  simp only [isolatedNodes, List.foldl_append, List.foldl_cons, List.foldl_nil]

theorem size_isolatedNodes (n : ℕ) (ends : List EdgeEnds) : (isolatedNodes n ends).size = n := by
  induction ends using List.reverseRecOn with
  | nil => simp [isolatedNodes]
  | append_singleton ends x ih =>
    rw [isolatedNodes_append]
    split_ifs
    · exact ih
    · rw [Array.size_setIfInBounds, Array.size_setIfInBounds, ih]

/-- The nodes marked as isolated are those without edges to or from another. -/
theorem getElem?_isolatedNodes (hv : v < n) (ends : List EdgeEnds) :
    (isolatedNodes n ends)[v]? =
      some (decide (∀ x ∈ ends, x.source = v ∨ x.target = v → x.source = x.target)) := by
  induction ends using List.reverseRecOn with
  | nil => simp [isolatedNodes, hv]
  | append_singleton ends x ih =>
    have hsize : v < (isolatedNodes n ends).size := by rwa [size_isolatedNodes]
    rw [isolatedNodes_append]
    by_cases hloop : x.source = x.target
    · rw [if_pos hloop, ih]
      simp [or_imp, forall_and, hloop]
    · rw [if_neg hloop, Array.getElem?_setIfInBounds, Array.getElem?_setIfInBounds,
        Array.size_setIfInBounds, ih]
      by_cases hend : x.source = v ∨ x.target = v
      · -- an edge to or from another node
        have hfalse : ¬ ∀ y ∈ ends ++ [x], y.source = v ∨ y.target = v → y.source = y.target :=
          fun hall => hloop (hall x (by simp) hend)
        rw [decide_eq_false hfalse]
        rcases hend with rfl | rfl
        · simp [hsize, Ne.symm hloop]
        · simp [hsize]
      · rw [not_or] at hend
        simp [or_imp, forall_and, hend.1, hend.2]

namespace Layout

/-- What the layout takes for isolated is isolated. -/
theorem isIsolated_iff (h : g.Consistent) (hv : v < g.nodes.size) :
    (orderInput g).isIsolated v ↔ g.Isolated (g.idAt v) := by
  have hmark : (orderInput g).isIsolated v =
      decide (∀ x ∈ g.edgeEnds, x.source = v ∨ x.target = v → x.source = x.target) := by
    rw [OrderInput.isIsolated, orderInput, getElem?_isolatedNodes hv, Option.getD_some]
  rw [hmark, decide_eq_true_iff]
  constructor
  · intro hall e he hend
    obtain ⟨i, hi⟩ := Array.getElem?_of_mem he
    obtain ⟨s, t, hs, ht⟩ := h.exists_positions he
    have hpos := h.positionOf?_idAt hv
    have hend : s = v ∨ t = v := by
      rcases hend with heq | heq
      · rw [heq, hpos] at hs
        exact Or.inl (Option.some.inj hs).symm
      · rw [heq, hpos] at ht
        exact Or.inr (Option.some.inj ht).symm
    have heq : s = t := hall ⟨i, s, t⟩ (Graph.mem_edgeEnds.2 ⟨e, hi, hs, ht⟩) hend
    rw [← h.idAt_eq hs, ← h.idAt_eq ht, heq]
  · intro hiso x hx hend
    obtain ⟨e, he, hs, ht⟩ := Graph.mem_edgeEnds.1 hx
    have hend : e.source = g.idAt v ∨ e.target = g.idAt v := by
      rcases hend with rfl | rfl
      · exact Or.inl (h.idAt_eq hs).symm
      · exact Or.inr (h.idAt_eq ht).symm
    have heq := hiso e (Array.mem_of_getElem? he) hend
    rw [heq, ht] at hs
    exact (Option.some.inj hs).symm

theorem lt_of_isIsolated (hiso : (orderInput g).isIsolated v) : v < g.nodes.size := by
  by_contra hv
  have hsize : (orderInput g).isolated.size ≤ v := by
    rw [orderInput, size_isolatedNodes]
    exact Nat.le_of_not_lt hv
  rw [OrderInput.isIsolated, Array.getElem?_eq_none hsize] at hiso
  cases hiso

/-- No kept edge leads to or from an isolated node. -/
theorem not_links_of_isolated (h : g.Consistent) (hv : v < g.nodes.size)
    (hiso : g.Isolated (g.idAt v)) {s t : ℕ} (hst : Links (keptEnds g) s t) : s ≠ v ∧ t ≠ v := by
  obtain ⟨e, he, hs, ht⟩ := (links_keptEnds_iff {} h).1 hst
  have hne : e.source ≠ e.target := by
    intro heq
    rw [heq, ht] at hs
    obtain rfl := Option.some.inj hs
    -- a kept edge from a node to itself would be a cycle
    exact absurd (acyclic_links h _ 1 (.single hst)) (by decide)
  have hends := mt (hiso e (mem_edges_of_kept he)) hne
  rw [not_or] at hends
  constructor
  · rintro rfl
    exact hends.1 (h.idAt_eq hs).symm
  · rintro rfl
    exact hends.2 (h.idAt_eq ht).symm

/-- An isolated node has no neighbours in the ranking. -/
theorem neighbours_of_isolated (h : g.Consistent) (hiso : (orderInput g).isIsolated v) :
    (orderInput g).adjacency.before v = [] ∧ (orderInput g).adjacency.after v = [] := by
  have hv := lt_of_isIsolated hiso
  have hnone : ∀ s t, Links (keptEnds g) s t → s ≠ v ∧ t ≠ v :=
    fun s t => not_links_of_isolated h hv ((isIsolated_iff h hv).1 hiso)
  have hadjacency : (orderInput g).adjacency = .ofEdges g.nodes.size (keptEnds g) := rfl
  rw [hadjacency, Adjacency.before_ofEdges hv, Adjacency.after_ofEdges hv]
  constructor
  · rw [List.map_eq_nil_iff, List.filter_eq_nil_iff]
    rintro ⟨s, t⟩ hst ht
    exact (hnone s t hst).2 (of_decide_eq_true ht)
  · rw [List.map_eq_nil_iff, List.filter_eq_nil_iff]
    rintro ⟨s, t⟩ hst hs
    exact (hnone s t hst).1 (of_decide_eq_true hs)

theorem size_ranks (g : Graph) : (orderInput g).ranks.size = g.nodes.size := by
  have hranks : (orderInput g).ranks = (Adjacency.ofEdges g.nodes.size (keptEnds g)).ranks := rfl
  rw [hranks, Adjacency.ranks, Ranking.size_ranks_run, (Adjacency.sizes_ofEdges _ _).1]

/-- An isolated node has rank zero. -/
theorem rankOf_of_isolated (h : g.Consistent) (hv : v < g.nodes.size)
    (hiso : g.Isolated (g.idAt v)) : (orderInput g).rankOf v = 0 := by
  obtain ⟨r, hr, ⟨u, w⟩, -⟩ := Adjacency.isGreatest_ranks (keptEnds_lt h) (acyclic_links h) hv
  have hranks : (orderInput g).ranks[v]? = some r := hr
  rw [OrderInput.rankOf, hranks, Option.getD_some]
  cases w with
  | nil => rfl
  | snoc w hlast => exact absurd rfl (not_links_of_isolated h hv hiso hlast).2

/-- **The arrangement of a graph is in step with its ranks**, after any number of sweeps. -/
theorem sound_arrangement (h : g.Consistent) (budget : ℕ) :
    (Arranged.ofInput (orderInput g) budget).arrangement.Sound (orderInput g) :=
  Arranged.sound_ofInput (fun _ hiso => (neighbours_of_isolated h hiso).1)
    (fun _ hiso => (neighbours_of_isolated h hiso).2) budget

/-- **Orders are slots.** Whatever the number of sweeps, the orders of the nodes of a rank are the
numbers from zero to below the number of these nodes, each taken once, so no two nodes have the same
rank and order. Isolated nodes have rank zero and stand after all nodes of it that are not isolated,
in the order of the graph. A layout places its nodes by these ranks and by the orders that come of
the sweeps its settings allow. -/
theorem orders_are_slots (nodes : List Node) (edges : List Edge) (budget : ℕ) :
    let g := Graph.ofParts nodes edges
    let rank := (orderInput g).rankOf
    let order := (Arranged.ofInput (orderInput g) budget).arrangement.placeOf
    let inRank := fun r => {v | v < g.nodes.size ∧ rank v = r}
    (∀ r, Set.BijOn order (inRank r) (Set.Iio (inRank r).ncard)) ∧
    Set.InjOn (fun v => (rank v, order v)) {v | v < g.nodes.size} ∧
    (∀ v < g.nodes.size, g.Isolated (g.idAt v) → rank v = 0 ∧
      (∀ u ∈ inRank 0, ¬ g.Isolated (g.idAt u) → order u < order v) ∧
      ∀ u < v, g.Isolated (g.idAt u) → order u < order v) ∧
    ∀ settings : LayoutSettings, settings.sweepBudget = budget →
      (ofGraph settings g).placements.toList.map (fun p => (p.id, p.rank, p.order)) =
        g.nodes.toList.mapIdx fun v node => (node.id, rank v, order v) := by
  intro g rank order inRank
  have h : g.Consistent := Graph.consistent_ofParts nodes edges
  have hsound := sound_arrangement h budget
  have hmem : ∀ r v, v ∈ (Arranged.ofInput (orderInput g) budget).arrangement.column r ↔
      v ∈ inRank r := by
    intro r v
    rw [hsound.mem, size_ranks]
    rfl
  refine ⟨?_, ?_, ?_, ?_⟩
  · intro r
    have hbij := hsound.bijOn r
    rw [size_ranks] at hbij
    exact hbij
  · intro u hu v hv heq
    obtain ⟨hrank, horder⟩ := Prod.mk.inj heq
    exact hsound.eq_of_placeOf ((hmem (rank v) u).2 ⟨hu, hrank⟩) ((hmem (rank v) v).2 ⟨hv, rfl⟩)
      horder
  · intro v hv hiso
    have hzero : rank v = 0 := rankOf_of_isolated h hv hiso
    have hvmem := (hmem 0 v).2 ⟨hv, hzero⟩
    have hmark := (isIsolated_iff h hv).2 hiso
    -- of two nodes of a rank one has the lesser place
    have hcases : ∀ u, u ∈ inRank 0 → u ≠ v → ¬ order v < order u → order u < order v := by
      intro u hu hne hnot
      refine Nat.lt_of_le_of_ne (Nat.le_of_not_lt hnot) ?_
      intro heq
      exact hne (hsound.eq_of_placeOf ((hmem 0 u).2 hu) hvmem heq)
    refine ⟨hzero, ?_, ?_⟩
    · intro u hu hnot
      refine hcases u hu ?_ ?_
      · rintro rfl
        exact hnot hiso
      · intro hlt
        have := (hsound.last_of_placeOf hvmem ((hmem 0 u).2 hu) hlt hmark).1
        exact hnot ((isIsolated_iff h hu.1).1 this)
    · intro u huv huiso
      have hu : u < g.nodes.size := Nat.lt_trans huv hv
      have humem : u ∈ inRank 0 := ⟨hu, rankOf_of_isolated h hu huiso⟩
      refine hcases u humem (Nat.ne_of_lt huv) ?_
      intro hlt
      have := (hsound.last_of_placeOf hvmem ((hmem 0 u).2 humem) hlt hmark).2
      exact Nat.lt_asymm huv this
  · rintro settings rfl
    apply List.ext_getElem?
    intro i
    simp only [ofGraph, List.getElem?_map, Array.getElem?_toList, Array.getElem?_mapIdx,
      List.getElem?_mapIdx, Option.map_map]
    rfl

end Layout

end DataLineage
