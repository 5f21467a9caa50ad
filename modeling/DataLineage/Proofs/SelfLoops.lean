import DataLineage.Proofs.EdgesOutside
import DataLineage.Proofs.InsertedEdge
import DataLineage.Proofs.LayoutOrders

/-!
# Self-loops in a layout

An edge from a node to itself closes a cycle, so a layout ignores it, and it makes no node less
isolated. But it counts as an edge into its node where the search for closing edges picks its roots:
a node without other incoming edges is no longer among the first roots. That can change which edges
of other cycles are ignored, unless no other cycle can be reached from the node. Apart from that a
layout does not change when a self-loop is added.

* `Layout.mem_ignored_iff`: edges between two nodes are ignored alike in graphs that differ in
  self-loops, if the search starts from the same nodes where there are cycles.
* `Layout.orderInput_congr`: then the nodes are placed alike.
* `Layout.ofGraph_selfLoop`: what adding a self-loop does to a layout.
-/

namespace DataLineage

variable {g g' : Graph} {S : Set String} {settings : LayoutSettings} {e : Edge} {i j : ℕ}

namespace Graph

/-- Two graphs of the same nodes that differ in self-loops alone. -/
structure SameButLoops (g g' : Graph) : Prop where
  nodes : g'.nodes = g.nodes
  positions : g'.positions = g.positions
  properEdges : g'.properEdges = g.properEdges

namespace SameButLoops

theorem idAt (h : SameButLoops g g') : g'.idAt = g.idAt := by
  funext i
  rw [Graph.idAt, Graph.idAt, nodeIds, nodeIds, h.nodes]

theorem ends? (h : SameButLoops g g') : g'.ends? = g.ends? := by
  funext e
  simp only [Graph.ends?, positionOf?, h.positions]

theorem edgesOutside (h : SameButLoops g g') (S : Set String) :
    g'.edgesOutside S = g.edgesOutside S := by
  rw [Graph.edgesOutside, Graph.edgesOutside, h.properEdges]

theorem closed (h : SameButLoops g g') (hS : g.Closed S) : g'.Closed S := by
  rw [Closed, h.properEdges]
  exact hS

end SameButLoops

end Graph

namespace Layout

open DataLineage.Graph

/-! ## Ignored edges -/

/-- A layout ignores self-loops. -/
theorem mem_ignored_of_loop (h : g.Consistent) (he : e ∈ g.edges) (hloop : e.source = e.target) :
    e ∈ ignored settings g := by
  have hmem := Array.mem_toList_iff.2 he
  by_contra hnot
  have hkept : e ∈ kept settings g := by
    refine List.mem_filter.2 ⟨hmem, ?_⟩
    rw [Bool.not_eq_true', ← Bool.not_eq_true]
    exact fun hid => hnot (List.mem_filter.2 ⟨hmem, hid⟩)
  have hcycle := acyclic_kept settings h e.source 1 (.single ⟨e, hkept, rfl, hloop.symm⟩)
  cases hcycle

theorem mem_properEdges_of_kept (h : g.Consistent) (he : e ∈ kept settings g) :
    e ∈ g.properEdges := by
  refine mem_properEdges.2 ⟨mem_edges_of_kept he, fun hloop => ?_⟩
  exact notMem_ignored_of_kept he (mem_ignored_of_loop h (mem_edges_of_kept he) hloop)

/-- No edge into a node that is on no cycle is ignored, apart from self-loops. -/
theorem notMem_ignored_of_acyclic (h : g.Consistent) (he : e ∈ g.properEdges)
    (hcycle : ∀ n, Walk (Joins g.properEdges) e.target e.target n → n = 0) :
    e ∉ ignored settings g := by
  intro hignored
  obtain ⟨n, w⟩ := walk_of_ignored h hignored
  have hproper : Walk (Joins g.properEdges) e.target e.source n := by
    refine w.mono ?_
    rintro a b ⟨f, hf, hs, ht⟩
    exact ⟨f, mem_properEdges_of_kept h hf, hs, ht⟩
  have := hcycle (n + 1) (hproper.snoc ⟨e, he, rfl, rfl⟩)
  omega

/-- **The search decides alike** on an edge outside `S`, whatever self-loops there are. -/
theorem mem_closingEdges_iff (h : g.Consistent) (h' : g'.Consistent) (hsame : SameButLoops g g')
    (hS : g.Closed S)
    (hled : ∀ a ∉ S, (∃ e ∈ g.edges, e.target = a) ↔ ∃ e ∈ g'.edges, e.target = a)
    (he : g.edges[i]? = some e) (he' : g'.edges[j]? = some e) (hout : e ∈ g.edgesOutside S) :
    i ∈ closingEdges g ↔ j ∈ closingEdges g' := by
  have hT := h.thins hS
  have hT' := h'.thins (hsame.closed hS)
  rw [endsAmong, hsame.ends?, hsame.edgesOutside, hsame.idAt, hsame.nodes] at hT'
  have hplace : g.placeOutside S i = some ((g.edgesOutside S).idxOf e) := by
    rw [placeOutside_eq he, if_pos hout]
  have hplace' : g'.placeOutside S j = some ((g.edgesOutside S).idxOf e) := by
    rw [placeOutside_eq he', hsame.edgesOutside, if_pos hout]
  rw [mem_closingEdges h, mem_closingEdges h', hsame.nodes]
  refine CycleEdges.mem_find_iff hT hT' (fun _ _ _ => h.placeOutside_inj)
    (fun _ _ _ => h'.placeOutside_inj) ?_ hplace hplace'
  intro w hw
  have hledTo' := h'.ledTo_iff (w := w)
  rw [hsame.nodes, hsame.idAt] at hledTo'
  rw [h.ledTo_iff, hledTo', hled _ hw]

/-- The number of an edge is found when the edge is ignored. -/
theorem mem_ignored_iff_closing (h : g.Consistent) (he : g.edges[i]? = some e) :
    e ∈ ignored settings g ↔ i ∈ closingEdges g := by
  rw [ignored, List.mem_filter, List.contains_iff_mem, mem_ignoredEdges_iff h he]
  exact and_iff_right (Array.mem_toList_iff.2 (Array.mem_of_getElem? he))

/-- A set that no edge leaves, with no cycle in it, and outside it the same nodes have incoming
edges in both graphs. -/
structure Apart (S : Set String) (g g' : Graph) : Prop where
  closed : g.Closed S
  acyclic : ∀ a ∈ S, ∀ n, Walk (Joins g.properEdges) a a n → n = 0
  led : ∀ a ∉ S, (∃ e ∈ g.edges, e.target = a) ↔ ∃ e ∈ g'.edges, e.target = a

/-- **An edge between two nodes is ignored alike** in graphs that differ in self-loops. -/
theorem mem_ignored_iff (h : g.Consistent) (h' : g'.Consistent) (hsame : SameButLoops g g')
    (hS : Apart S g g') (he : e ∈ g.properEdges) :
    e ∈ ignored settings g ↔ e ∈ ignored settings g' := by
  have he' : e ∈ g'.properEdges := hsame.properEdges ▸ he
  by_cases htarget : e.target ∈ S
  · have hcycle := hS.acyclic e.target htarget
    have hcycle' : ∀ n, Walk (Joins g'.properEdges) e.target e.target n → n = 0 := by
      rwa [hsame.properEdges]
    exact iff_of_false (notMem_ignored_of_acyclic h he hcycle)
      (notMem_ignored_of_acyclic h' he' hcycle')
  · obtain ⟨hmem, hne⟩ := mem_properEdges.1 he
    obtain ⟨i, hi⟩ := Array.getElem?_of_mem hmem
    obtain ⟨j, hj⟩ := Array.getElem?_of_mem (mem_properEdges.1 he').1
    rw [mem_ignored_iff_closing h hi, mem_ignored_iff_closing h' hj]
    exact mem_closingEdges_iff h h' hsame hS.closed hS.led hi hj
      (mem_edgesOutside.2 ⟨hmem, hne, htarget⟩)

/-! ## What the order of the nodes depends on -/

/-- The kept edges are the edges between two nodes that are not ignored. -/
theorem kept_eq (settings : LayoutSettings) (h : g.Consistent) :
    kept settings g = g.properEdges.filter fun e => e ∉ ignored settings g := by
  rw [kept, properEdges, List.filter_filter]
  refine List.filter_congr fun e he => ?_
  have hmem := Array.mem_toList_iff.1 he
  have hid : e ∈ ignored settings g ↔ e.id ∈ (ofGraph settings g).ignoredEdges := by
    rw [ignored, List.mem_filter, List.contains_iff_mem]
    exact and_iff_right he
  have hloop : e.source = e.target → e ∈ ignored settings g := mem_ignored_of_loop h hmem
  rw [Bool.eq_iff_iff]
  simp only [Edge.isSelfLoop, Bool.not_eq_true', ← Bool.not_eq_true, List.contains_iff_mem,
    ← hid, Bool.and_eq_true, decide_eq_true_eq, beq_iff_eq]
  tauto

theorem kept_congr (h : g.Consistent) (h' : g'.Consistent) (hsame : SameButLoops g g')
    (hS : Apart S g g') : kept settings g' = kept settings g := by
  rw [kept_eq settings h, kept_eq settings h', hsame.properEdges]
  refine List.filter_congr fun e he => ?_
  exact decide_eq_decide.2 (not_congr (mem_ignored_iff h h' hsame hS he).symm)

/-- The ends of the kept edges are those of the list of kept edges. -/
theorem keptEnds_eq (settings : LayoutSettings) (h : g.Consistent) :
    keptEnds g = (kept settings g).filterMap g.ends? := by
  rw [keptEnds, edgeEnds_eq, endsAmong, List.filter_filterMap, List.map_filterMap, kept,
    List.filterMap_filter]
  conv_rhs => rw [← filterMap_zipIdx]
  refine List.filterMap_congr ?_
  rintro ⟨e, i⟩ hei
  rw [List.mem_zipIdx_iff_getElem?, Array.getElem?_toList] at hei
  have hid : (ofGraph settings g).ignoredEdges.contains e.id = (closingEdges g).contains i := by
    rw [Bool.eq_iff_iff, List.contains_iff_mem, List.contains_iff_mem, mem_ignoredEdges_iff h hei]
  rw [hid]
  cases hends : g.ends? e with
  | none => simp
  | some p => cases hi : (closingEdges g).contains i <;> simp only [Option.map_some,
      Option.filter_some, hi, Bool.not_true, Bool.not_false, Bool.false_eq_true, if_true, if_false,
      Option.map_none]

/-- Self-loops make no node less isolated. -/
theorem isolated_congr (hsame : SameButLoops g g') (a : String) : g'.Isolated a ↔ g.Isolated a := by
  have hproper : ∀ g : Graph, g.Isolated a ↔
      ∀ e ∈ g.properEdges, ¬ (e.source = a ∨ e.target = a) := by
    intro g
    simp only [Graph.Isolated, mem_properEdges, and_imp]
    exact ⟨fun hall e he hne hend => hne (hall e he hend),
      fun hall e he hend => by_contra fun hne => hall e he hne hend⟩
  rw [hproper, hproper, hsame.properEdges]

theorem isolatedNodes_congr (h : g.Consistent) (h' : g'.Consistent) (hsame : SameButLoops g g') :
    (orderInput g').isolated = (orderInput g).isolated := by
  have hmark : ∀ {g : Graph} {v : ℕ}, v < g.nodes.size →
      (orderInput g).isolated[v]? = some ((orderInput g).isIsolated v) := by
    intro g v hv
    rw [OrderInput.isIsolated, orderInput, getElem?_isolatedNodes hv, Option.getD_some]
  have hsize : (orderInput g').isolated.size = (orderInput g).isolated.size := by
    rw [orderInput, orderInput, size_isolatedNodes, size_isolatedNodes, hsame.nodes]
  refine Array.ext hsize fun v hv' hv => ?_
  rw [orderInput, size_isolatedNodes] at hv hv'
  have heq : (orderInput g').isolated[v]? = (orderInput g).isolated[v]? := by
    rw [hmark hv', hmark hv, Option.some.injEq, Bool.eq_iff_iff, isIsolated_iff h' hv',
      isIsolated_iff h hv, hsame.idAt, isolated_congr hsame]
  rwa [Array.getElem?_eq_getElem, Array.getElem?_eq_getElem, Option.some.injEq] at heq

/-- **Self-loops do not matter to what the nodes are placed by.** -/
theorem orderInput_congr (h : g.Consistent) (h' : g'.Consistent) (hsame : SameButLoops g g')
    (hS : Apart S g g') : orderInput g' = orderInput g := by
  have hkept : keptEnds g' = keptEnds g := by
    rw [keptEnds_eq {} h', keptEnds_eq {} h, kept_congr h h' hsame hS, hsame.ends?]
  have hadjacency : adjacency g' = adjacency g := by
    change Adjacency.ofEdges g'.nodes.size (keptEnds g') = .ofEdges g.nodes.size (keptEnds g)
    rw [hkept, hsame.nodes]
  have hisolated :
      isolatedNodes g'.nodes.size g'.edgeEnds = isolatedNodes g.nodes.size g.edgeEnds :=
    isolatedNodes_congr h h' hsame
  rw [orderInput, orderInput, hadjacency, hisolated]

/-- The layouts differ in what they report as ignored alone. -/
theorem ofGraph_congr (h : g.Consistent) (h' : g'.Consistent) (hsame : SameButLoops g g')
    (hS : Apart S g g') :
    ofGraph settings g' =
      { ofGraph settings g with ignoredEdges := (ofGraph settings g').ignoredEdges } := by
  simp only [ofGraph, orderInput_congr h h' hsame hS, hsame.nodes]

theorem filter_mem_ignored (settings : LayoutSettings) (g : Graph) :
    (g.edges.toList.filter fun e => e ∈ ignored settings g) = ignored settings g :=
  filter_mem_filter _ _

/-! ## One self-loop more -/

/-- Whether a cycle of two or more nodes can be reached from a node. -/
def ReachesCycle (g : Graph) (a : String) : Prop :=
  ∃ b m n, Walk (Joins g.properEdges) a b m ∧ Walk (Joins g.properEdges) b b (n + 1)

section

variable {loop : Edge} {before after : List Edge}

theorem mem_edges_insert (hedges : g.edges.toList = before ++ after)
    (hedges' : g'.edges.toList = before ++ loop :: after) (e : Edge) :
    e ∈ g'.edges ↔ e = loop ∨ e ∈ g.edges := by
  rw [← Array.mem_toList_iff, ← Array.mem_toList_iff, hedges, hedges']
  simp only [List.mem_append, List.mem_cons]
  tauto

/-- If no other edge leads to the node of the self-loop, the nodes that can be reached from there
are kept apart. -/
theorem exists_apart (hedges : g.edges.toList = before ++ after)
    (hedges' : g'.edges.toList = before ++ loop :: after) (hloop : loop.source = loop.target)
    (hroot : (∃ e ∈ g.edges, e.target = loop.source) ∨ ¬ ReachesCycle g loop.source) :
    ∃ S, Apart S g g' := by
  have hled : ∀ a, (loop.target = a → ∃ e ∈ g.edges, e.target = a) →
      ((∃ e ∈ g.edges, e.target = a) ↔ ∃ e ∈ g'.edges, e.target = a) := by
    intro a ha
    simp only [mem_edges_insert hedges hedges']
    constructor
    · rintro ⟨e, he, heq⟩
      exact ⟨e, Or.inr he, heq⟩
    · rintro ⟨e, rfl | he, heq⟩
      · exact ha heq
      · exact ⟨e, he, heq⟩
  rcases hroot with hin | hcycle
  · refine ⟨∅, fun _ _ hmem => hmem.elim, fun _ hmem => hmem.elim, fun a _ => hled a ?_⟩
    rintro rfl
    rwa [← hloop]
  · refine ⟨{b | ∃ m, Walk (Joins g.properEdges) loop.source b m}, ?closed, ?acyclic, ?led⟩
    case closed =>
      rintro e he ⟨m, w⟩
      exact ⟨m + 1, w.snoc ⟨e, he, rfl, rfl⟩⟩
    case acyclic =>
      rintro a ⟨m, w⟩ n hw
      cases n with
      | zero => rfl
      | succ n => exact absurd ⟨a, m, n, w, hw⟩ hcycle
    case led =>
      intro a ha
      refine hled a ?_
      rintro rfl
      exact absurd ⟨0, hloop ▸ .nil _⟩ ha

/-- The self-loop is ignored in its place, and the other edges are ignored as they were. -/
theorem ignored_insert (h : g.Consistent) (h' : g'.Consistent) (hsame : SameButLoops g g')
    (hS : Apart S g g') (hedges : g.edges.toList = before ++ after)
    (hedges' : g'.edges.toList = before ++ loop :: after) (hloop : loop.source = loop.target) :
    ignored settings g' = (before.filter fun e => e ∈ ignored settings g) ++
      loop :: after.filter fun e => e ∈ ignored settings g := by
  have hmem := mem_edges_insert hedges hedges'
  have hsameIgnored : ∀ e ∈ before ++ after,
      decide (e ∈ ignored settings g') = decide (e ∈ ignored settings g) := by
    intro e he
    have hg : e ∈ g.edges := Array.mem_toList_iff.1 (hedges ▸ he)
    have hg' : e ∈ g'.edges := (hmem e).2 (Or.inr hg)
    rw [decide_eq_decide]
    by_cases hself : e.source = e.target
    · exact iff_of_true (mem_ignored_of_loop h' hg' hself) (mem_ignored_of_loop h hg hself)
    · exact (mem_ignored_iff h h' hsame hS (mem_properEdges.2 ⟨hg, hself⟩)).symm
  have hloopIgnored : loop ∈ ignored settings g' :=
    mem_ignored_of_loop h' ((hmem loop).2 (Or.inl rfl)) hloop
  rw [← filter_mem_ignored settings g', hedges', List.filter_append,
    List.filter_cons_of_pos (by simpa using hloopIgnored),
    List.filter_congr fun e he => hsameIgnored e (List.mem_append_left _ he),
    List.filter_congr fun e he => hsameIgnored e (List.mem_append_right _ he)]

end

/-- **Adding a self-loop** anywhere among the edges, under an id of its own, changes nothing in a
layout but that the self-loop is reported as ignored in its place, if another edge leads to its node
or no cycle of two or more nodes can be reached from there. -/
theorem ofGraph_selfLoop (settings : LayoutSettings) {nodes : List Node} {front back : List Edge}
    {loop : Edge} (hnode : loop.source ∈ nodes.map Node.id) (hloop : loop.source = loop.target)
    (hid : ∀ e ∈ (ofParts nodes (front ++ back)).edges, e.id ≠ loop.id)
    (hroot : (∃ e ∈ (ofParts nodes (front ++ back)).edges, e.target = loop.source) ∨
      ¬ ReachesCycle (ofParts nodes (front ++ back)) loop.source) :
    let l := ofGraph settings (ofParts nodes (front ++ back))
    let before := (ofParts nodes front).edges.toList
    ∃ after ids ids',
      (ofParts nodes (front ++ back)).edges.toList = before ++ after ∧
      (ofParts nodes (front ++ loop :: back)).edges.toList = before ++ loop :: after ∧
      ids ⊆ before.map Edge.id ∧ ids' ⊆ after.map Edge.id ∧ l.ignoredEdges = ids ++ ids' ∧
      ofGraph settings (ofParts nodes (front ++ loop :: back)) =
        { l with ignoredEdges := ids ++ loop.id :: ids' } := by
  intro l before
  have hends : Within (nodes.map Node.id) loop := ⟨hnode, hloop ▸ hnode⟩
  obtain ⟨after, hedges, hedges'⟩ := edges_ofParts_insert hends hid
  have h := consistent_ofParts nodes (front ++ back)
  have h' := consistent_ofParts nodes (front ++ loop :: back)
  have hsame : SameButLoops (ofParts nodes (front ++ back))
      (ofParts nodes (front ++ loop :: back)) := by
    refine ⟨?_, ?_, ?_⟩
    · rw [ofParts, ofParts, nodes_foldl_addEdge, nodes_foldl_addEdge]
    · rw [positions_ofParts, positions_ofParts]
    · rw [properEdges, properEdges, hedges, hedges', List.filter_append, List.filter_append,
        List.filter_cons_of_neg (by simp [Edge.isSelfLoop, hloop])]
  obtain ⟨S, hS⟩ := exists_apart hedges hedges' hloop hroot
  let p : Edge → Bool := fun e => e ∈ ignored settings (ofParts nodes (front ++ back))
  have hids : l.ignoredEdges = (before.filter p).map Edge.id ++ (after.filter p).map Edge.id := by
    rw [ignoredEdges_eq h, ← filter_mem_ignored, hedges, List.filter_append, List.map_append]
  have hids' : (ofGraph settings (ofParts nodes (front ++ loop :: back))).ignoredEdges =
      (before.filter p).map Edge.id ++ loop.id :: (after.filter p).map Edge.id := by
    rw [ignoredEdges_eq h', ignored_insert h h' hsame hS hedges hedges' hloop, List.map_append,
      List.map_cons]
  refine ⟨after, (before.filter p).map Edge.id, (after.filter p).map Edge.id, hedges, hedges',
    List.map_subset _ List.filter_sublist.subset, List.map_subset _ List.filter_sublist.subset,
    hids, ?_⟩
  rw [← hids']
  exact ofGraph_congr h h' hsame hS

/-- A self-loop on a node of a cycle leaves the placements as they are. -/
theorem placements_selfLoop_of_cycle :
    let nodes : List Node := [⟨"a", .model, "a"⟩, ⟨"b", .model, "b"⟩, ⟨"c", .model, "c"⟩]
    let front : List Edge := [.between "a" "b" .explicit]
    let back : List Edge := [.between "b" "c" .explicit, .between "c" "a" .explicit]
    (ofGraph {} (ofParts nodes (front ++ .between "b" "b" .explicit :: back))).placements =
      (ofGraph {} (ofParts nodes (front ++ back))).placements := by
  intro nodes front back
  have hid : ∀ e ∈ (ofParts nodes (front ++ back)).edges,
      e.id ≠ (Edge.between "b" "b" .explicit).id := by decide +kernel
  have hnode : (Edge.between "b" "b" .explicit).source ∈ nodes.map Node.id := by decide
  have hroot : ∃ e ∈ (ofParts nodes (front ++ back)).edges, e.target = "b" := by decide +kernel
  obtain ⟨after, ids, ids', -, -, -, -, -, hlayout⟩ :=
    ofGraph_selfLoop {} hnode rfl hid (Or.inl hroot)
  rw [hlayout]

/-- Two nodes that lead to each other, and a third that leads to them. -/
def cycleBehind : List Node × List Edge :=
  ([⟨"a", .model, "a"⟩, ⟨"b", .model, "b"⟩, ⟨"v", .model, "v"⟩],
    [.between "a" "b" .explicit, .between "b" "a" .explicit, .between "v" "b" .explicit])

/-- A self-loop on the only node that no edge leads to. The search no longer starts there, and
another edge of the cycle behind it is ignored. -/
theorem rank?_selfLoop_ne :
    let g := ofParts cycleBehind.1 cycleBehind.2
    let g' := ofParts cycleBehind.1 (cycleBehind.2 ++ [.between "v" "v" .explicit])
    rank? (ofGraph {} g) "a" = some 2 ∧ rank? (ofGraph {} g') "a" = some 0 ∧
      (ofGraph {} g).ignoredEdges = ["a->b"] ∧ (ofGraph {} g').ignoredEdges = ["b->a", "v->v"] := by
  intro g g'
  have h : g.Consistent := consistent_ofParts _ _
  have h' : g'.Consistent := consistent_ofParts _ _
  have htable : outEdges g.nodes.size g.edgeEnds = #[[(1, 0)], [(0, 1)], [(1, 2)]] := by
    decide +kernel
  have htable' : outEdges g'.nodes.size g'.edgeEnds = #[[(1, 0)], [(0, 1)], [(1, 2), (2, 3)]] := by
    decide +kernel
  have hfind : CycleEdges.find #[[(1, 0)], [(0, 1)], [(1, 2)]] = [0] := by cbv
  have hfind' : CycleEdges.find #[[(1, 0)], [(0, 1)], [(1, 2), (2, 3)]] = [3, 1] := by cbv
  have hclosing : closingEdges g = [0] := by
    rw [closingEdges, htable, hfind]
    decide +kernel
  have hclosing' : closingEdges g' = [1, 3] := by
    rw [closingEdges, htable', hfind']
    decide +kernel
  refine ⟨?_, ?_, ?_, ?_⟩
  · rw [rank?_eq h, adjacency, hclosing]
    decide +kernel
  · rw [rank?_eq h', adjacency, hclosing']
    decide +kernel
  · simp only [ofGraph, hclosing]
    decide +kernel
  · simp only [ofGraph, hclosing']
    decide +kernel

end Layout

end DataLineage
