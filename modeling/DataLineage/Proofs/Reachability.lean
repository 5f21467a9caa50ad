import DataLineage.Proofs.BreadthFirst
import DataLineage.Proofs.Neighbours

/-!
# What a node reaches, and how far away it is

The search of `Graph.reachable` goes over positions. Told by ids, it finds the nodes in the order of
their distances from the start along the edges of the graph, or against them.

* `Graph.Mirrored.mem_reachable_iff`: a node is found at a depth when that is its distance.
* `Graph.Mirrored.mem_reachableIds_iff`: the nodes found are those some walk within the bound leads
  to.
* `Graph.reachable_breadth_first`: the whole of it, with the order and the end of the search.
-/

namespace DataLineage

namespace Graph

variable {g : Graph} {start v : String} {direction : Direction} {generations : Generations}
  {i d : ℕ}

/-- The search from a node, by position. -/
def found (g : Graph) (i : ℕ) (direction : Direction) (generations : Generations) :
    List (ℕ × ℕ) :=
  Reach.search (g.neighbours direction) generations (Reach.Progress.init g.nodes.size i).seen
    [(i, 0)]

/-- A node at a position, and its depth in a search. -/
def reachedAt (g : Graph) (p : ℕ × ℕ) : Reached := ⟨g.idAt p.1, p.2⟩

theorem getElem?_nodes {j : ℕ} (hj : j < g.nodes.size) :
    g.nodes[j]?.map Node.id = some (g.idAt j) := by
  have hlt : j < g.nodeIds.length := by rwa [g.length_nodeIds]
  rw [idAt, List.getElem?_eq_getElem hlt, Option.getD_some, ← List.getElem?_eq_getElem hlt, nodeIds,
    List.getElem?_map, Array.getElem?_toList]

/-- From an unknown start nothing is found. -/
theorem Consistent.reachable_of_notMem (hg : g.Consistent) (hstart : start ∉ g.nodeIds) :
    g.reachable start direction generations = [] := by
  have hnone : g.positionOf? start = none := hg.positions.eq_none_iff.2 hstart
  rw [reachable, hnone]

/-- The search from a node, with what `search_isLeast` says of it by position. -/
theorem Mirrored.found_isLeast (hg : g.Consistent) (h : g.Mirrored) (direction : Direction)
    (generations : Generations) (hi : g.positionOf? start = some i) :
    (g.found i direction generations).head? = some (i, 0) ∧
      ((g.found i direction generations).map Prod.fst).Nodup ∧
      ((g.found i direction generations).Pairwise fun p q => p.2 ≤ q.2) ∧
      ∀ j d, (j, d) ∈ g.found i direction generations ↔
        IsLeast {k | Walk (fun u w => w ∈ g.neighbours direction u) i j k} d ∧
          generations.Allows d :=
  Reach.search_isLeast generations (fun _ _ hw => h.neighbour_lt hg hw) (hg.positionOf?_lt hi) rfl

/-- What is found are nodes of the graph. -/
theorem Mirrored.found_lt (hg : g.Consistent) (h : g.Mirrored)
    (hi : g.positionOf? start = some i) {p : ℕ × ℕ}
    (hp : p ∈ g.found i direction generations) : p.1 < g.nodes.size := by
  obtain ⟨-, -, -, hmem⟩ := h.found_isLeast hg direction generations hi
  obtain ⟨⟨hw, -⟩, -⟩ := (hmem p.1 p.2).1 hp
  have hw : Walk (fun u w => w ∈ g.neighbours direction u) i p.1 p.2 := hw
  have hclosed : ∀ a b, a < g.nodes.size → b ∈ g.neighbours direction a → b < g.nodes.size :=
    fun _ _ _ hb => h.neighbour_lt hg hb
  have hlt := hw.closed hclosed (hg.positionOf?_lt hi)
  exact hlt

theorem Mirrored.reachable_eq (hg : g.Consistent) (h : g.Mirrored)
    (hi : g.positionOf? start = some i) :
    g.reachable start direction generations =
      (g.found i direction generations).map g.reachedAt := by
  have hsome : ∀ p ∈ g.found i direction generations,
      (g.nodes[p.1]?.map fun node => (⟨node.id, p.2⟩ : Reached)) = some (g.reachedAt p) := by
    intro p hp
    have hid := getElem?_nodes (h.found_lt hg hi hp)
    obtain ⟨node, hnode, hidnode⟩ := Option.map_eq_some_iff.1 hid
    rw [hnode, Option.map_some, reachedAt, ← hidnode]
  rw [reachable, hi, ← List.filterMap_eq_map]
  exact List.filterMap_congr hsome

/-- A walk from a node in a direction leads to a node. -/
theorem Consistent.mem_nodeIds_of_path (hg : g.Consistent) (hstart : start ∈ g.nodeIds)
    (w : g.Path direction start v d) : v ∈ g.nodeIds := by
  cases direction with
  | ancestors =>
    refine w.reverse.closed ?_ hstart
    rintro _ _ - ⟨e, he, rfl, -⟩
    exact (hg.ends e (Array.mem_toList_iff.1 he)).1
  | descendants => exact hg.mem_nodeIds_of_walk w hstart

/-- Where a walk leads, one shorter than the number of nodes leads too. -/
theorem Consistent.exists_path_lt (hg : g.Consistent) (hstart : start ∈ g.nodeIds)
    (w : g.Path direction start v d) : ∃ k ≤ d, k < g.nodes.size ∧ g.Path direction start v k := by
  have hv : v ∈ g.nodeIds := hg.mem_nodeIds_of_path hstart w
  have hlt : ∀ a b k, a ∈ g.nodeIds →
      IsLeast {n | Walk (Joins g.edges.toList) a b n} k → k < g.nodes.size := by
    intro a b k ha hk
    have hcard : k < g.nodeIds.toFinset.card :=
      Walk.lt_card_of_isLeast
        (fun c _ hw => List.mem_toFinset.2 (hg.mem_nodeIds_of_walk hw ha)) hk
    rw [← g.length_nodeIds]
    exact Nat.lt_of_lt_of_le hcard (List.toFinset_card_le _)
  cases direction with
  | ancestors =>
    obtain ⟨k, hkd, hk⟩ := Walk.exists_isLeast w
    exact ⟨k, hkd, hlt v start k hv hk, hk.1⟩
  | descendants =>
    obtain ⟨k, hkd, hk⟩ := Walk.exists_isLeast w
    exact ⟨k, hkd, hlt start v k hstart hk, hk.1⟩

/-- **A node is found at a depth** when that is its distance and the bound allows it. -/
theorem Mirrored.mem_reachable_iff (hg : g.Consistent) (h : g.Mirrored)
    (hstart : start ∈ g.nodeIds) (v : String) (d : ℕ) :
    ⟨v, d⟩ ∈ g.reachable start direction generations ↔
      IsLeast {n | g.Path direction start v n} d ∧ generations.Allows d := by
  obtain ⟨i, hi⟩ := hg.positions.exists_iff_mem.2 hstart
  obtain ⟨-, -, -, hmem⟩ := h.found_isLeast hg direction generations hi
  rw [h.reachable_eq hg hi, List.mem_map]
  by_cases hv : v ∈ g.nodeIds
  · obtain ⟨j, hj⟩ := hg.positions.exists_iff_mem.2 hv
    have hpath : {k | Walk (fun u w => w ∈ g.neighbours direction u) i j k} =
        {n | g.Path direction start v n} := Set.ext fun _ => h.walk_neighbours_iff hg hi hj
    rw [← hpath, ← hmem]
    constructor
    · rintro ⟨p, hp, heq⟩
      obtain ⟨hid, rfl⟩ := Reached.mk.inj heq
      have hpos := hg.positionOf?_idAt (h.found_lt hg hi hp)
      rw [hid] at hpos
      obtain rfl := Option.some.inj (hj.symm.trans hpos)
      exact hp
    · intro hp
      exact ⟨(j, d), hp, by rw [reachedAt, hg.idAt_eq hj]⟩
  · constructor
    · rintro ⟨p, hp, heq⟩
      obtain ⟨rfl, -⟩ := Reached.mk.inj heq
      have hpos := hg.positionOf?_idAt (h.found_lt hg hi hp)
      exact absurd (hg.positions.exists_iff_mem.1 ⟨_, hpos⟩) hv
    · rintro ⟨⟨hw, -⟩, -⟩
      exact absurd (hg.mem_nodeIds_of_path hstart hw) hv

/-- The nodes found are those that some walk within the bound leads to. -/
theorem Mirrored.mem_reachableIds_iff (hg : g.Consistent) (h : g.Mirrored)
    (hstart : start ∈ g.nodeIds) :
    v ∈ g.reachableIds start direction generations ↔
      ∃ n, g.Path direction start v n ∧ generations.Allows n := by
  rw [reachableIds, Std.TreeSet.mem_ofList, List.contains_iff_mem, List.mem_map]
  constructor
  · rintro ⟨r, hr, rfl⟩
    obtain ⟨⟨hw, -⟩, hd⟩ := (h.mem_reachable_iff hg hstart r.id r.depth).1 hr
    exact ⟨r.depth, hw, hd⟩
  · rintro ⟨n, hw, hn⟩
    obtain ⟨d, hd, hleast⟩ : ∃ d ≤ n, IsLeast {n | g.Path direction start v n} d := by
      cases direction with
      | ancestors => exact Walk.exists_isLeast hw
      | descendants => exact Walk.exists_isLeast hw
    exact ⟨⟨v, d⟩, (h.mem_reachable_iff hg hstart v d).2 ⟨hleast, hn.mono hd⟩, rfl⟩

/-- The start is found first. -/
theorem Mirrored.head?_reachable (hg : g.Consistent) (h : g.Mirrored)
    (hi : g.positionOf? start = some i) :
    (g.reachable start direction generations).head? = some ⟨start, 0⟩ := by
  obtain ⟨hhead, -⟩ := h.found_isLeast hg direction generations hi
  rw [h.reachable_eq hg hi, List.head?_map, hhead, Option.map_some, reachedAt, hg.idAt_eq hi]

/-- No node is found twice. -/
theorem Mirrored.nodup_reachable (hg : g.Consistent) (h : g.Mirrored)
    (hi : g.positionOf? start = some i) :
    ((g.reachable start direction generations).map (·.id)).Nodup := by
  obtain ⟨-, hnodup, -, -⟩ := h.found_isLeast hg direction generations hi
  have hids : (g.reachable start direction generations).map (·.id) =
      ((g.found i direction generations).map Prod.fst).map g.idAt := by
    rw [h.reachable_eq hg hi, List.map_map, List.map_map]
    rfl
  rw [hids]
  refine hnodup.map_on ?_
  intro j hj k hk hjk
  obtain ⟨p, hp, rfl⟩ := List.mem_map.1 hj
  obtain ⟨q, hq, rfl⟩ := List.mem_map.1 hk
  exact hg.idAt_inj (h.found_lt hg hi hp) (h.found_lt hg hi hq) hjk

/-- Depths never fall. -/
theorem Mirrored.sorted_reachable (hg : g.Consistent) (h : g.Mirrored)
    (hi : g.positionOf? start = some i) :
    (g.reachable start direction generations).Pairwise fun p q => p.depth ≤ q.depth := by
  obtain ⟨-, -, hsorted, -⟩ := h.found_isLeast hg direction generations hi
  rw [h.reachable_eq hg hi, List.pairwise_map]
  exact hsorted

/-- The machine empties its queue, with one turn for each result. -/
theorem Mirrored.exists_iterate_turn (hg : g.Consistent) (h : g.Mirrored)
    (hi : g.positionOf? start = some i) : ∃ seen taken,
      (Reach.turn (g.neighbours direction)
          generations)^[(g.reachable start direction generations).length]
        (.init g.nodes.size i) = ⟨seen, [], taken⟩ ∧
      g.reachable start direction generations = taken.map g.reachedAt := by
  obtain ⟨seen, hturns⟩ := Reach.iterate_turn (g.neighbours direction) generations
    (.init g.nodes.size i)
  refine ⟨seen, g.found i direction generations, ?_, h.reachable_eq hg hi⟩
  rw [h.reachable_eq hg hi, List.length_map]
  exact hturns

/-- **Searches find nodes at their distances.** The start comes first, nothing comes twice, depths
never fall along the list, and a node is there with a depth just when that is the number of edges of
the shortest walk to it and the bound allows it. From an unknown start nothing is found. The machine
that takes one node from the queue at a time has emptied it after one turn for each result. -/
theorem reachable_breadth_first (nodes : List Node) (edges : List Edge) (start : String)
    (direction : Direction) (generations : Generations) :
    let g := Graph.ofParts nodes edges
    let l := g.reachable start direction generations
    (start ∉ g.nodeIds → l = []) ∧
    (start ∈ g.nodeIds → l.head? = some ⟨start, 0⟩) ∧
    (l.map (·.id)).Nodup ∧
    (l.Pairwise fun p q => p.depth ≤ q.depth) ∧
    (start ∈ g.nodeIds → ∀ v d,
      ⟨v, d⟩ ∈ l ↔ IsLeast {n | g.Path direction start v n} d ∧ generations.Allows d) ∧
    ∀ i, g.positionOf? start = some i → ∃ seen taken,
      (Reach.turn (g.neighbours direction) generations)^[l.length]
        (.init g.nodes.size i) = ⟨seen, [], taken⟩ ∧ l = taken.map g.reachedAt := by
  intro g l
  have hg : g.Consistent := consistent_ofParts nodes edges
  have h : g.Mirrored := mirrored_ofParts nodes edges
  by_cases hstart : start ∈ g.nodeIds
  · obtain ⟨i, hi⟩ := hg.positions.exists_iff_mem.2 hstart
    exact ⟨fun hnot => absurd hstart hnot, fun _ => h.head?_reachable hg hi,
      h.nodup_reachable hg hi, h.sorted_reachable hg hi, h.mem_reachable_iff hg,
      fun _ => h.exists_iterate_turn hg⟩
  · have hnil : l = [] := hg.reachable_of_notMem hstart
    refine ⟨fun _ => hnil, fun hmem => absurd hmem hstart, ?_, ?_, h.mem_reachable_iff hg,
      fun _ => h.exists_iterate_turn hg⟩
    · rw [hnil]
      exact List.nodup_nil
    · rw [hnil]
      exact List.Pairwise.nil

end Graph

end DataLineage
