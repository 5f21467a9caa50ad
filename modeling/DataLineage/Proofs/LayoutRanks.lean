import DataLineage.Proofs.KeptEdges
import DataLineage.Proofs.LongestPaths

/-!
# The ranks of a layout

A layout ranks the nodes of a graph by the kept edges, so a node's rank is the length of the longest
path of kept edges into it.

* `Layout.indexes_positions`: a layout finds the placement of each node by the node's id.
* `Layout.isGreatest_rank?`: the rank found there is the length of the longest path.
* `Layout.rank_is_longest_path`: the statement, with what follows for the edges and how the run of
  the ranking went.
-/

namespace DataLineage

variable {g : Graph} {settings : LayoutSettings} {a : String} {i v t : ℕ}

namespace Layout

/-! ## Looking up placements -/

theorem indexes_foldl_insert (ps : List Placement) (hnd : (ps.map Placement.id).Nodup) :
    Indexes (ps.zipIdx.foldl (fun (m : Std.TreeMap String ℕ) (p, i) => m.insert p.id i) ∅)
      (ps.map Placement.id) := by
  induction ps using List.reverseRecOn with
  | nil => exact Indexes.empty
  | append_singleton ps p ih =>
    rw [List.map_append, List.nodup_append] at hnd
    have hnew : p.id ∉ ps.map Placement.id := fun hm => hnd.2.2 p.id hm p.id (by simp) rfl
    have hpush := (ih hnd.1).push hnew
    rw [List.length_map] at hpush
    rw [List.zipIdx_append, List.foldl_append, List.map_append]
    simpa using hpush

/-- The placements stand in the order of the nodes. -/
theorem map_id_placements (settings : LayoutSettings) (g : Graph) :
    (ofGraph settings g).placements.toList.map Placement.id = g.nodeIds := by
  apply List.ext_getElem?
  intro i
  simp only [ofGraph, Graph.nodeIds, List.getElem?_map, Array.getElem?_toList,
    Array.getElem?_mapIdx, Option.map_map]
  rfl

/-- **A layout finds the placement of each node by the node's id.** -/
theorem indexes_positions (h : g.Consistent) :
    Indexes (ofGraph settings g).positions g.nodeIds := by
  rw [← map_id_placements settings g]
  apply indexes_foldl_insert
  show ((ofGraph settings g).placements.toList.map Placement.id).Nodup
  rw [map_id_placements]
  exact h.positions.nodup

/-- The rank at which a layout places a node. -/
def rank? (l : Layout) (id : String) : Option ℕ := (l.placement? id).map (·.rank)

theorem rank?_eq (h : g.Consistent) :
    rank? (ofGraph settings g) a =
      (g.positionOf? a).map fun i => ((adjacency g).ranks[i]?).getD 0 := by
  have hpos : (ofGraph settings g).positions[a]? = g.positionOf? a :=
    (indexes_positions h).getElem?_congr h.positions a
  rw [rank?, placement?, hpos]
  cases hi : g.positionOf? a with
  | none => rfl
  | some i =>
    -- the placement at a position has the rank found for that position
    have hlt : i < g.nodes.size := h.positionOf?_lt hi
    simp [ofGraph, hlt, orderInput, OrderInput.rankOf]

/-! ## Ranks and paths -/

/-- The ends of the kept edges by position, in order. -/
def keptEnds (g : Graph) : List (ℕ × ℕ) :=
  (g.edgeEnds.filter fun x => !(closingEdges g).contains x.edge).map fun x => (x.source, x.target)

theorem links_keptEnds_iff (settings : LayoutSettings) (h : g.Consistent) :
    Links (keptEnds g) v t ↔ JoinsAt g (kept settings g) v t := by
  simp only [Links, keptEnds, List.mem_map, List.mem_filter, Graph.mem_edgeEnds, Prod.mk.injEq,
    Bool.not_eq_true', ← Bool.not_eq_true, List.contains_iff_mem]
  constructor
  · rintro ⟨x, ⟨⟨e, he, hs, ht⟩, hnot⟩, rfl, rfl⟩
    exact ⟨e, (mem_kept_iff h).2 ⟨x.edge, he, hnot⟩, hs, ht⟩
  · rintro ⟨e, he, hs, ht⟩
    obtain ⟨i, hi, hnot⟩ := (mem_kept_iff h).1 he
    exact ⟨⟨i, v, t⟩, ⟨⟨e, hi, hs, ht⟩, hnot⟩, rfl, rfl⟩

theorem acyclic_links (h : g.Consistent) : Acyclic (Links (keptEnds g)) :=
  (acyclic_joinsAt_kept {} h).mono fun _ _ => (links_keptEnds_iff {} h).1

theorem keptEnds_lt (h : g.Consistent) :
    ∀ x ∈ keptEnds g, x.1 < g.nodes.size ∧ x.2 < g.nodes.size := by
  rintro ⟨v, t⟩ hx
  obtain ⟨e, -, hs, ht⟩ := (links_keptEnds_iff {} h).1 hx
  exact ⟨h.positionOf?_lt hs, h.positionOf?_lt ht⟩

/-- **A node's rank is the length of the longest path of kept edges into it.** -/
theorem isGreatest_rank? (settings : LayoutSettings) (h : g.Consistent) (ha : a ∈ g.nodeIds) :
    ∃ r, rank? (ofGraph settings g) a = some r ∧
      IsGreatest {k | ∃ u, Walk (Joins (kept settings g)) u a k} r := by
  obtain ⟨i, hi⟩ : ∃ i, g.positionOf? a = some i := h.positions.exists_iff_mem.2 ha
  obtain ⟨r, hr, ⟨u, w⟩, hmax⟩ :=
    Adjacency.isGreatest_ranks (keptEnds_lt h) (acyclic_links h) (h.positionOf?_lt hi)
  have hranks : (adjacency g).ranks[i]? = some r := hr
  refine ⟨r, by rw [rank?_eq h, hi, Option.map_some, hranks, Option.getD_some], ?_, ?_⟩
  · have hw : Walk (Joins (kept settings g)) (g.idAt u) (g.idAt i) r :=
      h.walk_ids (w.mono fun _ _ => (links_keptEnds_iff settings h).1)
    rw [h.idAt_eq hi] at hw
    exact ⟨_, hw⟩
  · rintro k ⟨b, w⟩
    have hw := h.walk_positions (fun _ => mem_edges_of_kept) w
    rw [Graph.positionAt_eq hi] at hw
    exact hmax ⟨_, hw.mono fun _ _ => (links_keptEnds_iff settings h).2⟩

theorem mem_nodeIds_of_rank? (h : g.Consistent) {r : ℕ}
    (hr : rank? (ofGraph settings g) a = some r) : a ∈ g.nodeIds := by
  rw [rank?_eq h, Option.map_eq_some_iff] at hr
  obtain ⟨i, hi, -⟩ := hr
  exact h.positions.exists_iff_mem.1 ⟨i, hi⟩

/-- A kept edge leads to a higher rank. -/
theorem rank?_lt (h : g.Consistent) {e : Edge} (he : e ∈ kept settings g) :
    ∃ r r', rank? (ofGraph settings g) e.source = some r ∧
      rank? (ofGraph settings g) e.target = some r' ∧ r < r' := by
  obtain ⟨hs, ht⟩ := h.ends e (mem_edges_of_kept he)
  obtain ⟨r, hr, ⟨u, w⟩, -⟩ := isGreatest_rank? settings h hs
  obtain ⟨r', hr', -, hmax⟩ := isGreatest_rank? settings h ht
  exact ⟨r, r', hr, hr', hmax ⟨u, w.snoc ⟨e, he, rfl, rfl⟩⟩⟩

/-- A node of a rank above zero has a predecessor in the rank before. -/
theorem exists_kept_of_rank? (h : g.Consistent) {r : ℕ}
    (hr : rank? (ofGraph settings g) a = some (r + 1)) :
    ∃ e ∈ kept settings g, e.target = a ∧ rank? (ofGraph settings g) e.source = some r := by
  obtain ⟨r', hr', ⟨u, w⟩, -⟩ := isGreatest_rank? settings h (mem_nodeIds_of_rank? h hr)
  obtain rfl : r + 1 = r' := Option.some.inj (hr.symm.trans hr')
  cases w with
  | snoc w hlast =>
    obtain ⟨e, he, rfl, rfl⟩ := hlast
    obtain ⟨rs, rt, hrs, hrt, hlt⟩ := rank?_lt h he
    obtain rfl : r + 1 = rt := Option.some.inj (hr.symm.trans hrt)
    obtain ⟨rs', hrs', -, hmax⟩ :=
      isGreatest_rank? settings h (mem_nodeIds_of_rank? h hrs)
    obtain rfl : rs = rs' := Option.some.inj (hrs.symm.trans hrs')
    have hle : r ≤ rs := hmax ⟨u, w⟩
    exact ⟨e, he, rfl, by rw [hrs, show rs = r by omega]⟩

/-- The ranks in use have no gap below them. -/
theorem exists_rank?_of_le (h : g.Consistent) (r : ℕ) :
    ∀ a, rank? (ofGraph settings g) a = some r → ∀ r' ≤ r,
      ∃ u, rank? (ofGraph settings g) u = some r' := by
  induction r with
  | zero => exact fun a ha r' hr' => ⟨a, by rw [ha, Nat.le_zero.1 hr']⟩
  | succ r ih =>
    intro a ha r' hr'
    rcases Nat.eq_or_lt_of_le hr' with rfl | hlt
    · exact ⟨a, ha⟩
    · obtain ⟨e, -, -, he⟩ := exists_kept_of_rank? h ha
      exact ih e.source he r' (Nat.le_of_lt_succ hlt)

/-- **Ranks are longest paths.** A layout gives every node the number of edges on the longest path
of kept edges into it. So kept edges lead to higher ranks, a node of a rank above zero has a
predecessor in the rank before, and the ranks in use have no gaps. While the ranks are found, each
counter that is taken from is positive, and each node leaves the queue exactly once. -/
theorem rank_is_longest_path (settings : LayoutSettings) (nodes : List Node) (edges : List Edge) :
    let g := Graph.ofParts nodes edges
    let l := ofGraph settings g
    (∀ a ∈ g.nodeIds, ∃ r, rank? l a = some r ∧
      IsGreatest {k | ∃ u, Walk (Joins (kept settings g)) u a k} r) ∧
    (∀ e ∈ kept settings g, ∃ r r', rank? l e.source = some r ∧ rank? l e.target = some r' ∧
      r < r') ∧
    (∀ a r, rank? l a = some (r + 1) →
      ∃ e ∈ kept settings g, e.target = a ∧ rank? l e.source = some r) ∧
    (∀ a r, rank? l a = some r → ∀ r' ≤ r, ∃ u, rank? l u = some r') ∧
    (∀ s w, Ranking.Follows (adjacency g) s w → ∃ c : ℤ, s.waiting[w]? = some c ∧ 0 < c) ∧
    (Ranking.run (adjacency g) g.nodes.size).queue = [] ∧
    (Ranking.run (adjacency g) g.nodes.size).settled.Perm (List.range g.nodes.size) := by
  intro g l
  have h : g.Consistent := Graph.consistent_ofParts nodes edges
  obtain ⟨hqueue, hsettled⟩ := Ranking.settled_run (keptEnds_lt h) (acyclic_links h)
  exact ⟨fun a ha => isGreatest_rank? settings h ha, fun e he => rank?_lt h he,
    fun a r ha => exists_kept_of_rank? h ha, fun a r ha => exists_rank?_of_le h r a ha,
    fun s w hf => Ranking.waiting_pos (keptEnds_lt h) hf, hqueue, hsettled⟩

end Layout

end DataLineage
