import DataLineage.Proofs.CycleBreaking
import DataLineage.Proofs.ThinnedSearch

/-!
# The edges outside a set of nodes

For a set of nodes that no edge leaves, the edges that lead neither into the set nor from a node to
itself make a table of their own, in which they are numbered anew. It is a thinned table of all
edges, so a search of the graph finds of these edges what a search of that table finds.

* `Graph.Consistent.endsAmong_edgesOutside`: the edges outside a set, in the table of all edges.
* `Graph.Consistent.thins`: they make a thinned table.
* `Graph.Consistent.ledTo_iff`: which nodes the edges of the table lead to.
-/

namespace DataLineage

open CycleEdges (outs LedTo Thins thin)

variable {g : Graph} {S : Set String} {e : Edge} {i j w : ℕ}

/-! ## Lists -/

/-- What depends on the entries of a list alone does not depend on their places. -/
theorem filterMap_zipIdx {α β : Type*} (f : α → Option β) (xs : List α) :
    xs.zipIdx.filterMap (fun x => f x.1) = xs.filterMap f := by
  conv_rhs => rw [← List.zipIdx_map_fst 0 xs, List.filterMap_map]
  rfl

/-- Picking what was picked is picking it again. -/
theorem filter_mem_filter {α : Type*} [DecidableEq α] (xs : List α) (p : α → Bool) :
    (xs.filter fun x => x ∈ xs.filter p) = xs.filter p := by
  refine List.filter_congr fun x hx => ?_
  rw [Bool.eq_iff_iff, decide_eq_true_iff, List.mem_filter]
  exact and_iff_right hx

namespace Graph

/-! ## Edges by their ends -/

/-- The positions of an edge's ends. -/
def ends? (g : Graph) (e : Edge) : Option (ℕ × ℕ) :=
  (g.positionOf? e.source).bind fun source =>
    (g.positionOf? e.target).map fun target => (source, target)

/-- The ends of some edges, each with the edge's place among them. -/
def endsAmong (g : Graph) (edges : List Edge) : List EdgeEnds :=
  edges.zipIdx.filterMap fun x => (g.ends? x.1).map fun p => ⟨x.2, p.1, p.2⟩

theorem edgeEnds_eq (g : Graph) : g.edgeEnds = g.endsAmong g.edges.toList := by
  refine List.filterMap_congr ?_
  rintro ⟨e, i⟩ -
  simp only [ends?]
  cases g.positionOf? e.source <;> cases g.positionOf? e.target <;> rfl

/-- The edges that lead from one node to another. -/
def properEdges (g : Graph) : List Edge := g.edges.toList.filter fun e => !e.isSelfLoop

theorem mem_properEdges : e ∈ g.properEdges ↔ e ∈ g.edges ∧ e.source ≠ e.target := by
  simp [properEdges, Edge.isSelfLoop]

open scoped Classical in
/-- The edges that lead from one node to another outside `S`. -/
noncomputable def edgesOutside (g : Graph) (S : Set String) : List Edge :=
  g.properEdges.filter fun e => decide (e.target ∉ S)

/-- The place among the edges outside `S` of the edge of a number. -/
noncomputable def placeOutside (g : Graph) (S : Set String) (i : ℕ) : Option ℕ :=
  (g.edges[i]?).bind fun e =>
    if e ∈ g.edgesOutside S then some ((g.edgesOutside S).idxOf e) else none

theorem mem_edgesOutside :
    e ∈ g.edgesOutside S ↔ e ∈ g.edges ∧ e.source ≠ e.target ∧ e.target ∉ S := by
  simp only [edgesOutside, List.mem_filter, mem_properEdges, decide_eq_true_eq, and_assoc]

theorem placeOutside_eq (he : g.edges[i]? = some e) :
    g.placeOutside S i =
      if e ∈ g.edgesOutside S then some ((g.edgesOutside S).idxOf e) else none := by
  rw [placeOutside, he, Option.bind_some]

/-- No edge leaves `S`. -/
def Closed (g : Graph) (S : Set String) : Prop :=
  ∀ e ∈ g.properEdges, e.source ∈ S → e.target ∈ S

theorem Consistent.nodup_edges (h : g.Consistent) : g.edges.toList.Nodup := h.edgeIds.of_map

theorem Consistent.nodup_edgesOutside (h : g.Consistent) (S : Set String) :
    (g.edgesOutside S).Nodup :=
  (List.filter_sublist.trans List.filter_sublist).nodup h.nodup_edges

/-- The ends of the edges outside `S` are those of all edges, under new numbers. -/
theorem Consistent.endsAmong_edgesOutside (h : g.Consistent) (S : Set String) :
    g.endsAmong (g.edgesOutside S) = g.edgeEnds.filterMap fun x =>
      (g.placeOutside S x.edge).map fun k => ⟨k, x.source, x.target⟩ := by
  -- what comes of an edge, by the edge alone
  let entry : Edge → Option EdgeEnds := fun e =>
    (g.ends? e).map fun p => ⟨(g.edgesOutside S).idxOf e, p.1, p.2⟩
  have hleft : g.endsAmong (g.edgesOutside S) = (g.edgesOutside S).filterMap entry := by
    have hzip : (g.edgesOutside S).zipIdx =
        (g.edgesOutside S).map fun e => (e, (g.edgesOutside S).idxOf e) := by
      refine List.ext_getElem (by simp) fun i hi hi' => ?_
      rw [List.getElem_zipIdx, List.getElem_map, (h.nodup_edgesOutside S).idxOf_getElem,
        Nat.zero_add]
    rw [endsAmong, hzip, List.filterMap_map]
    rfl
  have houtside : g.edgesOutside S = g.edges.toList.filter fun e => e ∈ g.edgesOutside S := by
    rw [edgesOutside, properEdges, List.filter_filter, filter_mem_filter]
  rw [hleft, houtside, List.filterMap_filter, ← filterMap_zipIdx, edgeEnds_eq, endsAmong,
    List.filterMap_filterMap]
  refine List.filterMap_congr ?_
  rintro ⟨e, i⟩ hei
  rw [List.mem_zipIdx_iff_getElem?, Array.getElem?_toList] at hei
  cases hends : g.ends? e with
  | none => simp [entry, hends]
  | some p =>
    rw [Option.map_some, Option.bind_some, placeOutside_eq hei]
    by_cases he : e ∈ g.edgesOutside S
    · simp [entry, hends, he]
    · simp [he]

/-! ## The table of the edges outside a set -/

theorem Consistent.placeOutside_inj (h : g.Consistent) {k : ℕ} (hi : g.placeOutside S i = some k)
    (hj : g.placeOutside S j = some k) : i = j := by
  have hplace : ∀ {i}, g.placeOutside S i = some k →
      ∃ e, g.edges[i]? = some e ∧ (g.edgesOutside S)[k]? = some e := by
    intro i hi
    obtain ⟨e, he, hk⟩ := Option.bind_eq_some_iff.1 hi
    split at hk
    next hmem =>
      cases hk
      exact ⟨e, he, List.getElem?_idxOf hmem⟩
    next => cases hk
  obtain ⟨e, he, hk⟩ := hplace hi
  obtain ⟨f, hf, hk'⟩ := hplace hj
  rw [hk] at hk'
  exact h.edge_unique he hf (by rw [Option.some.inj hk'])

/-- New numbers for some edges, row by row. -/
theorem thin_row (f : ℕ → Option ℕ) (ends : List EdgeEnds) (v : ℕ) :
    thin f ((ends.filter fun x => x.source = v).map fun x => (x.target, x.edge)) =
      ((ends.filterMap fun x => (f x.edge).map fun k => (⟨k, x.source, x.target⟩ : EdgeEnds)).filter
        fun x => x.source = v).map fun x => (x.target, x.edge) := by
  induction ends with
  | nil => rfl
  | cons x ends ih =>
    by_cases hx : x.source = v
    · rw [List.filter_cons_of_pos (by simpa using hx), List.map_cons]
      cases hf : f x.edge with
      | none => rw [CycleEdges.thin_cons_none hf, ih, List.filterMap_cons_none (by simp [hf])]
      | some k =>
        rw [CycleEdges.thin_cons_some hf, ih, List.filterMap_cons_some (by rw [hf]; rfl),
          List.filter_cons_of_pos (by simpa using hx), List.map_cons]
    · rw [List.filter_cons_of_neg (by simpa using hx), ih]
      cases hf : f x.edge with
      | none => rw [List.filterMap_cons_none (by simp [hf])]
      | some k =>
        rw [List.filterMap_cons_some (by rw [hf]; rfl), List.filter_cons_of_neg (by simpa using hx)]

/-- **The edges outside `S`** make a table thinned of the others. -/
theorem Consistent.thins (h : g.Consistent) (hS : g.Closed S) :
    Thins {v | g.idAt v ∈ S} (g.placeOutside S) (outEdges g.nodes.size g.edgeEnds)
      (outEdges g.nodes.size (g.endsAmong (g.edgesOutside S))) := by
  -- each entry of the table is an edge, from the node it stands with to the node it names
  have hedge : ∀ {v} {o : CycleEdges.Out}, o ∈ outs (outEdges g.nodes.size g.edgeEnds) v →
      ∃ e, g.edges[o.2]? = some e ∧ g.positionOf? e.source = some v ∧
        g.positionOf? e.target = some o.1 :=
    fun ho => mem_edgeEnds.1 (mem_outs_outEdges.1 ho).2
  refine ⟨by rw [size_outEdges, size_outEdges], ?closed, ?dropped, ?outs⟩
  case closed =>
    intro v hv o ho
    obtain ⟨e, he, hs, ht⟩ := hedge ho
    rw [Set.mem_ofPred_eq, h.idAt_eq hs] at hv
    rw [Set.mem_ofPred_eq, h.idAt_eq ht]
    by_cases hloop : e.source = e.target
    · rwa [← hloop]
    · exact hS e (mem_properEdges.2 ⟨Array.mem_of_getElem? he, hloop⟩) hv
  case dropped =>
    intro v o ho
    obtain ⟨e, he, hs, ht⟩ := hedge ho
    have hloop : o.1 = v ↔ e.source = e.target := by
      constructor
      · rintro rfl
        rw [← h.idAt_eq hs, h.idAt_eq ht]
      · intro heq
        rw [heq, ht] at hs
        exact Option.some.inj hs
    rw [placeOutside_eq he, ite_eq_right_iff, Set.mem_ofPred_eq, h.idAt_eq ht, hloop,
      mem_edgesOutside]
    have hmem := Array.mem_of_getElem? he
    simp only [hmem, true_and, reduceCtorEq, imp_false]
    tauto
  case outs =>
    intro v hv
    by_cases hlt : v < g.nodes.size
    · rw [outs_outEdges _ hlt, outs_outEdges _ hlt, h.endsAmong_edgesOutside, thin_row]
    · have hnil : ∀ ends, outs (outEdges g.nodes.size ends) v = [] := by
        intro ends
        exact List.eq_nil_iff_forall_not_mem.2 fun o ho => hlt (mem_outs_outEdges.1 ho).1
      rw [hnil, hnil]
      rfl

/-- A node of the table is led to when an edge of the graph leads to it. -/
theorem Consistent.ledTo_iff (h : g.Consistent) :
    LedTo (outEdges g.nodes.size g.edgeEnds) w ↔
      w < g.nodes.size ∧ ∃ e ∈ g.edges, e.target = g.idAt w := by
  constructor
  · rintro ⟨v, o, ho, rfl⟩
    obtain ⟨e, he, -, ht⟩ := mem_edgeEnds.1 (mem_outs_outEdges.1 ho).2
    exact ⟨h.positionOf?_lt ht, e, Array.mem_of_getElem? he, (h.idAt_eq ht).symm⟩
  · rintro ⟨hw, e, he, ht⟩
    obtain ⟨i, hi⟩ := Array.getElem?_of_mem he
    obtain ⟨s, t, hs, ht'⟩ := h.exists_positions he
    obtain rfl : t = w := by
      rw [ht, h.positionOf?_idAt hw] at ht'
      exact (Option.some.inj ht').symm
    have hends : ⟨i, s, t⟩ ∈ g.edgeEnds := mem_edgeEnds.2 ⟨e, hi, hs, ht'⟩
    exact ⟨s, (t, i), mem_outs_outEdges.2 ⟨h.positionOf?_lt hs, hends⟩, rfl⟩

end Graph

end DataLineage
