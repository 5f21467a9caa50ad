import DataLineage.Proofs.GraphTables
import DataLineage.Proofs.Walk

/-!
# Walks in a graph

Walks along edges, by the ids of nodes and by their positions. Searches work on positions, a graph
is told of by ids. These lemmas lead from one to the other for a graph in step with its tables.

* `Graph.Consistent.walk_ids`, `Graph.Consistent.walk_positions`: a walk in both forms.
* `Graph.Consistent.walk_iff`: between nodes of the graph there is the one when there is the other.
-/

namespace DataLineage

/-- Some edge of the list leads from `a` to `b`. -/
def Joins (edges : List Edge) (a b : String) : Prop := ∃ e ∈ edges, e.source = a ∧ e.target = b

/-- Some edge of the list leads from the node at position `v` to the one at `t`. -/
def JoinsAt (g : Graph) (edges : List Edge) (v t : ℕ) : Prop :=
  ∃ e ∈ edges, g.positionOf? e.source = some v ∧ g.positionOf? e.target = some t

namespace Graph

variable {g : Graph} {a b : String} {i j n v t : ℕ} {e : Edge}

theorem Consistent.positionOf?_eq_some (h : g.Consistent) :
    g.positionOf? a = some i ↔ g.nodeIds[i]? = some a := h.positions a i

theorem Consistent.positionOf?_lt (h : g.Consistent) (ha : g.positionOf? a = some i) :
    i < g.nodes.size := by
  rw [← g.length_nodeIds]
  exact h.positions.lt_length ha

/-- The ends of an edge have positions. -/
theorem Consistent.exists_positions (h : g.Consistent) (he : e ∈ g.edges) :
    ∃ v t, g.positionOf? e.source = some v ∧ g.positionOf? e.target = some t := by
  obtain ⟨hs, ht⟩ := h.ends e he
  obtain ⟨v, hv⟩ := h.positions.exists_iff_mem.2 hs
  obtain ⟨t, ht⟩ := h.positions.exists_iff_mem.2 ht
  exact ⟨v, t, hv, ht⟩

/-- The id of the node at a position. -/
def idAt (g : Graph) (i : ℕ) : String := (g.nodeIds[i]?).getD ""

/-- The position of the node of an id. -/
def positionAt (g : Graph) (id : String) : ℕ := (g.positionOf? id).getD 0

theorem positionAt_eq (hi : g.positionOf? a = some i) : g.positionAt a = i := by
  rw [positionAt, hi, Option.getD_some]

theorem Consistent.idAt_eq (h : g.Consistent) (hi : g.positionOf? a = some i) : g.idAt i = a := by
  rw [idAt, h.positionOf?_eq_some.1 hi, Option.getD_some]

theorem Consistent.positionOf?_idAt (h : g.Consistent) (hi : i < g.nodes.size) :
    g.positionOf? (g.idAt i) = some i := by
  have hlt : i < g.nodeIds.length := by rwa [g.length_nodeIds]
  rw [h.positionOf?_eq_some, idAt, List.getElem?_eq_getElem hlt, Option.getD_some]

/-- Nodes at different positions have different ids. -/
theorem Consistent.idAt_inj (h : g.Consistent) (hi : i < g.nodes.size) (hj : j < g.nodes.size)
    (hij : g.idAt i = g.idAt j) : i = j := by
  have hpos := h.positionOf?_idAt hi
  rw [hij, h.positionOf?_idAt hj] at hpos
  exact (Option.some.inj hpos).symm

theorem Consistent.walk_ids (h : g.Consistent) {es : List Edge} (w : Walk (JoinsAt g es) v t n) :
    Walk (Joins es) (g.idAt v) (g.idAt t) n := by
  refine w.map g.idAt ?_
  rintro i j ⟨e, he, hi, hj⟩
  exact ⟨e, he, (h.idAt_eq hi).symm, (h.idAt_eq hj).symm⟩

theorem Consistent.walk_positions (h : g.Consistent) {es : List Edge}
    (hes : ∀ e ∈ es, e ∈ g.edges) (w : Walk (Joins es) a b n) :
    Walk (JoinsAt g es) (g.positionAt a) (g.positionAt b) n := by
  refine w.map g.positionAt ?_
  rintro _ _ ⟨e, he, rfl, rfl⟩
  obtain ⟨s, t, hs, ht⟩ := h.exists_positions (hes e he)
  exact ⟨e, he, by rw [positionAt_eq hs, hs], by rw [positionAt_eq ht, ht]⟩

/-- Between nodes of the graph there is a walk by position when there is one by id. -/
theorem Consistent.walk_iff (h : g.Consistent) (ha : g.positionOf? a = some i)
    (hb : g.positionOf? b = some j) :
    Walk (JoinsAt g g.edges.toList) i j n ↔ Walk (Joins g.edges.toList) a b n := by
  constructor
  · intro w
    have hw := h.walk_ids w
    rwa [h.idAt_eq ha, h.idAt_eq hb] at hw
  · intro w
    have hw := h.walk_positions (fun e he => Array.mem_toList_iff.1 he) w
    rwa [positionAt_eq ha, positionAt_eq hb] at hw

/-- A walk from a node ends at a node. -/
theorem Consistent.mem_nodeIds_of_walk (h : g.Consistent)
    (w : Walk (Joins g.edges.toList) a b n) (ha : a ∈ g.nodeIds) : b ∈ g.nodeIds := by
  refine w.closed ?_ ha
  rintro _ _ - ⟨e, he, -, rfl⟩
  exact (h.ends e (Array.mem_toList_iff.1 he)).2

end Graph

end DataLineage
