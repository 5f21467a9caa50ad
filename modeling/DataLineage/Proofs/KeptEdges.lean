import DataLineage.Placement.Layout
import DataLineage.Proofs.DepthFirst
import DataLineage.Proofs.GraphWalks
import Mathlib.Data.List.Induction

/-!
# The edges a layout ignores and the edges it keeps

A layout works on node positions and edge numbers, a graph is told of by ids. These lemmas lead from
one to the other for a graph in step with its tables.

* `numbered_outEdges`: the table of edges that the depth-first search walks over.
* `mem_ignoredEdges_iff`: a layout reports an edge's id exactly when the search found its number.
-/

namespace DataLineage

open CycleEdges (outs Numbered)

variable {g : Graph} {settings : LayoutSettings} {i n v t : ℕ} {e : Edge}

namespace Graph

/-- Edges with one id are one edge. -/
theorem Consistent.edge_unique (h : g.Consistent) {j : ℕ} {f : Edge} (he : g.edges[i]? = some e)
    (hf : g.edges[j]? = some f) (hid : e.id = f.id) : i = j := by
  have hlt : i < g.edges.size := (Array.getElem?_eq_some_iff.1 he).1
  refine (List.getElem?_inj (by simpa using hlt) h.edgeIds).1 ?_
  simp [he, hf, hid]

theorem mem_edgeEnds {x : EdgeEnds} :
    x ∈ g.edgeEnds ↔ ∃ e, g.edges[x.edge]? = some e ∧ g.positionOf? e.source = some x.source ∧
      g.positionOf? e.target = some x.target := by
  simp only [edgeEnds, List.mem_filterMap, Prod.exists, List.mem_zipIdx_iff_getElem?,
    Array.getElem?_toList]
  constructor
  · rintro ⟨e, i, he, hx⟩
    split at hx
    next s t hs ht => cases hx; exact ⟨e, he, hs, ht⟩
    next => cases hx
  · rintro ⟨e, he, hs, ht⟩
    exact ⟨e, x.edge, he, by rw [hs, ht]⟩

/-- Edge numbers go up along the list of ends. -/
theorem nodup_edgeEnds (g : Graph) : (g.edgeEnds.map EdgeEnds.edge).Nodup := by
  rw [List.Nodup, List.pairwise_map, edgeEnds, List.pairwise_filterMap]
  have hidx : (g.edges.toList.zipIdx.map Prod.snd).Nodup := by
    rw [List.zipIdx_map_snd]; exact List.nodup_range'
  refine (List.pairwise_map.1 hidx).imp ?_
  rintro ⟨e, i⟩ ⟨f, j⟩ hij x hx y hy
  dsimp only at hx hy
  split at hx
  next =>
    split at hy
    next => cases hx; cases hy; exact hij
    next => cases hy
  next => cases hx

end Graph

/-! ## The table of outgoing edges -/

theorem size_outEdges (n : ℕ) (ends : List EdgeEnds) : (outEdges n ends).size = n := by
  induction ends using List.reverseRecOn with
  | nil => simp [outEdges]
  | append_singleton ends x ih => simpa [outEdges] using ih

/-- Each node has the edges out of it, in order. -/
theorem outs_outEdges (ends : List EdgeEnds) (hv : v < n) :
    outs (outEdges n ends) v =
      (ends.filter fun x => x.source = v).map fun x => (x.target, x.edge) := by
  have hrow : (outEdges n ends)[v]? =
      some ((ends.filter fun x => x.source = v).map fun x => (x.target, x.edge)) :=
    (getElem?_foldl_modify EdgeEnds.source (fun x => (x.target, x.edge)) ends n v).trans (if_pos hv)
  rw [outs, hrow, Option.getD_some]

theorem mem_outs_outEdges {ends : List EdgeEnds} {o : CycleEdges.Out} :
    o ∈ outs (outEdges n ends) v ↔ v < n ∧ ⟨o.2, v, o.1⟩ ∈ ends := by
  by_cases hv : v < n
  · rw [outs_outEdges ends hv]
    simp only [List.mem_map, List.mem_filter, decide_eq_true_eq, hv, true_and]
    constructor
    · rintro ⟨x, ⟨hx, rfl⟩, rfl⟩
      exact hx
    · exact fun ho => ⟨_, ⟨ho, rfl⟩, rfl⟩
  · have hnot : ¬ o ∈ outs (outEdges n ends) v := fun ho =>
      hv (by simpa [size_outEdges] using CycleEdges.lt_of_mem_outs ho)
    simp [hv, hnot]

/-- **The search's table** of a graph's edges leads to nodes and numbers each edge once. -/
theorem numbered_outEdges (h : g.Consistent) :
    Numbered (outEdges g.nodes.size g.edgeEnds) := by
  refine ⟨fun v o ho => ?_, fun v => ?_, fun v w o ho p hp hop => ?_⟩
  · obtain ⟨e, -, -, ht⟩ := Graph.mem_edgeEnds.1 (mem_outs_outEdges.1 ho).2
    rw [size_outEdges]
    exact h.positionOf?_lt ht
  · by_cases hv : v < g.nodes.size
    · rw [outs_outEdges _ hv, List.map_map]
      exact (List.Sublist.map EdgeEnds.edge List.filter_sublist).nodup g.nodup_edgeEnds
    · have hnil : outs (outEdges g.nodes.size g.edgeEnds) v = [] :=
        List.eq_nil_iff_forall_not_mem.2 fun o ho => hv (mem_outs_outEdges.1 ho).1
      simp [hnil]
  · obtain ⟨e, he, hv, -⟩ := Graph.mem_edgeEnds.1 (mem_outs_outEdges.1 ho).2
    obtain ⟨f, hf, hw, -⟩ := Graph.mem_edgeEnds.1 (mem_outs_outEdges.1 hp).2
    -- one number stands for one edge, and an edge has one source
    simp only at he hf hv hw
    rw [hop, hf] at he
    cases he
    rw [hv] at hw
    exact Option.some.inj hw

/-! ## Ignored and kept edges -/

namespace Layout

/-- The edges whose ids the layout of a graph reports as ignored. -/
def ignored (settings : LayoutSettings) (g : Graph) : List Edge :=
  g.edges.toList.filter fun e => (ofGraph settings g).ignoredEdges.contains e.id

/-- The other edges. -/
def kept (settings : LayoutSettings) (g : Graph) : List Edge :=
  g.edges.toList.filter fun e => !(ofGraph settings g).ignoredEdges.contains e.id

theorem mem_closingEdges (h : g.Consistent) :
    i ∈ closingEdges g ↔ i ∈ CycleEdges.find (outEdges g.nodes.size g.edgeEnds) := by
  simp only [closingEdges, List.mem_filter, List.mem_range, List.contains_iff_mem,
    and_iff_right_iff_imp]
  intro hi
  obtain ⟨v, t, hvt, -⟩ := CycleEdges.closing_walk (numbered_outEdges h) hi
  obtain ⟨e, he, -, -⟩ := Graph.mem_edgeEnds.1 (mem_outs_outEdges.1 hvt).2
  exact (Array.getElem?_eq_some_iff.1 he).1

/-- A layout reports the id of an edge exactly when the search found its number. -/
theorem mem_ignoredEdges_iff (h : g.Consistent) (he : g.edges[i]? = some e) :
    e.id ∈ (ofGraph settings g).ignoredEdges ↔ i ∈ closingEdges g := by
  simp only [ofGraph, List.mem_filterMap, Option.map_eq_some_iff]
  constructor
  · rintro ⟨j, hj, f, hf, hid⟩
    rwa [h.edge_unique he hf hid.symm]
  · exact fun hi => ⟨i, hi, e, he, rfl⟩

theorem mem_kept_iff (h : g.Consistent) :
    e ∈ kept settings g ↔ ∃ i, g.edges[i]? = some e ∧ i ∉ closingEdges g := by
  simp only [kept, List.mem_filter, Array.mem_toList_iff, Array.mem_iff_getElem?,
    Bool.not_eq_true', ← Bool.not_eq_true, List.contains_iff_mem]
  constructor
  · rintro ⟨⟨i, hi⟩, hnot⟩
    exact ⟨i, hi, by rwa [← mem_ignoredEdges_iff h hi]⟩
  · rintro ⟨i, hi, hnot⟩
    exact ⟨⟨i, hi⟩, by rwa [mem_ignoredEdges_iff h hi]⟩

theorem mem_edges_of_kept (he : e ∈ kept settings g) : e ∈ g.edges :=
  Array.mem_toList_iff.1 (List.mem_of_mem_filter he)

/-- **The search keeps an edge exactly when the layout does.** -/
theorem kept_iff_joinsAt (h : g.Consistent) :
    CycleEdges.Kept (outEdges g.nodes.size g.edgeEnds) v t ↔ JoinsAt g (kept settings g) v t := by
  constructor
  · rintro ⟨i, hi, hnot⟩
    obtain ⟨e, he, hs, ht⟩ := Graph.mem_edgeEnds.1 (mem_outs_outEdges.1 hi).2
    exact ⟨e, (mem_kept_iff h).2 ⟨i, he, (mem_closingEdges h).not.2 hnot⟩, hs, ht⟩
  · rintro ⟨e, he, hs, ht⟩
    obtain ⟨i, hi, hnot⟩ := (mem_kept_iff h).1 he
    exact ⟨i, mem_outs_outEdges.2 ⟨h.positionOf?_lt hs, Graph.mem_edgeEnds.2 ⟨e, hi, hs, ht⟩⟩,
      (mem_closingEdges h).not.1 hnot⟩

/-- The kept edges form no cycle, by position. -/
theorem acyclic_joinsAt_kept (settings : LayoutSettings) (h : g.Consistent) :
    Acyclic (JoinsAt g (kept settings g)) :=
  (CycleEdges.acyclic_kept (numbered_outEdges h)).mono fun _ _ => (kept_iff_joinsAt h).2

/-- The kept edges form no cycle, by id. -/
theorem acyclic_kept (settings : LayoutSettings) (h : g.Consistent) :
    Acyclic (Joins (kept settings g)) := fun _ n w =>
  acyclic_joinsAt_kept settings h _ n (h.walk_positions (fun _ => mem_edges_of_kept) w)

/-- An ignored edge has a walk along kept edges from its target back to its source. -/
theorem walk_of_ignored (h : g.Consistent) (he : e ∈ ignored settings g) :
    ∃ n, Walk (Joins (kept settings g)) e.target e.source n := by
  obtain ⟨hmem, hid⟩ := List.mem_filter.1 he
  obtain ⟨i, hi⟩ := Array.getElem?_of_mem (Array.mem_toList_iff.1 hmem)
  have hreported := (mem_ignoredEdges_iff h hi).1 (List.contains_iff_mem.1 hid)
  have hclose := (mem_closingEdges h).1 hreported
  obtain ⟨v, t, hvt, n, hn⟩ := CycleEdges.closing_walk (numbered_outEdges h) hclose
  obtain ⟨f, hf, hs, ht⟩ := Graph.mem_edgeEnds.1 (mem_outs_outEdges.1 hvt).2
  simp only at hf hs ht
  rw [hi] at hf
  cases hf
  have hw : Walk (Joins (kept settings g)) (g.idAt t) (g.idAt v) n :=
    h.walk_ids (hn.mono fun _ _ => (kept_iff_joinsAt h).1)
  rw [h.idAt_eq ht, h.idAt_eq hs] at hw
  exact ⟨n, hw⟩

end Layout

end DataLineage
