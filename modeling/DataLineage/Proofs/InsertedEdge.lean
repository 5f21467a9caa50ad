import DataLineage.Proofs.GraphRestriction

/-!
# One edge more

A graph made of the same parts and one edge more, somewhere among the edges. If the id of that edge
is not in use in the graph without it, no edge gives way to it, and the two graphs differ in that
edge alone.

* `freeId_eq_of_taken`: one more taken id changes nothing for an edge that does not get it anyway.
* `Graph.Beside.foldl`: two graphs that differ in an edge still do after more edges.
* `Graph.edges_ofParts_insert`: the edges of both graphs.
-/

namespace DataLineage

/-- One more taken id changes nothing for an edge that does not get it anyway. -/
theorem freeId_eq_of_taken {id extra : String} {taken taken' : Std.TreeSet String}
    (h : ∀ a, a ∈ taken' ↔ a = extra ∨ a ∈ taken) (hne : freeId id taken ≠ extra) :
    freeId id taken' = freeId id taken := by
  obtain ⟨n, hn, heq, hnot, hmin⟩ := exists_freeId_eq id taken
  obtain ⟨m, hm, heq', hnot', hmin'⟩ := exists_freeId_eq id taken'
  have hnm : n ≤ m := by
    by_contra hlt
    exact hnot' ((h _).2 (Or.inr (hmin m hm (Nat.lt_of_not_le hlt))))
  have hmn : m ≤ n := by
    by_contra hlt
    rcases (h _).1 (hmin' n hn (Nat.lt_of_not_le hlt)) with hex | htaken
    · exact hne (heq.trans hex)
    · exact hnot htaken
  rw [heq, heq', Nat.le_antisymm hmn hnm]

namespace Graph

variable {extra : Edge} {before : List Edge} {s s' : Graph × Std.TreeSet String}

/-- Two graphs being built, the second with one edge more. -/
structure Beside (extra : Edge) (before : List Edge) (s s' : Graph × Std.TreeSet String) : Prop where
  positions : s'.1.positions = s.1.positions
  edges : ∃ after,
    s.1.edges.toList = before ++ after ∧ s'.1.edges.toList = before ++ extra :: after
  taken : ∀ id, id ∈ s'.2 ↔ id = extra.id ∨ id ∈ s.2

theorem positions_addEdge (g : Graph) (taken : Std.TreeSet String) (edge : Edge) :
    (g.addEdge taken edge).1.positions = g.positions := by
  unfold addEdge
  split <;> rfl

theorem positions_foldl_addEdge (edges : List Edge) (s : Graph × Std.TreeSet String) :
    (edges.foldl (fun s edge => addEdge s.1 s.2 edge) s).1.positions = s.1.positions := by
  induction edges generalizing s with
  | nil => rfl
  | cons edge edges ih => rw [List.foldl_cons, ih, positions_addEdge]

/-- Edges stay in the graph. -/
theorem mem_foldl_addEdge {e : Edge} (edges : List Edge) (he : e ∈ s.1.edges) :
    e ∈ (edges.foldl (fun s edge => addEdge s.1 s.2 edge) s).1.edges := by
  induction edges generalizing s with
  | nil => exact he
  | cons edge edges ih =>
    refine ih ?_
    rw [edges_addEdge]
    split
    · exact Array.mem_push_of_mem _ he
    · exact he

/-- The id that an edge gets in a graph being built. -/
def newId (taken : Std.TreeSet String) (edge : Edge) : String :=
  if taken.contains edge.id then freeId edge.id taken else edge.id

theorem newId_eq_of_taken {taken taken' : Std.TreeSet String} {edge : Edge}
    (h : ∀ a, a ∈ taken' ↔ a = extra.id ∨ a ∈ taken) (hne : newId taken edge ≠ extra.id) :
    newId taken' edge = newId taken edge := by
  unfold newId at hne ⊢
  by_cases htaken : edge.id ∈ taken
  · have htaken' := (h _).2 (Or.inr htaken)
    rw [if_pos (Std.TreeSet.contains_iff_mem.2 htaken)] at hne ⊢
    rw [if_pos (Std.TreeSet.contains_iff_mem.2 htaken'), freeId_eq_of_taken h hne]
  · rw [if_neg (Std.TreeSet.contains_iff_mem.not.2 htaken)] at hne ⊢
    have htaken' : edge.id ∉ taken' := by
      rw [h, not_or]
      exact ⟨hne, htaken⟩
    rw [if_neg (Std.TreeSet.contains_iff_mem.not.2 htaken')]

theorem taken_addEdge (g : Graph) (taken : Std.TreeSet String) (edge : Edge) :
    (g.addEdge taken edge).2 =
      if g.contains edge.source && g.contains edge.target then taken.insert (newId taken edge)
      else taken := by
  simp only [contains, ← Std.TreeMap.isSome_getElem?_eq_contains, addEdge]
  cases g.positions[edge.source]? <;> cases g.positions[edge.target]? <;> simp [newId]

/-- **Two graphs that differ in an edge** still do after one more edge that does not get its id. -/
theorem Beside.addEdge (h : Beside extra before s s') (edge : Edge)
    (hid : ∀ e ∈ (s.1.addEdge s.2 edge).1.edges, e.id ≠ extra.id) :
    Beside extra before (s.1.addEdge s.2 edge) (s'.1.addEdge s'.2 edge) := by
  have hpositions : (s'.1.addEdge s'.2 edge).1.positions = (s.1.addEdge s.2 edge).1.positions := by
    rw [positions_addEdge, positions_addEdge, h.positions]
  have hcontains : ∀ a, s'.1.contains a = s.1.contains a := by
    intro a
    rw [contains, contains, h.positions]
  obtain ⟨after, hedges, hedges'⟩ := h.edges
  by_cases hin : (s.1.contains edge.source && s.1.contains edge.target) = true
  · rw [edges_addEdge, if_pos hin] at hid
    have hnew : newId s'.2 edge = newId s.2 edge :=
      newId_eq_of_taken h.taken (hid _ Array.mem_push_self)
    refine ⟨hpositions, ⟨after ++ [{ edge with id := newId s.2 edge }], ?_, ?_⟩, fun id => ?_⟩
    · rw [edges_addEdge, if_pos hin, Array.toList_push, hedges, List.append_assoc]
      rfl
    · rw [edges_addEdge, hcontains, hcontains, if_pos hin, Array.toList_push, hedges', ← hnew,
        List.append_assoc, List.cons_append]
      rfl
    · rw [taken_addEdge, taken_addEdge, hcontains, hcontains, if_pos hin, if_pos hin, hnew,
        Std.TreeSet.mem_insert, Std.TreeSet.mem_insert, h.taken]
      tauto
  · refine ⟨hpositions, ⟨after, ?_, ?_⟩, ?_⟩
    · rw [edges_addEdge, if_neg hin, hedges]
    · rw [edges_addEdge, hcontains, hcontains, if_neg hin, hedges']
    · rw [taken_addEdge, taken_addEdge, hcontains, hcontains, if_neg hin, if_neg hin]
      exact h.taken

theorem Beside.foldl (h : Beside extra before s s') (edges : List Edge)
    (hid : ∀ e ∈ (edges.foldl (fun s edge => Graph.addEdge s.1 s.2 edge) s).1.edges,
      e.id ≠ extra.id) :
    Beside extra before (edges.foldl (fun s edge => Graph.addEdge s.1 s.2 edge) s)
      (edges.foldl (fun s edge => Graph.addEdge s.1 s.2 edge) s') := by
  induction edges generalizing s s' with
  | nil => exact h
  | cons edge edges ih =>
    have hstep := h.addEdge edge fun e he => hid e (mem_foldl_addEdge edges he)
    exact ih hstep hid

/-- The ids in use are those of the edges, after any number of edges. -/
theorem Consistent.mem_taken_foldl_addEdge (h : s.1.Consistent)
    (ht : ∀ id, id ∈ s.2 ↔ id ∈ s.1.edges.toList.map Edge.id) (edges : List Edge) (id : String) :
    let built := edges.foldl (fun s edge => Graph.addEdge s.1 s.2 edge) s
    id ∈ built.2 ↔ id ∈ built.1.edges.toList.map Edge.id := by
  induction edges generalizing s with
  | nil => exact ht id
  | cons edge edges ih =>
    obtain ⟨h₁, h₂⟩ := h.addEdge ht edge
    exact ih h₁ h₂

/-- Graphs of the same nodes have the same table of positions. -/
theorem positions_ofParts (nodes : List Node) (edges : List Edge) :
    (ofParts nodes edges).positions = (nodes.foldl addNode empty).positions :=
  positions_foldl_addEdge edges _

/-- **One edge more between nodes of the graph**, put in anywhere under an id that is not in use,
stands between the edges before it and those after it, and these are as they were. -/
theorem edges_ofParts_insert {nodes : List Node} {front back : List Edge}
    (hends : Within (nodes.map Node.id) extra)
    (hid : ∀ e ∈ (ofParts nodes (front ++ back)).edges, e.id ≠ extra.id) :
    ∃ after,
      (ofParts nodes (front ++ back)).edges.toList = (ofParts nodes front).edges.toList ++ after ∧
      (ofParts nodes (front ++ extra :: back)).edges.toList =
        (ofParts nodes front).edges.toList ++ extra :: after := by
  have hnone : (nodes.foldl addNode empty).edges = #[] := edges_foldl_addNode nodes empty
  -- the graph as it is when the edge comes
  set s := front.foldl (fun s edge => Graph.addEdge s.1 s.2 edge)
    (nodes.foldl addNode empty, (∅ : Std.TreeSet String))
  have hfront : s.1 = ofParts nodes front := rfl
  have hconsistent : s.1.Consistent := consistent_ofParts nodes front
  have htaken : ∀ id, id ∈ s.2 ↔ id ∈ s.1.edges.toList.map Edge.id :=
    (consistent_empty.foldl_addNode nodes).mem_taken_foldl_addEdge (by simp [hnone]) front
  have hall : (ofParts nodes (front ++ back)) =
      (back.foldl (fun s edge => Graph.addEdge s.1 s.2 edge) s).1 := by
    rw [ofParts, List.foldl_append]
  have hall' : (ofParts nodes (front ++ extra :: back)) =
      (back.foldl (fun s edge => Graph.addEdge s.1 s.2 edge) (s.1.addEdge s.2 extra)).1 := by
    rw [ofParts, List.foldl_append, List.foldl_cons]
  rw [hall] at hid
  have hin : (s.1.contains extra.source && s.1.contains extra.target) = true := by
    rw [Bool.and_eq_true, hconsistent.contains_iff, hconsistent.contains_iff, hfront,
      mem_nodeIds_ofParts, mem_nodeIds_ofParts]
    exact hends
  have hnew : newId s.2 extra = extra.id := by
    refine if_neg ?_
    rw [Std.TreeSet.contains_iff_mem, htaken]
    intro hmem
    obtain ⟨e, he, heq⟩ := List.mem_map.1 hmem
    exact hid e (mem_foldl_addEdge back (Array.mem_toList_iff.1 he)) heq
  have hstart : Beside extra s.1.edges.toList s (s.1.addEdge s.2 extra) := by
    refine ⟨positions_addEdge _ _ _, ⟨[], ?_, ?_⟩, fun id => ?_⟩
    · rw [List.append_nil]
    · rw [edges_addEdge, if_pos hin, Array.toList_push]
      change _ ++ [{ extra with id := newId s.2 extra }] = _
      rw [hnew]
    · rw [taken_addEdge, if_pos hin, hnew, Std.TreeSet.mem_insert,
        Std.LawfulEqCmp.compare_eq_iff_eq]
      exact or_congr_left eq_comm
  rw [hall, hall']
  exact (hstart.foldl back hid).edges

end Graph

end DataLineage
