import DataLineage.Proofs.InsertedEdge
import Mathlib.Data.List.Induction
import Mathlib.Order.Bounds.Basic

/-!
# Which parts a graph is made of

Any nodes and edges make a graph. Where ids repeat, the first node of an id stands for it and a
later edge takes another id, and an edge to no node is left out. An id that an edge takes may be the
one that a later edge was given, so what an edge ends up with depends on the ids in use by then and
not on those given.

* `Graph.nodes_ofParts_eq`: the nodes kept.
* `Graph.endsUpAs_newId`: the id that an edge ends up with.
* `Graph.ofParts_toList`: a graph is made anew of its own nodes and edges.
* `Graph.ofParts_keeps`: the statement.
-/

namespace DataLineage

/-- The nodes with no node of their id before them, in order. -/
def firstNodes (nodes : List Node) : List Node :=
  (nodes.zipIdx.filter fun x => x.1.id ∉ (nodes.take x.2).map Node.id).map Prod.fst

theorem firstNodes_concat (nodes : List Node) (node : Node) :
    firstNodes (nodes ++ [node]) =
      firstNodes nodes ++ if node.id ∈ nodes.map Node.id then [] else [node] := by
  have hfront : nodes.zipIdx.filter (fun x => x.1.id ∉ ((nodes ++ [node]).take x.2).map Node.id) =
      nodes.zipIdx.filter fun x => x.1.id ∉ (nodes.take x.2).map Node.id := by
    refine List.filter_congr fun x hx => ?_
    have hlt : x.2 < nodes.length := by simpa using List.snd_lt_of_mem_zipIdx hx
    rw [List.take_append_of_le_length hlt.le]
  rw [firstNodes, firstNodes, List.zipIdx_append, List.filter_append, hfront, List.map_append]
  by_cases hmem : node.id ∈ nodes.map Node.id <;> simp_all

/-- **The id that an edge ends up with** where some ids are in use: its own if that is free, else
the first of its suffixed forms that is. -/
inductive EndsUpAs (used : List String) (id : String) : String → Prop where
  | own (h : id ∉ used) : EndsUpAs used id id
  | suffixed {n : ℕ} (h : id ∈ used) (hn : IsLeast {n | 1 ≤ n ∧ suffixedId id n ∉ used} n) :
    EndsUpAs used id (suffixedId id n)

theorem EndsUpAs.notMem {used : List String} {id id' : String} (h : EndsUpAs used id id') :
    id' ∉ used := by
  cases h with
  | own h => exact h
  | suffixed _ hn => exact hn.1.2

namespace Graph

variable {g : Graph} {taken : Std.TreeSet String} {used : List String}

/-- **Of the nodes the first of each id is kept**, in order. -/
theorem nodes_ofParts_eq (nodes : List Node) (edges : List Edge) :
    (ofParts nodes edges).nodes.toList = firstNodes nodes := by
  rw [ofParts, nodes_foldl_addEdge]
  induction nodes using List.reverseRecOn with
  | nil => rfl
  | append_singleton nodes node ih =>
    have hseen : (nodes.foldl addNode empty).positions.contains node.id ↔
        node.id ∈ nodes.map Node.id := by
      rw [(consistent_empty.foldl_addNode nodes).positions.contains_iff_mem,
        mem_nodeIds_foldl_empty]
    rw [List.foldl_append, List.foldl_cons, List.foldl_nil, nodes_addNode, firstNodes_concat]
    by_cases hmem : node.id ∈ nodes.map Node.id
    · rw [if_pos (hseen.2 hmem), if_pos hmem, List.append_nil, ih]
    · rw [if_neg (hseen.not.2 hmem), if_neg hmem, Array.toList_push, ih]

/-! ## The ids of edges -/

/-- The search for a free id ends with the first one there is. -/
theorem endsUpAs_newId (h : ∀ id, id ∈ taken ↔ id ∈ used) (edge : Edge) :
    EndsUpAs used edge.id (newId taken edge) := by
  by_cases hmem : edge.id ∈ taken
  · obtain ⟨n, hn, hfree, hnot, hmin⟩ := exists_freeId_eq edge.id taken
    rw [newId, if_pos (Std.TreeSet.contains_iff_mem.2 hmem), hfree]
    refine .suffixed ((h _).1 hmem) ⟨⟨hn, (h _).not.1 hnot⟩, ?_⟩
    rintro m ⟨hm, hm'⟩
    by_contra hlt
    exact hm' ((h _).1 (hmin m hm (Nat.lt_of_not_le hlt)))
  · rw [newId, if_neg (Std.TreeSet.contains_iff_mem.not.2 hmem)]
    exact .own ((h _).not.1 hmem)

theorem newId_notMem (taken : Std.TreeSet String) (edge : Edge) : newId taken edge ∉ taken := by
  rw [← Std.TreeSet.mem_toList]
  exact (endsUpAs_newId (fun _ => Std.TreeSet.mem_toList.symm) edge).notMem

/-- The edges of the parts that have nodes at both ends, as they were given. -/
def joining (nodes : List Node) (edges : List Edge) : List Edge :=
  edges.filter fun e => Within (nodes.map Node.id) e

/-- What a graph is made of so far, and the ids in use in it. -/
def assembled (nodes : List Node) (edges : List Edge) : Graph × Std.TreeSet String :=
  edges.foldl (fun s edge => addEdge s.1 s.2 edge) (nodes.foldl addNode empty, ∅)

theorem mem_assembled (nodes : List Node) (edges : List Edge) (id : String) :
    id ∈ (assembled nodes edges).2 ↔ id ∈ (ofParts nodes edges).edges.toList.map Edge.id := by
  have hnone : (nodes.foldl addNode empty).edges = #[] := edges_foldl_addNode nodes empty
  exact (consistent_empty.foldl_addNode nodes).mem_taken_foldl_addEdge (by simp [hnone]) edges id

theorem assembled_concat (nodes : List Node) (edges : List Edge) (edge : Edge) :
    assembled nodes (edges ++ [edge]) =
      (ofParts nodes edges).addEdge (assembled nodes edges).2 edge := by
  rw [assembled, List.foldl_append]
  rfl

theorem contains_ends_iff (nodes : List Node) (edges : List Edge) (edge : Edge) :
    ((ofParts nodes edges).contains edge.source && (ofParts nodes edges).contains edge.target) =
      true ↔ Within (nodes.map Node.id) edge := by
  have h := consistent_ofParts nodes edges
  rw [Bool.and_eq_true, h.contains_iff, h.contains_iff, mem_nodeIds_ofParts, mem_nodeIds_ofParts]
  exact Iff.rfl

/-- One edge more, at the end. -/
theorem edges_ofParts_concat (nodes : List Node) (edges : List Edge) (edge : Edge) :
    (ofParts nodes (edges ++ [edge])).edges.toList = (ofParts nodes edges).edges.toList ++
      if Within (nodes.map Node.id) edge then
        [{ edge with id := newId (assembled nodes edges).2 edge }]
      else [] := by
  have hstep : ofParts nodes (edges ++ [edge]) =
      ((ofParts nodes edges).addEdge (assembled nodes edges).2 edge).1 :=
    congrArg Prod.fst (assembled_concat nodes edges edge)
  have hin := contains_ends_iff nodes edges edge
  rw [hstep, edges_addEdge]
  by_cases hw : Within (nodes.map Node.id) edge
  · rw [if_pos (hin.2 hw), if_pos hw, Array.toList_push]
    rfl
  · rw [if_neg (hin.not.2 hw), if_neg hw, List.append_nil]

/-- **Each edge kept takes an id that is free** among those of the edges before it. -/
theorem endsUpAs_getElem? (nodes : List Node) (edges : List Edge) :
    ∀ (j : ℕ) (e e' : Edge), (joining nodes edges)[j]? = some e →
      (ofParts nodes edges).edges.toList[j]? = some e' →
        EndsUpAs (((ofParts nodes edges).edges.toList.take j).map Edge.id) e.id e'.id := by
  induction edges using List.reverseRecOn with
  | nil => simp [joining]
  | append_singleton edges edge ih =>
    have hlength : (joining nodes edges).length = (ofParts nodes edges).edges.toList.length := by
      have hlinks := congrArg List.length (links_ofParts nodes edges)
      simpa [joining] using hlinks.symm
    intro j e e'
    rw [edges_ofParts_concat, joining, List.filter_append, ← joining]
    by_cases hw : Within (nodes.map Node.id) edge
    · rw [if_pos hw, List.filter_cons_of_pos (by simpa using hw), List.filter_nil]
      rcases Nat.lt_trichotomy j (joining nodes edges).length with hj | hj | hj
      · -- an edge from before keeps its id, and so do those before it
        have hj' := hj
        rw [hlength] at hj'
        rw [List.getElem?_append_left hj, List.getElem?_append_left hj',
          List.take_append_of_le_length hj'.le]
        exact ih j e e'
      · -- the last edge has all the others before it
        rw [hj, List.getElem?_append_right le_rfl, hlength, List.getElem?_append_right le_rfl,
          List.take_left]
        simp only [Nat.sub_self, List.getElem?_cons_zero, Option.some.injEq]
        rintro rfl rfl
        exact endsUpAs_newId (mem_assembled nodes edges) edge
      · intro he
        rw [List.getElem?_eq_none (by simpa using Nat.succ_le_of_lt hj)] at he
        cases he
    · rw [if_neg hw, List.filter_cons_of_neg (by simpa using hw), List.filter_nil,
        List.append_nil, List.append_nil]
      exact ih j e e'

/-! ## Making a graph anew -/

/-- The nodes kept are all kept a second time. -/
theorem foldl_addNode_toList (nodes : List Node) :
    (nodes.foldl addNode empty).nodes.toList.foldl addNode empty = nodes.foldl addNode empty := by
  induction nodes using List.reverseRecOn with
  | nil => rfl
  | append_singleton nodes node ih =>
    rw [List.foldl_append, List.foldl_cons, List.foldl_nil, nodes_addNode]
    by_cases hseen : (nodes.foldl addNode empty).positions.contains node.id = true
    · rw [if_pos hseen, ih, addNode, if_pos hseen]
    · rw [if_neg hseen, Array.toList_push, List.foldl_append, ih]
      rfl

/-- An edge that comes with the id that it would end up with adds the same. -/
theorem addEdge_newId (g : Graph) (taken : Std.TreeSet String) (edge : Edge) :
    g.addEdge taken { edge with id := newId taken edge } = g.addEdge taken edge := by
  have hfree : taken.contains (newId taken edge) = false := by
    rw [← Bool.not_eq_true, Std.TreeSet.contains_iff_mem]
    exact newId_notMem taken edge
  simp only [addEdge, hfree]
  rfl

/-- An edge that lacks an end adds nothing. -/
theorem addEdge_eq_self {edge : Edge}
    (h : ¬ (g.contains edge.source && g.contains edge.target) = true) :
    g.addEdge taken edge = (g, taken) := by
  simp only [contains, ← Std.TreeMap.isSome_getElem?_eq_contains] at h
  rw [addEdge]
  split
  next hs ht => exact absurd (by rw [hs, ht]; rfl) h
  next => rfl

/-- The edges kept are all kept a second time, under the ids that they have by then. -/
theorem assembled_toList (nodes : List Node) (edges : List Edge) :
    assembled nodes (ofParts nodes edges).edges.toList = assembled nodes edges := by
  induction edges using List.reverseRecOn with
  | nil => simp [ofParts, edges_foldl_addNode, empty]
  | append_singleton edges edge ih =>
    have hsame : ofParts nodes (ofParts nodes edges).edges.toList = ofParts nodes edges :=
      congrArg Prod.fst ih
    rw [edges_ofParts_concat]
    by_cases hw : Within (nodes.map Node.id) edge
    · rw [if_pos hw, assembled_concat, assembled_concat, hsame, ih, addEdge_newId]
    · have hskip := (contains_ends_iff nodes edges edge).not.2 hw
      rw [if_neg hw, List.append_nil, ih, assembled_concat, addEdge_eq_self hskip]
      rfl

/-- **A graph is made anew of its own nodes and edges.** -/
theorem ofParts_toList (nodes : List Node) (edges : List Edge) :
    let g := ofParts nodes edges
    ofParts g.nodes.toList g.edges.toList = g := by
  intro g
  have hnodes : g.nodes.toList.foldl addNode empty = nodes.foldl addNode empty := by
    have hkept : g.nodes = (nodes.foldl addNode empty).nodes := nodes_foldl_addEdge edges _
    rw [hkept, foldl_addNode_toList]
  have hedges : (assembled nodes g.edges.toList).1 = g :=
    congrArg Prod.fst (assembled_toList nodes edges)
  rw [ofParts, hnodes]
  exact hedges

/-- **What a graph keeps of any parts.** Of the nodes the first of each id, and of the edges those
between nodes kept, both in order and the edges with their ends and kinds. The ids of the edges are
distinct: each is the one given if no edge kept before it ended up with that, and else its first
suffixed form that none of them has. Made anew of its own parts, a graph is the same, its tables
included. -/
theorem ofParts_keeps (nodes : List Node) (edges : List Edge) :
    let g := ofParts nodes edges
    let kept := edges.filter fun e => Within g.nodeIds e
    g.nodes.toList = firstNodes nodes ∧
    g.edges.toList.map Edge.link = kept.map Edge.link ∧
    (g.edges.toList.map Edge.id).Nodup ∧
    (∀ (j : ℕ) (e e' : Edge), kept[j]? = some e → g.edges.toList[j]? = some e' →
      EndsUpAs ((g.edges.toList.take j).map Edge.id) e.id e'.id) ∧
    ofParts g.nodes.toList g.edges.toList = g := by
  intro g kept
  have hkept : kept = joining nodes edges := by
    refine List.filter_congr fun e _ => ?_
    simp only [Within, g, mem_nodeIds_ofParts]
  rw [hkept]
  exact ⟨nodes_ofParts_eq nodes edges, links_ofParts nodes edges,
    (consistent_ofParts nodes edges).edgeIds, endsUpAs_getElem? nodes edges,
    ofParts_toList nodes edges⟩

/-- A suffixed id that was given as such: the edge after it goes on to the next number. -/
example :
    let parts := ofParts
      [⟨"a", .source, "a"⟩, ⟨"a->b", .source, "a->b"⟩, ⟨"b->c", .model, "b->c"⟩,
        ⟨"c", .model, "c"⟩, ⟨"c#1", .model, "c#1"⟩, ⟨"c", .chart, "c"⟩]
      [.between "a" "b->c" .explicit, .between "a->b" "c#1" .explicit,
        .between "a->b" "c" .explicit, .between "a" "d" .explicit]
    parts.edges.toList.map Edge.id = ["a->b->c", "a->b->c#1", "a->b->c#2"] := by decide +kernel

end Graph

end DataLineage
