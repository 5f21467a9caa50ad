import DataLineage.Graph.Basic
import DataLineage.Proofs.PositionTable
import Mathlib.Data.List.Perm.Subperm

/-!
# Graphs in step with their tables

What holds of every graph that `Graph.ofParts` builds.

* `exists_freeId_eq`: an edge id that is taken gives way to the first suffixed form that is not.
* `Graph.consistent_ofParts`: the table of positions finds each node by its id and nothing else,
  edges join nodes of the graph, and no two edges have the same id.
* `Graph.ofParts_induction`: what each node and each edge keeps holds of every graph.
* `Graph.idForName?_ofParts`: a display name finds the first node that has it.
-/

namespace DataLineage

theorem suffixedId_injective (id : String) : Function.Injective (suffixedId id) := by
  intro m n h
  have hl := congrArg String.toList h
  simp only [suffixedId, String.toList_append, Nat.toString_eq_ofList_toDigits,
    String.toList_ofList, List.append_cancel_left_eq] at hl
  rw [← Nat.ofDigitChars_ten_toDigits (n := m), hl, Nat.ofDigitChars_ten_toDigits]

/-- **The first suffixed form that is not taken.** The search for it always ends with one. -/
theorem exists_freeId_eq (id : String) (taken : Std.TreeSet String) :
    ∃ n, 1 ≤ n ∧ freeId id taken = suffixedId id n ∧ suffixedId id n ∉ taken ∧
      ∀ m, 1 ≤ m → m < n → suffixedId id m ∈ taken := by
  unfold freeId
  split
  next n h =>
    rw [List.find?_range'_eq_some] at h
    obtain ⟨hn, hmem, hmin⟩ := h
    simp only [Bool.not_eq_true', Bool.not_not] at hn hmin
    exact ⟨n, (List.mem_range'_1.1 hmem).1, rfl, by simpa [← Std.TreeSet.contains_iff_mem] using hn,
      fun m h₁ h₂ => Std.TreeSet.contains_iff_mem.1 (hmin m h₁ h₂)⟩
  next h =>
    -- one more candidate than there are taken ids cannot all be taken
    have hall : ∀ n ∈ List.range' 1 (taken.size + 1), suffixedId id n ∈ taken := by
      intro n hn
      have := List.find?_eq_none.1 h n hn
      simpa using this
    have hsub : (List.range' 1 (taken.size + 1)).map (suffixedId id) ⊆ taken.toList := by
      intro s hs
      obtain ⟨n, hn, rfl⟩ := List.mem_map.1 hs
      exact Std.TreeSet.mem_toList.2 (hall n hn)
    have hnd : ((List.range' 1 (taken.size + 1)).map (suffixedId id)).Nodup :=
      List.Nodup.map (suffixedId_injective id) List.nodup_range'
    have := (hnd.subperm hsub).length_le
    rw [List.length_map, List.length_range', Std.TreeSet.length_toList] at this
    omega

namespace Graph

variable {g : Graph} {taken : Std.TreeSet String}

/-- **A graph in step with its tables.** -/
structure Consistent (g : Graph) : Prop where
  positions : Indexes g.positions g.nodeIds
  ends : ∀ e ∈ g.edges, e.source ∈ g.nodeIds ∧ e.target ∈ g.nodeIds
  edgeIds : (g.edges.toList.map Edge.id).Nodup

theorem length_nodeIds (g : Graph) : g.nodeIds.length = g.nodes.size := by simp [nodeIds]

theorem consistent_empty : empty.Consistent :=
  ⟨Indexes.empty, by simp [empty], by simp [empty]⟩

theorem Consistent.addNode (h : g.Consistent) (node : Node) : (g.addNode node).Consistent := by
  unfold Graph.addNode
  split
  · exact h
  next hnew =>
    rw [h.positions.contains_iff_mem] at hnew
    have hids :
        ({ g with nodes := g.nodes.push node } : Graph).nodeIds = g.nodeIds ++ [node.id] := by
      simp [nodeIds]
    refine ⟨?_, fun e he => ?_, h.edgeIds⟩
    · rw [← g.length_nodeIds]
      exact hids ▸ h.positions.push hnew
    · obtain ⟨hs, ht⟩ := h.ends e he
      exact hids ▸ ⟨List.mem_append_left _ hs, List.mem_append_left _ ht⟩

theorem Consistent.addEdge (h : g.Consistent)
    (ht : ∀ id, id ∈ taken ↔ id ∈ g.edges.toList.map Edge.id) (edge : Edge) :
    (g.addEdge taken edge).1.Consistent ∧
      ∀ id, id ∈ (g.addEdge taken edge).2 ↔
        id ∈ (g.addEdge taken edge).1.edges.toList.map Edge.id := by
  unfold Graph.addEdge
  split
  next i j hi hj =>
    set id' := if taken.contains edge.id then freeId edge.id taken else edge.id with hid'
    have hfresh : id' ∉ taken := by
      rw [hid']
      split
      next =>
        obtain ⟨n, -, hn, hnot, -⟩ := exists_freeId_eq edge.id taken
        rw [hn]; exact hnot
      next hc => simpa using hc
    refine ⟨⟨h.positions, fun e he => ?_, ?_⟩, fun id => ?_⟩
    · rcases Array.mem_push.1 he with he | rfl
      · exact h.ends e he
      · exact ⟨h.positions.exists_iff_mem.1 ⟨i, hi⟩, h.positions.exists_iff_mem.1 ⟨j, hj⟩⟩
    · rw [Array.toList_push, List.map_append, List.nodup_append]
      refine ⟨h.edgeIds, by simp, fun a ha b hb => ?_⟩
      obtain rfl : b = id' := by simpa using hb
      rintro rfl
      exact hfresh ((ht _).2 ha)
    · rw [Std.TreeSet.mem_insert, Std.LawfulEqCmp.compare_eq_iff_eq, ht, Array.toList_push,
        List.map_append, List.mem_append]
      simp only [List.map_cons, List.map_nil, List.mem_singleton]
      tauto
  next => exact ⟨h, ht⟩

theorem edges_addNode (g : Graph) (node : Node) : (g.addNode node).edges = g.edges := by
  unfold Graph.addNode
  split <;> rfl

theorem Consistent.foldl_addNode (nodes : List Node) (h : g.Consistent) :
    (nodes.foldl Graph.addNode g).Consistent := by
  induction nodes generalizing g with
  | nil => exact h
  | cons node nodes ih => exact ih (h.addNode node)

theorem edges_foldl_addNode (nodes : List Node) (g : Graph) :
    (nodes.foldl Graph.addNode g).edges = g.edges := by
  induction nodes generalizing g with
  | nil => rfl
  | cons node nodes ih => rw [List.foldl_cons, ih, edges_addNode]

theorem Consistent.foldl_addEdge (edges : List Edge) {s : Graph × Std.TreeSet String}
    (h : s.1.Consistent) (ht : ∀ id, id ∈ s.2 ↔ id ∈ s.1.edges.toList.map Edge.id) :
    (edges.foldl (fun s edge => Graph.addEdge s.1 s.2 edge) s).1.Consistent := by
  induction edges generalizing s with
  | nil => exact h
  | cons edge edges ih =>
    obtain ⟨h₁, h₂⟩ := h.addEdge ht edge
    exact ih h₁ h₂

/-- **Every graph is built in step with its tables.** -/
theorem consistent_ofParts (nodes : List Node) (edges : List Edge) :
    (ofParts nodes edges).Consistent := by
  have hnodes := consistent_empty.foldl_addNode nodes
  have hedges : (nodes.foldl addNode empty).edges = #[] := edges_foldl_addNode nodes empty
  exact hnodes.foldl_addEdge edges (by simp [hedges])

/-- **What holds of the empty graph and is kept by each node and each edge** holds of every graph.
All nodes come before the first edge, and edges come to a graph in step with its tables. -/
theorem ofParts_induction {P : Graph → Prop} (hempty : P empty)
    (hnode : ∀ g node, g.edges = #[] → P g → P (g.addNode node))
    (hedge : ∀ g taken edge, g.Consistent → P g → P (g.addEdge taken edge).1) (nodes : List Node)
    (edges : List Edge) : P (ofParts nodes edges) := by
  have hnodes : ∀ g, g.edges = #[] → P g → P (nodes.foldl addNode g) := by
    induction nodes with
    | nil => exact fun _ _ hP => hP
    | cons node nodes ih =>
      intro g hg hP
      exact ih (g.addNode node) ((edges_addNode g node).trans hg) (hnode g node hg hP)
  have hedges : ∀ s : Graph × Std.TreeSet String, s.1.Consistent →
      (∀ id, id ∈ s.2 ↔ id ∈ s.1.edges.toList.map Edge.id) → P s.1 →
      P (edges.foldl (fun s edge => addEdge s.1 s.2 edge) s).1 := by
    induction edges with
    | nil => exact fun _ _ _ hP => hP
    | cons edge edges ih =>
      intro s hs ht hP
      obtain ⟨hs', ht'⟩ := hs.addEdge ht edge
      exact ih _ hs' ht' (hedge s.1 s.2 edge hs hP)
  have hnone : (nodes.foldl addNode empty).edges = #[] := edges_foldl_addNode nodes empty
  exact hedges _ (consistent_empty.foldl_addNode nodes) (by simp [hnone]) (hnodes empty rfl hempty)

/-! ## Display names -/

/-- The table of names finds the first node of each display name. -/
def Named (g : Graph) : Prop :=
  ∀ name, g.namePositions[name]? = g.nodes.toList.findIdx? (·.displayName == name)

theorem named_empty : empty.Named := by
  intro name
  simp [empty]

theorem Named.addNode (h : g.Named) (node : Node) : (g.addNode node).Named := by
  unfold Graph.addNode
  split
  next => exact h
  next =>
    intro name
    have hmem : node.displayName ∉ g.namePositions ↔
        g.nodes.toList.findIdx? (·.displayName == node.displayName) = none := by
      rw [← h, Std.TreeMap.mem_iff_isSome_getElem?, Option.not_isSome_iff_eq_none]
    simp only [Std.TreeMap.getElem?_insertIfNew, Array.toList_push, List.findIdx?_append, h name,
      hmem, Std.LawfulEqCmp.compare_eq_iff_eq]
    by_cases hname : node.displayName = name
    · cases hfind : g.nodes.toList.findIdx? (·.displayName == name) <;> simp [hname, hfind]
    · simp [hname]

theorem Named.addEdge (h : g.Named) (taken : Std.TreeSet String) (edge : Edge) :
    (g.addEdge taken edge).1.Named := by
  unfold Graph.addEdge
  split <;> exact h

theorem named_ofParts (nodes : List Node) (edges : List Edge) : (ofParts nodes edges).Named :=
  ofParts_induction named_empty (fun _ node _ h => h.addNode node)
    (fun _ taken edge _ h => h.addEdge taken edge) nodes edges

/-- **A display name finds the first node that has it.** -/
theorem idForName?_ofParts (nodes : List Node) (edges : List Edge) (name : String) :
    (ofParts nodes edges).idForName? name =
      ((ofParts nodes edges).nodes.toList.find? (·.displayName == name)).map Node.id := by
  rw [idForName?, named_ofParts nodes edges, List.find?_eq_bind_findIdx?_getElem?]
  simp only [Array.getElem?_toList]

end Graph

end DataLineage
