import DataLineage.Proofs.NestedParts
import DataLineage.Proofs.SelectorMeaning

/-!
# Selecting again in what was selected

What a selector selects is a part of the graph in which the same selector selects everything. All
nodes on a shortest way to a node taken in are taken in themselves, so no way within the bounds of a
term is cut, and a name still finds the node it found, since none comes before it that did not.

* `Graph.Consistent.path_restrict`: a way stays in a part that has all nodes within its length.
* `Term.mem_select_restrict_iff`: a term selects the same in a part that has what it selects.
* `Selector.selection_is_stable`: the statement.
-/

namespace DataLineage

variable {g : Graph} {a b start v : String} {direction : Direction} {n : ℕ}
  {selected : String → Bool}

/-- The first entry of its kind is still the first among those kept. -/
theorem find?_filter_of_find? {α : Type*} {xs : List α} {p q : α → Bool} {x : α}
    (hx : xs.find? q = some x) (hp : p x) : (xs.filter p).find? q = some x := by
  obtain ⟨hq, front, back, rfl, hfront⟩ := List.find?_eq_some_iff_append.1 hx
  rw [List.filter_append, List.filter_cons_of_pos hp, List.find?_append]
  have hnone : (front.filter p).find? q = none :=
    List.find?_eq_none.2 fun y hy => by simpa using hfront y (List.mem_of_mem_filter hy)
  rw [hnone, Option.none_or, List.find?_cons_of_pos hq]

namespace Graph

/-! ## Ways in a part -/

/-- A part joins what the graph joins, as far as both ends are picked. -/
theorem Consistent.joins_restrict_iff (hg : g.Consistent) :
    Joins (g.restrict selected).edges.toList a b ↔
      Joins g.edges.toList a b ∧ selected a ∧ selected b := by
  simp only [Joins, hg.edges_restrict, List.mem_filter, Bool.and_eq_true]
  constructor
  · rintro ⟨e, ⟨he, hs, ht⟩, rfl, rfl⟩
    exact ⟨⟨e, he, rfl, rfl⟩, hs, ht⟩
  · rintro ⟨⟨e, he, rfl, rfl⟩, hs, ht⟩
    exact ⟨e, ⟨he, hs, ht⟩, rfl, rfl⟩

/-- A way in a part is a way in the graph. -/
theorem Consistent.path_of_restrict (hg : g.Consistent)
    (w : (g.restrict selected).Path direction start v n) : g.Path direction start v n := by
  have hstep : ∀ x y, Joins (g.restrict selected).edges.toList x y → Joins g.edges.toList x y :=
    fun _ _ h => (hg.joins_restrict_iff.1 h).1
  cases direction with
  | ancestors => exact Walk.mono hstep w
  | descendants => exact Walk.mono hstep w

/-- **A way stays in a part** that has all nodes to which no longer way leads from its start. -/
theorem Consistent.path_restrict (hg : g.Consistent) (w : g.Path direction start v n)
    (hselected : ∀ c k, k ≤ n → g.Path direction start c k → selected c) :
    (g.restrict selected).Path direction start v n := by
  cases direction with
  | ancestors =>
    have hback := w.reverse.within fun c k hk hw => hselected c k hk hw.reverse
    refine (hback.mono ?_).reverse
    intro x y hxy
    exact hg.joins_restrict_iff.2 ⟨hxy.1, hxy.2.2, hxy.2.1⟩
  | descendants =>
    exact (w.within hselected).mono fun _ _ => hg.joins_restrict_iff.2

end Graph

/-! ## Selections in a part -/

variable {nodes : List Node} {edges : List Edge}

/-- A name still finds the node it found, if that is picked. -/
theorem Graph.idForName?_restrict {name : String}
    (hname : ∀ start, (ofParts nodes edges).idForName? name = some start → selected start) :
    ((ofParts nodes edges).restrict selected).idForName? name =
      (ofParts nodes edges).idForName? name := by
  set g := ofParts nodes edges with hgdef
  have hg : g.Consistent := consistent_ofParts nodes edges
  have hfirst : g.idForName? name =
      (g.nodes.toList.find? (·.displayName == name)).map Node.id :=
    idForName?_ofParts nodes edges name
  have hpart : (g.restrict selected).idForName? name =
      ((g.nodes.toList.filter fun node => selected node.id).find?
        (·.displayName == name)).map Node.id := by
    rw [← hg.nodes_restrict]
    exact idForName?_ofParts _ _ name
  rw [hpart, hfirst]
  cases hfind : g.nodes.toList.find? (·.displayName == name) with
  | none =>
    have hnone : (g.nodes.toList.filter fun node => selected node.id).find?
        (·.displayName == name) = none :=
      List.find?_eq_none.2 fun node hnode =>
        List.find?_eq_none.1 hfind node (List.mem_of_mem_filter hnode)
    rw [hnone]
  | some u =>
    have hu : selected u.id := hname u.id (by rw [hfirst, hfind, Option.map_some])
    rw [find?_filter_of_find? hfind hu]

/-- **A term selects the same in a part that has all it selects.** -/
theorem Term.mem_select_restrict_iff (t : Term)
    (hselected : ∀ v ∈ t.select (.ofParts nodes edges), selected v) :
    v ∈ t.select ((Graph.ofParts nodes edges).restrict selected) ↔
      v ∈ t.select (.ofParts nodes edges) := by
  set g := Graph.ofParts nodes edges with hgdef
  have hg : g.Consistent := Graph.consistent_ofParts nodes edges
  have hmem : ∀ {c}, c ∈ t.select g ↔ ∃ start, g.idForName? t.name = some start ∧
      ∃ direction n, g.Path direction start c n ∧ (t.bound direction).Allows n :=
    mem_select_iff_path hg (Graph.mirrored_ofParts nodes edges) t
  have hname : (g.restrict selected).idForName? t.name = g.idForName? t.name := by
    refine Graph.idForName?_restrict fun start hstart => hselected start ?_
    exact hmem.2 ⟨start, hstart, .descendants, 0, .nil start, Generations.allows_zero _⟩
  have hpart : (g.restrict selected).Consistent := Graph.consistent_ofParts _ _
  rw [hmem, mem_select_iff_path hpart (Graph.mirrored_ofParts _ _) t, hname]
  refine exists_congr fun start => and_congr_right fun hstart => ?_
  refine exists_congr fun direction => exists_congr fun n => and_congr_left fun hn => ?_
  constructor
  · exact hg.path_of_restrict
  · intro w
    refine hg.path_restrict w fun c k hk hw => hselected c ?_
    -- a node on the way is within the bound too
    exact hmem.2 ⟨start, hstart, direction, k, hw, hn.mono hk⟩

namespace Selector

/-- A selector selects the same in a part that has all it selects. -/
theorem mem_select_restrict_iff (s : Selector)
    (hselected : ∀ v ∈ s.select (.ofParts nodes edges), selected v) :
    v ∈ s.select ((Graph.ofParts nodes edges).restrict selected) ↔
      v ∈ s.select (.ofParts nodes edges) := by
  have hg := Graph.consistent_ofParts nodes edges
  cases s with
  | all =>
    have hnodes := (hg.restrict_all fun id hid => hselected id ((mem_select_all _).2 hid)).1
    rw [mem_select_all, mem_select_all, Graph.nodeIds, Graph.nodeIds, hnodes]
  | terms ts =>
    rw [mem_select_terms, mem_select_terms]
    refine exists_congr fun t => and_congr_right fun ht => ?_
    refine t.mem_select_restrict_iff fun c hc => hselected c ?_
    exact (mem_select_terms _ ts).2 ⟨t, ht, hc⟩

end Selector

/-- **A selection is stable.** In the part of a graph that a selector's text selects, the same text
selects what it selected in the graph. So the part of the part is the part itself, whether the nodes
are picked by the first selection or by the text again. -/
theorem Selector.selection_is_stable (nodes : List Node) (edges : List Edge) (text : String) :
    let g := Graph.ofParts nodes edges
    let ids := (parse text).select g
    let part := g.restrict ids.contains
    (∀ v, v ∈ (parse text).select part ↔ v ∈ ids) ∧
    part.restrict ids.contains = part ∧
    part.selected text = part := by
  intro g ids part
  have hg : g.Consistent := Graph.consistent_ofParts nodes edges
  have hsame : ∀ v, v ∈ (parse text).select part ↔ v ∈ ids := fun v =>
    mem_select_restrict_iff (parse text) fun c hc => Std.TreeSet.contains_iff_mem.2 hc
  have hids : ∀ id ∈ part.nodeIds, id ∈ ids := by
    intro id hid
    obtain ⟨node, hnode, rfl⟩ := List.mem_map.1 hid
    rw [hg.nodes_restrict, List.mem_filter] at hnode
    exact Std.TreeSet.contains_iff_mem.1 hnode.2
  refine ⟨hsame, Graph.restrict_eq_self ?_, Graph.restrict_eq_self ?_⟩
  · intro id hid
    exact Std.TreeSet.contains_iff_mem.2 (hids id hid)
  · intro id hid
    exact Std.TreeSet.contains_iff_mem.2 ((hsame id).2 (hids id hid))

end DataLineage
