import DataLineage.Proofs.RegistryNodes
import DataLineage.Proofs.SelectorMeaning
import DataLineage.Proofs.SelfLoops
import Mathlib.Data.List.Perm.Basic

/-!
# The order of declaration

In which order a project declares its objects, and in which order and how often an object writes
down the names it reads from, does not change the lineage. The graph has the same nodes and the same
edges, so a selector selects the same nodes; and where only self-loops are cycles, so that the
layout ignores nothing else, the longest paths are the same and each node has the same rank.

* `Registry.Rearranges.mem_links_iff`: the same links, whatever the order.
* `Graph.SameJoins.mem_select_iff`: selections depend on which nodes are joined alone.
* `Graph.SameJoins.rank?_eq`: without other cycles than self-loops so do ranks.
* `Lineage.declaration_order_irrelevant`: the statement.
-/

namespace DataLineage

open BuildOptions (named?)

variable {o : BuildOptions} {r s : Registry} {p q d : ObjectRecord} {g g' : Graph} {a b v : String}

/-! ## Registries in another order -/

/-- The same object with its names in another order, or with names written more often. -/
structure ObjectRecord.Rearranges (p q : ObjectRecord) : Prop where
  name : p.name = q.name
  type : p.type = q.type
  names : ∀ name, name ∈ p.dependsOn ↔ name ∈ q.dependsOn

/-- The same objects in another order, each with its names rearranged. -/
def Registry.Rearranges (r s : Registry) : Prop :=
  ∃ ps, r.toList.Perm ps ∧ List.Forall₂ ObjectRecord.Rearranges ps s.toList

namespace ObjectRecord.Rearranges

theorem symm (h : p.Rearranges q) : q.Rearranges p :=
  ⟨h.name.symm, h.type.symm, fun name => (h.names name).symm⟩

theorem nodeId_eq (h : p.Rearranges q) (scheme : IdScheme) :
    scheme.nodeId p = scheme.nodeId q := by
  cases scheme with
  | name => exact h.name
  | typed => rw [IdScheme.nodeId, IdScheme.nodeId, h.name, h.type]

theorem node_eq (h : p.Rearranges q) (o : BuildOptions) : o.node p = o.node q := by
  rw [BuildOptions.node, BuildOptions.node, h.nodeId_eq, h.name, h.type]

theorem link_eq (hd : d.Rearranges q) {p' : ObjectRecord} (hp : p.Rearranges p')
    (kind : EdgeKind) : o.link d p kind = o.link q p' kind := by
  rw [BuildOptions.link, BuildOptions.link, hd.nodeId_eq, hp.nodeId_eq]

end ObjectRecord.Rearranges

namespace Registry.Rearranges

theorem symm (h : r.Rearranges s) : s.Rearranges r := by
  obtain ⟨ps, hperm, hall⟩ := h
  have hflip : List.Forall₂ ObjectRecord.Rearranges s.toList ps :=
    hall.flip.imp fun _ _ hpq => hpq.symm
  -- rearranging record by record can come before or after changing the order
  have hcomp : Relation.Comp (List.Forall₂ ObjectRecord.Rearranges) List.Perm s.toList r.toList :=
    ⟨ps, hflip, hperm.symm⟩
  rw [List.forall₂_comp_perm_eq_perm_comp_forall₂] at hcomp
  exact hcomp

theorem exists_mem (h : r.Rearranges s) (hp : p ∈ r.toList) : ∃ q ∈ s.toList, p.Rearranges q := by
  obtain ⟨ps, hperm, hall⟩ := h
  obtain ⟨i, hi⟩ := List.mem_iff_getElem?.1 (hperm.mem_iff.1 hp)
  obtain ⟨hlt, rfl⟩ := List.getElem?_eq_some_iff.1 hi
  exact ⟨_, List.getElem_mem _, hall.get hlt (hall.length_eq ▸ hlt)⟩

/-- The nodes are the same, in another order. -/
theorem perm_nodes (h : r.Rearranges s) (o : BuildOptions) :
    (r.toList.map o.node).Perm (s.toList.map o.node) := by
  obtain ⟨ps, hperm, hall⟩ := h
  have hmap : ps.map o.node = s.toList.map o.node := by
    rw [← List.forall₂_eq_eq_eq, List.forall₂_map_left_iff, List.forall₂_map_right_iff]
    exact hall.imp fun _ _ hpq => hpq.node_eq o
  rw [← hmap]
  exact hperm.map o.node

/-- A name finds the same object. -/
theorem exists_named? (h : r.Rearranges s) (hs : s.Built) {name : String}
    (hp : named? r.toList name = some p) : ∃ q, named? s.toList name = some q ∧ p.Rearranges q := by
  obtain ⟨hmem, hname⟩ := BuildOptions.mem_of_named? hp
  obtain ⟨q, hq, hpq⟩ := h.exists_mem hmem
  refine ⟨q, ?_, hpq⟩
  rw [← hs.get?_eq_named?, hs.get?_eq_some_iff]
  exact ⟨hq, hpq.name.symm.trans hname⟩

end Registry.Rearranges

/-! ## The same links -/

namespace BuildOptions

theorem mem_explicitLinks_iff {records : List ObjectRecord} {l : String × String × EdgeKind} :
    l ∈ o.explicitLinks records p ↔
      ∃ name ∈ p.dependsOn, ∃ q, named? records name = some q ∧ l = o.link q p .explicit := by
  constructor
  · exact mem_explicitLinks
  · rintro ⟨name, hname, q, hq, rfl⟩
    exact List.mem_filterMap.2 ⟨name, List.mem_eraseDups.2 hname, by rw [hq, Option.map_some]⟩

theorem mem_inferredLinks_iff {records : List ObjectRecord} {l : String × String × EdgeKind} :
    l ∈ o.inferredLinks records p ↔
      ∃ d, o.defaultSource.bind (named? records) = some d ∧
        (d.type = .source ∧ p.type.infersDefaultSource ∧
          ∀ name ∈ p.dependsOn, ∀ q ∈ named? records name, q.type ≠ .source) ∧
        l = o.link d p .inferred := by
  rw [inferredLinks]
  cases o.defaultSource.bind (named? records) with
  | none => simp
  | some d =>
    simp only [Option.some.injEq, exists_eq_left']
    split
    next hrule => rw [List.mem_singleton, and_iff_right hrule]
    next hrule => exact iff_of_false List.not_mem_nil fun hl => hrule hl.1

end BuildOptions

namespace Registry.Rearranges

theorem mem_explicitLinks (h : r.Rearranges s) (hs : s.Built) (hpq : p.Rearranges q)
    {l : String × String × EdgeKind} (hl : l ∈ o.explicitLinks r.toList p) :
    l ∈ o.explicitLinks s.toList q := by
  obtain ⟨name, hname, d, hd, rfl⟩ := BuildOptions.mem_explicitLinks_iff.1 hl
  obtain ⟨d', hd', hdd'⟩ := h.exists_named? hs hd
  exact BuildOptions.mem_explicitLinks_iff.2
    ⟨name, (hpq.names name).1 hname, d', hd', hdd'.link_eq hpq .explicit⟩

theorem mem_inferredLinks (h : r.Rearranges s) (hr : r.Built) (hs : s.Built)
    (hpq : p.Rearranges q) {l : String × String × EdgeKind}
    (hl : l ∈ o.inferredLinks r.toList p) : l ∈ o.inferredLinks s.toList q := by
  obtain ⟨d, hd, ⟨hsource, hinfers, hnone⟩, rfl⟩ := BuildOptions.mem_inferredLinks_iff.1 hl
  obtain ⟨default, hdefault, hnamed⟩ := Option.bind_eq_some_iff.1 hd
  obtain ⟨d', hd', hdd'⟩ := h.exists_named? hs hnamed
  refine BuildOptions.mem_inferredLinks_iff.2
    ⟨d', Option.bind_eq_some_iff.2 ⟨default, hdefault, hd'⟩, ⟨?_, ?_, ?_⟩,
      hdd'.link_eq hpq .inferred⟩
  · rwa [← hdd'.type]
  · rwa [← hpq.type]
  · intro name hname x hx
    -- a source among the names would be one before they were rearranged
    obtain ⟨y, hy, hxy⟩ := h.symm.exists_named? hr hx
    rw [hxy.type]
    exact hnone name ((hpq.names name).2 hname) y hy

theorem mem_links (h : r.Rearranges s) (hr : r.Built) (hs : s.Built)
    {l : String × String × EdgeKind} (hl : l ∈ o.links r.toList) : l ∈ o.links s.toList := by
  obtain ⟨p, hp, hl⟩ := List.mem_flatMap.1 hl
  obtain ⟨q, hq, hpq⟩ := h.exists_mem hp
  refine List.mem_flatMap.2 ⟨q, hq, List.mem_append.2 ?_⟩
  rcases List.mem_append.1 hl with hl | hl
  · exact Or.inl (h.mem_explicitLinks hs hpq hl)
  · exact Or.inr (h.mem_inferredLinks hr hs hpq hl)

/-- **The same links**, whatever the order. -/
theorem mem_links_iff (h : r.Rearranges s) (hr : r.Built) (hs : s.Built)
    {l : String × String × EdgeKind} : l ∈ o.links r.toList ↔ l ∈ o.links s.toList :=
  ⟨h.mem_links hr hs, h.symm.mem_links hs hr⟩

theorem perm_links (h : r.Rearranges s) (hr : r.Built) (hs : s.Built) (o : BuildOptions) :
    (o.links r.toList).Perm (o.links s.toList) :=
  (List.perm_ext_iff_of_nodup (BuildOptions.nodup_ends o hr).of_map
    (BuildOptions.nodup_ends o hs).of_map).2 fun _ => h.mem_links_iff hr hs

end Registry.Rearranges

/-! ## Graphs that join the same nodes -/

theorem joins_iff_link {edges : List Edge} :
    Joins edges a b ↔ ∃ kind, (a, b, kind) ∈ edges.map Edge.link := by
  constructor
  · rintro ⟨e, he, rfl, rfl⟩
    exact ⟨e.kind, List.mem_map.2 ⟨e, he, rfl⟩⟩
  · rintro ⟨kind, hmem⟩
    obtain ⟨e, he, hlink⟩ := List.mem_map.1 hmem
    obtain ⟨hsource, hrest⟩ := Prod.mk.inj hlink
    exact ⟨e, he, hsource, (Prod.mk.inj hrest).1⟩

namespace Graph

/-- Graphs with the same nodes, found by the same names and joined in the same way. -/
structure SameJoins (g g' : Graph) : Prop where
  nodeIds : ∀ a, a ∈ g.nodeIds ↔ a ∈ g'.nodeIds
  names : ∀ name, g.idForName? name = g'.idForName? name
  joins : ∀ a b, Joins g.edges.toList a b ↔ Joins g'.edges.toList a b

/-- Which nodes the edges between two nodes join. -/
theorem joins_properEdges_iff :
    Joins g.properEdges a b ↔ Joins g.edges.toList a b ∧ a ≠ b := by
  simp only [Joins, mem_properEdges, ← Array.mem_toList_iff]
  constructor
  · rintro ⟨e, ⟨he, hne⟩, rfl, rfl⟩
    exact ⟨⟨e, he, rfl, rfl⟩, hne⟩
  · rintro ⟨⟨e, he, rfl, rfl⟩, hne⟩
    exact ⟨e, ⟨he, hne⟩, rfl, rfl⟩

namespace SameJoins

theorem joins_edges (h : SameJoins g g') : Joins g.edges.toList = Joins g'.edges.toList :=
  funext fun a => funext fun b => propext (h.joins a b)

theorem joins_properEdges (h : SameJoins g g') : Joins g.properEdges = Joins g'.properEdges := by
  funext a b
  rw [propext joins_properEdges_iff, propext joins_properEdges_iff, h.joins_edges]

theorem path_iff (h : SameJoins g g') {direction : Direction} {start : String} {n : ℕ} :
    g.Path direction start v n ↔ g'.Path direction start v n := by
  cases direction with
  | ancestors => rw [Path, Path, h.joins_edges]
  | descendants => rw [Path, Path, h.joins_edges]

/-- **What a selector selects** depends on the names and on which nodes are joined alone. -/
theorem mem_select_iff (h : SameJoins g g') (hg : g.Consistent) (hm : g.Mirrored)
    (hg' : g'.Consistent) (hm' : g'.Mirrored) (selector : Selector) :
    v ∈ selector.select g ↔ v ∈ selector.select g' := by
  cases selector with
  | all => rw [Selector.mem_select_all, Selector.mem_select_all, h.nodeIds]
  | terms ts =>
    rw [Selector.mem_select_terms, Selector.mem_select_terms]
    refine exists_congr fun t => and_congr_right fun _ => ?_
    rw [t.mem_select_iff_path hg hm, t.mem_select_iff_path hg' hm', h.names]
    simp only [h.path_iff]

end SameJoins

end Graph

namespace Layout

/-- Where only self-loops are cycles, the layout keeps all other edges. -/
theorem kept_eq_properEdges (settings : LayoutSettings) (h : g.Consistent)
    (hac : Acyclic (Joins g.properEdges)) : kept settings g = g.properEdges := by
  rw [kept_eq settings h, List.filter_eq_self]
  intro e he
  exact decide_eq_true (notMem_ignored_of_acyclic h he (hac e.target))

end Layout

/-- **Where only self-loops are cycles, ranks** depend on which nodes are joined alone. -/
theorem Graph.SameJoins.rank?_eq (h : Graph.SameJoins g g') (hg : g.Consistent)
    (hg' : g'.Consistent) (settings : LayoutSettings) (hac : Acyclic (Joins g.properEdges))
    (ha : a ∈ g.nodeIds) :
    ∃ k, Layout.rank? (.ofGraph settings g) a = some k ∧
      Layout.rank? (.ofGraph settings g') a = some k := by
  have hac' : Acyclic (Joins g'.properEdges) := by rwa [← h.joins_properEdges]
  obtain ⟨k, hk, hlongest⟩ := Layout.isGreatest_rank? settings hg ha
  obtain ⟨k', hk', hlongest'⟩ := Layout.isGreatest_rank? settings hg' ((h.nodeIds a).1 ha)
  rw [Layout.kept_eq_properEdges settings hg hac, h.joins_properEdges] at hlongest
  rw [Layout.kept_eq_properEdges settings hg' hac'] at hlongest'
  obtain rfl : k = k' := hlongest.unique hlongest'
  exact ⟨k, hk, hk'⟩

/-! ## The statement -/

/-- Graphs of registries in another order join the same nodes. -/
theorem Registry.Rearranges.sameJoins (h : r.Rearranges s) (hr : r.Built) (hs : s.Built)
    (o : BuildOptions) : Graph.SameJoins (.ofRegistry o r) (.ofRegistry o s) := by
  refine ⟨?_, ?_, ?_⟩
  · intro a
    rw [Graph.nodeIds, Graph.nodeIds, Graph.nodes_ofRegistry hr, Graph.nodes_ofRegistry hs]
    exact ((h.perm_nodes o).map Node.id).mem_iff
  · intro name
    rw [Graph.idForName?_ofRegistry hr, Graph.idForName?_ofRegistry hs, hr.get?_eq_named?,
      hs.get?_eq_named?]
    cases hp : named? r.toList name with
    | some p =>
      obtain ⟨q, hq, hpq⟩ := h.exists_named? hs hp
      rw [hq, Option.map_some, Option.map_some, hpq.nodeId_eq]
    | none =>
      cases hq : named? s.toList name with
      | none => rfl
      | some q =>
        obtain ⟨p, hp', -⟩ := h.symm.exists_named? hr hq
        rw [hp] at hp'
        cases hp'
  · intro a b
    rw [joins_iff_link, joins_iff_link, Graph.links_ofRegistry hr, Graph.links_ofRegistry hs]
    exact exists_congr fun kind => h.mem_links_iff hr hs

namespace Lineage

/-- **The order of declaration does not change the lineage.** Whatever the build options, the graphs
of a registry and of the same registry in another order, with the names of each record rearranged
and repeated, have the same nodes and the same edges by their ends and kinds, and each selector's
text selects the same ids. If the graph has no cycles but self-loops, every node has the same rank
in both layouts. -/
theorem declaration_order_irrelevant (o : BuildOptions) (settings : LayoutSettings)
    (hr : r.Built) (hs : s.Built) (h : r.Rearranges s) :
    let g := Graph.ofRegistry o r
    let g' := Graph.ofRegistry o s
    g.nodes.toList.Perm g'.nodes.toList ∧
    (g.edges.toList.map Edge.link).Perm (g'.edges.toList.map Edge.link) ∧
    (∀ text v, v ∈ (Selector.parse text).select g ↔ v ∈ (Selector.parse text).select g') ∧
    (Acyclic (Joins g.properEdges) → ∀ a ∈ g.nodeIds,
      ∃ k, Layout.rank? (.ofGraph settings g) a = some k ∧
        Layout.rank? (.ofGraph settings g') a = some k) := by
  intro g g'
  have hg : g.Consistent := Graph.consistent_ofParts _ _
  have hg' : g'.Consistent := Graph.consistent_ofParts _ _
  have hsame : Graph.SameJoins g g' := h.sameJoins hr hs o
  refine ⟨?_, ?_, ?_, ?_⟩
  · rw [Graph.nodes_ofRegistry hr, Graph.nodes_ofRegistry hs]
    exact h.perm_nodes o
  · rw [Graph.links_ofRegistry hr, Graph.links_ofRegistry hs]
    exact h.perm_links hr hs o
  · intro text v
    exact hsame.mem_select_iff hg (Graph.mirrored_ofParts _ _) hg' (Graph.mirrored_ofParts _ _) _
  · intro hac a ha
    exact hsame.rank?_eq hg hg' settings hac ha

/-- A model that reads itself and, by default, a source, and a chart of both, declared in this order
and backwards with some names written twice. -/
theorem rank?_of_reversed :
    let o : BuildOptions := ⟨.typed, some "db"⟩
    let r := Registry.ofList [⟨"db", .source, []⟩, ⟨"a", .model, ["a"]⟩, ⟨"b", .chart, ["a", "db"]⟩]
    let s := Registry.ofList
      [⟨"b", .chart, ["db", "a", "db"]⟩, ⟨"a", .model, ["a", "a"]⟩, ⟨"db", .source, []⟩]
    let g := Graph.ofRegistry o r
    let g' := Graph.ofRegistry o s
    g.nodeIds = ["source:db", "model:a", "chart:b"] ∧
    g'.nodeIds = ["chart:b", "model:a", "source:db"] ∧
    ∃ k, Layout.rank? (.ofGraph {} g) "chart:b" = some k ∧
      Layout.rank? (.ofGraph {} g') "chart:b" = some k := by
  have hnames : ∀ name, name ∈ ["a"] ↔ name ∈ ["a", "a"] := by simp
  have hnames' : ∀ name, name ∈ ["a", "db"] ↔ name ∈ ["db", "a", "db"] := by
    intro name
    simp only [List.mem_cons]
    tauto
  intro o r s g g'
  have hr : r.Built := Registry.Built.ofList _
  have hs : s.Built := Registry.Built.ofList _
  have hnodes : g.nodeIds = ["source:db", "model:a", "chart:b"] := by decide +kernel
  have hnodes' : g'.nodeIds = ["chart:b", "model:a", "source:db"] := by decide +kernel
  have hrearranges : r.Rearranges s := by
    have hrecords : r.toList =
        [⟨"db", .source, []⟩, ⟨"a", .model, ["a"]⟩, ⟨"b", .chart, ["a", "db"]⟩] := by decide +kernel
    have hrecords' : s.toList =
        [⟨"b", .chart, ["db", "a", "db"]⟩, ⟨"a", .model, ["a", "a"]⟩, ⟨"db", .source, []⟩] := by
      decide +kernel
    refine ⟨r.toList.reverse, r.toList.reverse_perm.symm, ?_⟩
    rw [hrecords, hrecords']
    exact .cons ⟨rfl, rfl, hnames'⟩ (.cons ⟨rfl, rfl, hnames⟩
      (.cons ⟨rfl, rfl, fun _ => Iff.rfl⟩ .nil))
  have hacyclic : Acyclic (Joins g.properEdges) := by
    refine acyclic_of_lt (["source:db", "model:a", "chart:b"].idxOf ·) ?_
    have hup : ∀ e ∈ g.properEdges, ["source:db", "model:a", "chart:b"].idxOf e.source <
        ["source:db", "model:a", "chart:b"].idxOf e.target := by decide +kernel
    rintro _ _ ⟨e, he, rfl, rfl⟩
    exact hup e he
  obtain ⟨-, -, -, hranks⟩ := declaration_order_irrelevant o {} hr hs hrearranges
  exact ⟨hnodes, hnodes', hranks hacyclic "chart:b" (by decide +kernel)⟩

end Lineage

end DataLineage
