import DataLineage.Proofs.Reachability
import DataLineage.Proofs.TermReadings

/-!
# What a selector selects

A selector's text is parted at its commas. A piece takes in the nodes that are near the first node
of its name: within its number of generations of ancestors or of descendants. These numbers are the
ones written, of whatever size. That the greater ones are kept as no bound makes no difference,
since no node is as far from another as a graph has nodes.

* `Generations.allows_upTo_iff`: what is kept of a number allows the same distances below 2 ^ 64.
* `Term.mem_select_iff`: a term selects the nodes near the first node of its name.
* `Selector.mem_select_parse_iff`: a text selects all nodes if it is blank, else what its pieces
  take in.
-/

namespace DataLineage

/-- What is kept of a number allows the same distances as the number, below 2 ^ 64. -/
theorem Generations.allows_upTo_iff {n : ℕ∞} {k : ℕ} (hk : k < 2 ^ 64) :
    (upTo n).Allows k ↔ (k : ℕ∞) ≤ n := by
  rw [upTo]
  split_ifs with hn
  · obtain ⟨m, rfl⟩ := ENat.ne_top_iff_exists.1 (ne_top_of_lt hn)
    rw [Allows, ENat.toNat_natCast, Nat.cast_le]
  · refine iff_of_true trivial (le_trans ?_ (not_lt.1 hn))
    exact_mod_cast hk.le

namespace Graph

variable {g : Graph} {start v : String} {direction : Direction} {m : ℕ∞}

/-- A display name finds a node of the graph. -/
theorem mem_nodeIds_of_idForName? {name : String} (h : g.idForName? name = some start) :
    start ∈ g.nodeIds := by
  obtain ⟨node, hnode, rfl⟩ := Option.map_eq_some_iff.1 h
  obtain ⟨i, -, hi⟩ := Option.bind_eq_some_iff.1 hnode
  exact List.mem_map_of_mem (Array.mem_toList_iff.2 (Array.mem_of_getElem? hi))

/-- Some walk to `u` has at most `ancestors` edges, or some walk from it at most `descendants`. -/
def Near (g : Graph) (u : String) (ancestors descendants : ℕ∞) (v : String) : Prop :=
  (∃ n : ℕ, n ≤ ancestors ∧ Walk (Joins g.edges.toList) v u n) ∨
    ∃ n : ℕ, n ≤ descendants ∧ Walk (Joins g.edges.toList) u v n

/-- A piece of a selector takes in the nodes near the first node of the name it asks for. -/
def TakesIn (g : Graph) (piece : List Char) (v : String) : Prop :=
  ∃ r, Term.reading? (trimChars piece) = some r ∧
    ∃ u, g.nodes.toList.find? (·.displayName == r.name) = some u ∧
      g.Near u.id r.ancestors r.descendants v

/-- Keeping great numbers as no bound makes no difference to a search. -/
theorem Consistent.exists_path_upTo_iff (hg : g.Consistent) (hsize : g.nodes.size ≤ 2 ^ 64)
    (hstart : start ∈ g.nodeIds) :
    (∃ n, g.Path direction start v n ∧ (Generations.upTo m).Allows n) ↔
      ∃ n : ℕ, n ≤ m ∧ g.Path direction start v n := by
  constructor
  · rintro ⟨n, hw, hn⟩
    obtain ⟨k, hkn, hk, hw⟩ := hg.exists_path_lt hstart hw
    exact ⟨k, (Generations.allows_upTo_iff (hk.trans_le hsize)).1 (hn.mono hkn), hw⟩
  · rintro ⟨n, hn, hw⟩
    obtain ⟨k, hkn, hk, hw⟩ := hg.exists_path_lt hstart hw
    have hkm : (k : ℕ∞) ≤ m := le_trans (by exact_mod_cast hkn) hn
    exact ⟨k, hw, (Generations.allows_upTo_iff (hk.trans_le hsize)).2 hkm⟩

end Graph

variable {nodes : List Node} {edges : List Edge} {v : String}

theorem Direction.exists_iff {P : Direction → Prop} :
    (∃ direction, P direction) ↔ P .ancestors ∨ P .descendants := by
  constructor
  · rintro ⟨_ | _, h⟩
    · exact Or.inl h
    · exact Or.inr h
  · rintro (h | h)
    · exact ⟨_, h⟩
    · exact ⟨_, h⟩

/-- The generations a term takes in on a side. -/
def Term.bound (t : Term) : Direction → Generations
  | .ancestors => t.ancestors
  | .descendants => t.descendants

/-- A term selects what walks within its bounds lead to from the node of its name. -/
theorem Term.mem_select_iff_path {g : Graph} (hg : g.Consistent) (h : g.Mirrored) (t : Term) :
    v ∈ t.select g ↔ ∃ start, g.idForName? t.name = some start ∧
      ∃ direction n, g.Path direction start v n ∧ (t.bound direction).Allows n := by
  rw [select]
  cases hname : g.idForName? t.name with
  | none => simp
  | some start =>
    have hstart : start ∈ g.nodeIds := Graph.mem_nodeIds_of_idForName? hname
    simp only [Std.TreeSet.mem_union_iff, h.mem_reachableIds_iff hg hstart, Option.some.injEq,
      exists_eq_left', Direction.exists_iff]
    rfl

/-- **A term selects the nodes near the first node of its name.** -/
theorem Term.mem_select_iff (hsize : (Graph.ofParts nodes edges).nodes.size ≤ 2 ^ 64)
    (r : Reading) : v ∈ r.term.select (.ofParts nodes edges) ↔
      ∃ u, (Graph.ofParts nodes edges).nodes.toList.find? (·.displayName == r.name) = some u ∧
        (Graph.ofParts nodes edges).Near u.id r.ancestors r.descendants v := by
  have hg := Graph.consistent_ofParts nodes edges
  have hname : (Graph.ofParts nodes edges).idForName? r.term.name =
      ((Graph.ofParts nodes edges).nodes.toList.find? (·.displayName == r.name)).map Node.id :=
    Graph.idForName?_ofParts nodes edges r.name
  rw [mem_select_iff_path hg (Graph.mirrored_ofParts nodes edges), hname]
  simp only [Option.map_eq_some_iff, exists_exists_and_eq_and]
  refine exists_congr fun u => and_congr_right fun hfind => ?_
  have hu : u.id ∈ (Graph.ofParts nodes edges).nodeIds :=
    List.mem_map_of_mem (List.mem_of_find?_eq_some hfind)
  rw [Direction.exists_iff]
  exact or_congr (hg.exists_path_upTo_iff hsize hu) (hg.exists_path_upTo_iff hsize hu)

namespace Selector

theorem mem_select_all (g : Graph) : v ∈ all.select g ↔ v ∈ g.nodeIds := by
  rw [select, Std.TreeSet.mem_ofList, List.contains_iff_mem]

/-- Terms together select what each of them selects. -/
theorem mem_select_terms (g : Graph) (ts : List Term) :
    v ∈ (terms ts).select g ↔ ∃ t ∈ ts, v ∈ t.select g := by
  suffices h : ∀ ids : Std.TreeSet String, v ∈ ts.foldl (fun ids t => ids ∪ t.select g) ids ↔
      v ∈ ids ∨ ∃ t ∈ ts, v ∈ t.select g by
    rw [select, h]
    simp
  induction ts with
  | nil => simp
  | cons t ts ih =>
    intro ids
    rw [List.foldl_cons, ih, Std.TreeSet.mem_union_iff, List.exists_mem_cons_iff, or_assoc]

/-- The pieces of a text between its commas. -/
def pieces (text : String) : List (List Char) := text.toList.splitOn ','

/-- A text that is not blank selects what its pieces take in. -/
theorem mem_select_of_not_blank (hsize : (Graph.ofParts nodes edges).nodes.size ≤ 2 ^ 64)
    {text : String} (hblank : ¬ isBlankText text) :
    v ∈ (parse text).select (.ofParts nodes edges) ↔
      ∃ piece ∈ pieces text, (Graph.ofParts nodes edges).TakesIn piece v := by
  rw [parse, if_neg hblank, mem_select_terms]
  constructor
  · rintro ⟨t, ht, hv⟩
    obtain ⟨piece, hpiece, hread⟩ := List.mem_filterMap.1 ht
    rw [Term.ofChars?_eq_reading?] at hread
    obtain ⟨r, hr, rfl⟩ := Option.map_eq_some_iff.1 hread
    exact ⟨piece, hpiece, r, hr, (Term.mem_select_iff hsize r).1 hv⟩
  · rintro ⟨piece, hpiece, r, hr, hv⟩
    refine ⟨r.term, List.mem_filterMap.2 ⟨piece, hpiece, ?_⟩, (Term.mem_select_iff hsize r).2 hv⟩
    rw [Term.ofChars?_eq_reading?, hr, Option.map_some]

/-- A blank text is its only piece. -/
theorem pieces_of_blank {text : String} (hblank : isBlankText text) :
    pieces text = [text.toList] := by
  refine List.splitOn_eq_singleton ?_
  intro hcomma
  exact absurd (List.all_eq_true.1 hblank ',' hcomma) (by decide)

/-- The pieces make up the text. -/
theorem eq_of_pieces_eq {text text' : String} (h : pieces text = pieces text') : text = text' := by
  have hjoin := congrArg ([','].intercalate ·) h
  simp only [pieces, List.intercalate_splitOn] at hjoin
  exact String.ext hjoin

/-- More pieces do not make a text blank. -/
theorem not_blank_of_subperm {text text' : String} (hblank : ¬ isBlankText text)
    (h : (pieces text).Subperm (pieces text')) : ¬ isBlankText text' := by
  intro hblank'
  -- a blank text is a single piece, which would be the only one of the other text
  have hlength : (pieces text').length ≤ (pieces text).length := by
    rw [pieces_of_blank hblank']
    exact List.length_pos_iff.2 (List.splitOn_ne_nil _ _)
  have hperm := h.perm_of_length_le hlength
  rw [pieces_of_blank hblank', List.perm_singleton, ← pieces_of_blank hblank'] at hperm
  rw [eq_of_pieces_eq hperm] at hblank
  exact hblank hblank'

/-- A blank text takes in nothing by its piece. -/
theorem not_takesIn_of_blank {g : Graph} {text : String} (hblank : isBlankText text)
    {piece : List Char} (hpiece : piece ∈ pieces text) : ¬ g.TakesIn piece v := by
  rintro ⟨r, hr, -⟩
  rw [pieces_of_blank hblank, List.mem_singleton] at hpiece
  rw [hpiece, (trimChars_eq_nil_iff _).2 (List.all_eq_true.1 hblank)] at hr
  cases hr

/-- **What a selector selects.** A blank text selects all nodes; another one those that some piece
of it takes in, by the exact numbers written in it. Pieces are read as terms with the name and the
numbers of their reading. Pieces in another order, pieces repeated, and more pieces that are no
terms or name no node make no difference to a text that is not blank. -/
theorem mem_select_parse_iff (nodes : List Node) (edges : List Edge) (text : String)
    (hsize : (Graph.ofParts nodes edges).nodes.size ≤ 2 ^ 64) :
    let g := Graph.ofParts nodes edges
    (∀ v, v ∈ (parse text).select g ↔
      isBlankText text ∧ v ∈ g.nodeIds ∨ ∃ piece ∈ pieces text, g.TakesIn piece v) ∧
    (∀ piece, Term.parse? (String.ofList piece) =
      (Term.reading? (trimChars piece)).map Reading.term) ∧
    (¬ isBlankText text → ∀ text', (pieces text).Subperm (pieces text') →
      (∀ piece ∈ pieces text', piece ∈ pieces text ∨
        ∀ t, Term.parse? (String.ofList piece) = some t →
          ∀ node ∈ g.nodes, node.displayName ≠ t.name) →
      ∀ v, v ∈ (parse text').select g ↔ v ∈ (parse text).select g) := by
  intro g
  have hread : ∀ piece, Term.parse? (String.ofList piece) =
      (Term.reading? (trimChars piece)).map Reading.term := by
    intro piece
    rw [Term.parse?, String.toList_ofList, Term.ofChars?_eq_reading?]
  refine ⟨?_, hread, ?_⟩
  · intro v
    by_cases hblank : isBlankText text
    · have hall : v ∈ (parse text).select g ↔ v ∈ g.nodeIds := by
        rw [parse, if_pos hblank, select, Std.TreeSet.mem_ofList, List.contains_iff_mem]
      rw [hall]
      constructor
      · intro hv
        exact Or.inl ⟨hblank, hv⟩
      · rintro (⟨-, hv⟩ | ⟨piece, hpiece, hv⟩)
        · exact hv
        · exact absurd hv (not_takesIn_of_blank hblank hpiece)
    · rw [mem_select_of_not_blank hsize hblank]
      constructor
      · exact Or.inr
      · rintro (⟨h, -⟩ | h)
        · exact absurd h hblank
        · exact h
  · intro hblank text' hsub hmore v
    rw [mem_select_of_not_blank hsize hblank,
      mem_select_of_not_blank hsize (not_blank_of_subperm hblank hsub)]
    constructor
    · rintro ⟨piece, hpiece, r, hr, u, hu, hnear⟩
      rcases hmore piece hpiece with hold | hnone
      · exact ⟨piece, hold, r, hr, u, hu, hnear⟩
      · have hterm : Term.parse? (String.ofList piece) = some r.term := by
          rw [hread, hr, Option.map_some]
        have hname : u.displayName = r.name := by simpa using List.find?_some hu
        exact absurd hname
          (hnone r.term hterm u (Array.mem_toList_iff.1 (List.mem_of_find?_eq_some hu)))
    · rintro ⟨piece, hpiece, htakes⟩
      exact ⟨piece, hsub.subset hpiece, htakes⟩

/-- A cycle of three nodes, one more of a name that is there already, and a number too great to be
kept. -/
theorem mem_select_of_cycle :
    let g := Graph.ofParts
      [⟨"a", .source, "db"⟩, ⟨"b", .model, "orders"⟩, ⟨"c", .model, "report"⟩,
        ⟨"d", .chart, "report"⟩]
      [.between "a" "b" .explicit, .between "b" "c" .explicit, .between "c" "a" .explicit,
        .between "b" "d" .explicit]
    g.nodes.size ≤ 2 ^ 64 ∧
    "a" ∈ (parse " 18446744073709551616+report,, nosuch+ ").select g ∧
    "b" ∈ (parse "1+report").select g := by
  intro g
  have hsize : g.nodes.size ≤ 2 ^ 64 := by decide +kernel
  have hstep : Joins g.edges.toList "b" "c" := by
    exact ⟨.between "b" "c" .explicit, by decide +kernel, rfl, rfl⟩
  have hab : Joins g.edges.toList "a" "b" := by
    exact ⟨.between "a" "b" .explicit, by decide +kernel, rfl, rfl⟩
  refine ⟨hsize, ?_, ?_⟩
  · refine ((mem_select_parse_iff _ _ _ hsize).1 "a").2 (Or.inr
      ⟨" 18446744073709551616+report".toList, ?_, ⟨"report", (18446744073709551616 : ℕ), 0⟩, ?_,
        ⟨"c", .model, "report"⟩, ?_, Or.inl ⟨2, ?_, ?_⟩⟩)
    · decide +kernel
    · decide +kernel
    · decide +kernel
    · decide +kernel
    · exact .snoc (.single hab) hstep
  · refine ((mem_select_parse_iff _ _ _ hsize).1 "b").2 (Or.inr ⟨"1+report".toList, ?_,
      ⟨"report", 1, 0⟩, ?_, ⟨"c", .model, "report"⟩, ?_, Or.inl ⟨1, ?_, .single hstep⟩⟩)
    · decide +kernel
    · decide +kernel
    · decide +kernel
    · decide +kernel

end Selector

end DataLineage
