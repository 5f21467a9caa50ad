import DataLineage.Proofs.GraphRestriction
import DataLineage.Proofs.RegistryEdges
import DataLineage.Proofs.SnapshotNames

/-!
# Edges under their own ids

The own id of an edge is its source, `->` and its target. Where no source holds a `->`, the first one
in an id stands behind the source, whatever the ends of names look like. So edges with different ends
have different ids, and no edge of a registry has to give way to another.

* `eq_of_append_arrow`: what stands before and behind the first `->` of a text.
* `IdScheme.arrow_infix_nodeId_iff`: a scheme of ids adds no `->` to a name.
* `Graph.edges_ofRegistry_eq`: without `->` in names, the edges of the graph are those drawn up.
* `Graph.edge_ids_need_no_suffix`: the statement, with what was warned about otherwise.
-/

namespace DataLineage

variable {o : BuildOptions} {r : Registry} {p : ObjectRecord} {a x x' y y' : List Char}
  {e e' : Edge}

/-! ## Texts without an arrow -/

theorem hasArrow_iff (cs : List Char) : hasArrow cs ↔ ['-', '>'] <:+: cs := by
  induction cs using hasArrow.induct with
  | case1 rest =>
    rw [hasArrow]
    exact iff_of_true rfl (List.prefix_append ['-', '>'] rest).isInfix
  | case2 c rest hnot ih =>
    have hprefix : ¬ ['-', '>'] <+: c :: rest := by
      rintro ⟨tail, htail⟩
      obtain ⟨hc, hrest⟩ := List.cons.inj htail
      exact hnot tail hc.symm hrest.symm
    rw [hasArrow, ih, List.infix_cons_iff, or_iff_right hprefix]
    exact hnot
  | case3 => decide

theorem edgeSeparator_mem_nameWarnings_iff (name : String) :
    .edgeSeparator ∈ nameWarnings name ↔ ['-', '>'] <:+: name.toList := by
  rw [← hasArrow_iff, nameWarnings, List.mem_append]
  split_ifs <;> simp_all

/-- An arrow does not begin in a part without its first character. -/
theorem arrow_infix_append_iff (h : '-' ∉ x) : ['-', '>'] <:+: x ++ y ↔ ['-', '>'] <:+: y := by
  induction x with
  | nil => rfl
  | cons c x ih =>
    rw [List.mem_cons, not_or] at h
    have hprefix : ¬ ['-', '>'] <+: c :: (x ++ y) := by
      intro hp
      exact h.1 (List.cons_prefix_cons.1 hp).1
    rw [List.cons_append, List.infix_cons_iff, or_iff_right hprefix, ih h.2]

/-- What stands between the beginnings of two arrows holds the first of them. -/
theorem eq_nil_of_append_arrow (ha : ¬ ['-', '>'] <:+: a)
    (h : '-' :: '>' :: y = a ++ '-' :: '>' :: y') : a = [] := by
  match a with
  | [] => rfl
  | [c] =>
    -- the arrows would overlap
    exact absurd (List.cons.inj (List.cons.inj h).2).1 (by decide)
  | c :: d :: rest =>
    obtain ⟨hc, htail⟩ := List.cons.inj h
    obtain ⟨hd, -⟩ := List.cons.inj htail
    subst hc hd
    exact absurd (List.prefix_append ['-', '>'] rest).isInfix ha

/-- **The first arrow of a text tells its two sides apart.** -/
theorem eq_of_append_arrow (hx : ¬ ['-', '>'] <:+: x) (hx' : ¬ ['-', '>'] <:+: x')
    (h : x ++ '-' :: '>' :: y = x' ++ '-' :: '>' :: y') : x = x' ∧ y = y' := by
  have hsame : x = x' := by
    rcases List.append_eq_append_iff.1 h with ⟨a, rfl, ha⟩ | ⟨a, rfl, ha⟩
    · have hnone : ¬ ['-', '>'] <:+: a := fun hi => hx' (hi.trans (List.suffix_append x a).isInfix)
      rw [eq_nil_of_append_arrow hnone ha, List.append_nil]
    · have hnone : ¬ ['-', '>'] <:+: a := fun hi => hx (hi.trans (List.suffix_append x' a).isInfix)
      rw [eq_nil_of_append_arrow hnone ha, List.append_nil]
  subst hsame
  exact ⟨rfl, by simpa using h⟩

/-- A scheme of ids adds no arrow to a name. -/
theorem IdScheme.arrow_infix_nodeId_iff (scheme : IdScheme) (p : ObjectRecord) :
    ['-', '>'] <:+: (scheme.nodeId p).toList ↔ ['-', '>'] <:+: p.name.toList := by
  cases scheme with
  | name => rfl
  | typed =>
    have htag : '-' ∉ (p.type.tag ++ ":").toList := by cases p.type <;> decide
    rw [nodeId, String.toList_append, arrow_infix_append_iff htag]

/-! ## Own ids -/

/-- Whether an edge has the id that its ends make. -/
def Edge.Own (e : Edge) : Prop := e.id = e.source ++ Edge.idSeparator ++ e.target

/-- Edges with one own id have the same ends, if their sources hold no arrow. -/
theorem Edge.Own.ends_eq (he : e.Own) (he' : e'.Own) (hs : ¬ ['-', '>'] <:+: e.source.toList)
    (hs' : ¬ ['-', '>'] <:+: e'.source.toList) (hid : e.id = e'.id) :
    e.source = e'.source ∧ e.target = e'.target := by
  rw [Own] at he he'
  rw [he, he'] at hid
  have hchars := congrArg String.toList hid
  simp only [String.toList_append, List.append_assoc] at hchars
  obtain ⟨hsource, htarget⟩ := eq_of_append_arrow hs hs' hchars
  exact ⟨String.toList_inj.1 hsource, String.toList_inj.1 htarget⟩

theorem BuildOptions.own_of_inferredEdge? {refs : References}
    (he : o.inferredEdge? r p refs = some e) : e.Own := by
  rw [inferredEdge?] at he
  split at he
  · split at he
    · cases he
      rfl
    · cases he
  · cases he

namespace EdgeList

theorem own_addRecord {list : EdgeList} (h : ∀ e ∈ list.edges, e.Own) (p : ObjectRecord) :
    ∀ e ∈ (addRecord o r list p).edges, e.Own := by
  intro e he
  simp only [addRecord, Array.mem_append, Array.mem_map, Option.mem_toArray] at he
  rcases he with (he | ⟨q, -, rfl⟩) | he
  · exact h e he
  · rfl
  · exact BuildOptions.own_of_inferredEdge? he

/-- Every edge is drawn up under its own id. -/
theorem own_ofRegistry (o : BuildOptions) (r : Registry) : ∀ e ∈ (ofRegistry o r).edges, e.Own := by
  suffices hall : ∀ (ps : List ObjectRecord) (list : EdgeList), (∀ e ∈ list.edges, e.Own) →
      ∀ e ∈ (ps.foldl (addRecord o r) list).edges, e.Own from hall r.toList {} (by simp)
  intro ps
  induction ps with
  | nil => exact fun _ h => h
  | cons p ps ih => exact fun list h => ih _ (own_addRecord h p)

/-- No two of the edges drawn up have the same ends. -/
theorem pairwise_ends (o : BuildOptions) (h : r.Built) :
    (ofRegistry o r).edges.toList.Pairwise fun e e' =>
      ¬ (e.source = e'.source ∧ e.target = e'.target) := by
  have hends := BuildOptions.nodup_ends o h
  rw [← links_ofRegistry h, List.map_map, List.Nodup, List.pairwise_map] at hends
  refine hends.imp ?_
  rintro e e' hne ⟨hs, ht⟩
  exact hne (Prod.ext hs ht)

/-- **Without arrows in names the edges drawn up have different ids.** -/
theorem nodup_ids (o : BuildOptions) (h : r.Built)
    (hnames : ∀ p ∈ r.toList, ¬ ['-', '>'] <:+: p.name.toList) :
    ((ofRegistry o r).edges.toList.map Edge.id).Nodup := by
  have hsource : ∀ e ∈ (ofRegistry o r).edges.toList, ¬ ['-', '>'] <:+: e.source.toList := by
    intro e he
    obtain ⟨q, hq, -, -, hs, -⟩ := exists_records_of_mem h he
    rw [hs, IdScheme.arrow_infix_nodeId_iff]
    exact hnames q hq
  have hown : ∀ e ∈ (ofRegistry o r).edges.toList, e.Own := fun e he =>
    own_ofRegistry o r e (Array.mem_toList_iff.1 he)
  rw [List.Nodup, List.pairwise_map]
  refine (pairwise_ends o h).imp_of_mem ?_
  intro e e' he he' hne hid
  exact hne ((hown e he).ends_eq (hown e' he') (hsource e he) (hsource e' he') hid)

end EdgeList

namespace Graph

/-- **Without arrows in names the edges of the graph are those drawn up**, ids and all. -/
theorem edges_ofRegistry_eq (o : BuildOptions) (h : r.Built)
    (hnames : ∀ p ∈ r.toList, ¬ ['-', '>'] <:+: p.name.toList) :
    (ofRegistry o r).edges.toList = (EdgeList.ofRegistry o r).edges.toList :=
  edges_ofParts (fun _ he => EdgeList.within_ofRegistry h he) (EdgeList.nodup_ids o h hnames)

/-- **No edge id is suffixed where no name holds `->`.** Under either scheme and with any default
source, an edge of a registry without such names has its source, `->` and its target for its id. So
if an edge of a project has any other id, a name of the project was warned about for its `->`. -/
theorem edge_ids_need_no_suffix (o : BuildOptions) (r : Registry) (h : r.Built) :
    ((∀ p ∈ r.toList, ¬ ['-', '>'] <:+: p.name.toList) →
      ∀ e ∈ (ofRegistry o r).edges, e.id = e.source ++ "->" ++ e.target) ∧
    ∀ s : ProjectSnapshot, s.toRegistry = .ok r →
      (∃ e ∈ (ofRegistry o r).edges, e.id ≠ e.source ++ "->" ++ e.target) →
        ∃ p ∈ s.objects, (p.name, .edgeSeparator) ∈ s.warnings := by
  have hplain : (∀ p ∈ r.toList, ¬ ['-', '>'] <:+: p.name.toList) →
      ∀ e ∈ (ofRegistry o r).edges, e.id = e.source ++ "->" ++ e.target := by
    intro hnames e he
    rw [← Array.mem_toList_iff, edges_ofRegistry_eq o h hnames, Array.mem_toList_iff] at he
    exact EdgeList.own_ofRegistry o r e he
  refine ⟨hplain, ?_⟩
  rintro s hs ⟨e, he, hid⟩
  by_contra hwarned
  refine hid (hplain ?_ e he)
  intro p hp harrow
  rw [ProjectSnapshot.toList_of_toRegistry hs] at hp
  refine hwarned ⟨p, hp, ?_⟩
  rw [ProjectSnapshot.mem_warnings_iff hs hp]
  exact (edgeSeparator_mem_nameWarnings_iff p.name).2 harrow

/-- Names that begin or end with a part of `->`, and a project in which two edges want one id. -/
theorem edge_ids_need_no_suffix_of_projects :
    let parts := Registry.ofList
      [⟨"x-", .source, []⟩, ⟨">y", .model, ["x-"]⟩, ⟨">", .model, [">y", "x-", ">"]⟩]
    let s : ProjectSnapshot := ⟨{}, [⟨"a", .source, []⟩, ⟨"a->b", .source, []⟩,
      ⟨"b->c", .model, ["a"]⟩, ⟨"c", .model, ["a->b"]⟩]⟩
    let r := Registry.ofList s.objects
    (parts.Built ∧ (∀ p ∈ parts.toList, ¬ ['-', '>'] <:+: p.name.toList) ∧
      ∀ e ∈ (ofRegistry ⟨.typed, some "x-"⟩ parts).edges,
        e.id = e.source ++ "->" ++ e.target) ∧
    r.Built ∧ s.toRegistry = .ok r ∧
    ((ofRegistry {} r).edges.toList.map Edge.id = ["a->b->c", "a->b->c#1"]) ∧
    ∃ p ∈ s.objects, (p.name, .edgeSeparator) ∈ s.warnings := by
  intro parts s r
  have hparts : parts.Built := Registry.Built.ofList _
  have hr : r.Built := Registry.Built.ofList _
  have hnames : ∀ p ∈ parts.toList, ¬ ['-', '>'] <:+: p.name.toList := by decide +kernel
  have hok : s.toRegistry = .ok r :=
    ProjectSnapshot.toRegistry_eq_ok_iff.2 ⟨by decide +kernel, by decide +kernel, rfl⟩
  have hsuffixed : ∃ e ∈ (ofRegistry {} r).edges, e.id ≠ e.source ++ "->" ++ e.target := by
    decide +kernel
  exact ⟨⟨hparts, hnames, (edge_ids_need_no_suffix ⟨.typed, some "x-"⟩ parts hparts).1 hnames⟩,
    hr, hok, by decide +kernel, (edge_ids_need_no_suffix {} r hr).2 s hok hsuffixed⟩

end Graph

end DataLineage
