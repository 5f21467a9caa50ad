import DataLineage.Proofs.DisplayedSelectors
import DataLineage.Proofs.RegistryNodes
import DataLineage.Proofs.SelectorMeaning
import DataLineage.Proofs.SnapshotNames

/-!
# Names that selectors can name

An object is warned about when selectors read a character of its name as an operator. Terms are
trimmed when they are read, so a name with a blank at an end is no term's name either, and nothing
warns about that. Every other name is read as itself, and selects the node of its object alone.

* `Selector.exists_names_iff`: which names some term of some text has.
* `Selector.mem_select_self_iff`: what the selector selects that is a name and nothing else.
* `ProjectSnapshot.unselectable_without_warning`: a name that nothing warns about and no text names.
* `ProjectSnapshot.selectable_iff_not_warned`: the statement for names without blanks at the ends.
-/

namespace DataLineage

open Selector (parse)

variable {name : String} {o : BuildOptions} {s : ProjectSnapshot} {r : Registry} {p : ObjectRecord}
  {v : String}

theorem selectorOperator_mem_nameWarnings_iff (name : String) :
    .selectorOperator ∈ nameWarnings name ↔ '+' ∈ name.toList ∨ ',' ∈ name.toList := by
  have hnot : NameWarning.selectorOperator ∉
      if hasArrow name.toList then [NameWarning.edgeSeparator] else [] := by
    split_ifs <;> simp
  rw [nameWarnings, List.mem_append, or_iff_left hnot]
  by_cases hop : '+' ∈ name.toList ∨ ',' ∈ name.toList <;> simp [hop]

theorem trim_eq_self_iff (name : String) : trim name = name ↔ Trimmed name.toList := by
  rw [← trimChars_eq_self_iff, trim, ← String.toList_inj, String.toList_ofList]

namespace Selector

/-- A text of which some term has the name. -/
def Names (text name : String) : Prop := ∃ ts, parse text = .terms ts ∧ ∃ t ∈ ts, t.name = name

/-- A name without operators and without blanks at its ends is read as itself. -/
theorem parse_self (hblank : ¬ isBlankText name) (htrim : trim name = name)
    (hplus : '+' ∉ name.toList) (hcomma : ',' ∉ name.toList) :
    parse name = .terms [⟨name, .none, .none⟩] := by
  have hself : trimChars name.toList = name.toList :=
    trimChars_eq_self_iff.2 ((trim_eq_self_iff name).1 htrim)
  have hne : trimChars name.toList ≠ [] := by
    rw [ne_eq, ← List.isEmpty_iff, isEmpty_trimChars]
    exact hblank
  have hread : Term.ofChars? name.toList = some ⟨name, .none, .none⟩ := by
    rw [Term.ofChars?_of_notMem hne (by rwa [hself]), hself, String.ofList_toList]
  rw [parse, if_neg hblank, parseTerms, List.splitOn_eq_singleton hcomma,
    List.filterMap_cons_some hread, List.filterMap_nil]

/-- **The names that terms have**: those that are not blank and have neither operators nor blanks at
their ends. -/
theorem exists_names_iff (hblank : ¬ isBlankText name) : (∃ text, Names text name) ↔
    ¬ ('+' ∈ name.toList ∨ ',' ∈ name.toList) ∧ trim name = name := by
  constructor
  · rintro ⟨text, ts, hparse, t, ht, rfl⟩
    have hlisted := listed_of_parse hparse t ht
    exact ⟨not_or.2 ⟨hlisted.readable.plus, hlisted.comma⟩,
      (trim_eq_self_iff t.name).2 hlisted.readable.trimmed⟩
  · rintro ⟨hplain, htrim⟩
    obtain ⟨hplus, hcomma⟩ := not_or.1 hplain
    -- the name is such a text itself
    exact ⟨name, _, parse_self hblank htrim hplus hcomma, _, List.mem_singleton_self _, rfl⟩

/-- A term without generations selects the node of its name alone. -/
theorem mem_select_name_iff {g : Graph} (hg : g.Consistent) (h : g.Mirrored) (name : String) :
    v ∈ (⟨name, .none, .none⟩ : Term).select g ↔ g.idForName? name = some v := by
  rw [Term.mem_select_iff_path hg h]
  constructor
  · rintro ⟨start, hstart, direction, n, hpath, hn⟩
    -- either way no generation is asked for, so the path stays where it starts
    cases direction <;> obtain rfl : n = 0 := Nat.le_zero.1 hn <;> cases hpath <;> exact hstart
  · intro hv
    exact ⟨v, hv, .descendants, 0, .nil v, Generations.allows_zero _⟩

/-- **A name without operators and without blanks at its ends selects the node of its record.** -/
theorem mem_select_self_iff (hr : r.Built) (hp : p ∈ r.toList) (hblank : ¬ isBlankText p.name)
    (htrim : trim p.name = p.name) (hplain : ¬ ('+' ∈ p.name.toList ∨ ',' ∈ p.name.toList)) :
    v ∈ (parse p.name).select (.ofRegistry o r) ↔ v = o.idScheme.nodeId p := by
  obtain ⟨hplus, hcomma⟩ := not_or.1 hplain
  have hget : r.get? p.name = some p := hr.get?_eq_some_iff.2 ⟨hp, rfl⟩
  have hname : (Graph.ofRegistry o r).idForName? p.name = some (o.idScheme.nodeId p) := by
    rw [Graph.idForName?_ofRegistry hr, hget, Option.map_some]
  have hone : v ∈ (⟨p.name, .none, .none⟩ : Term).select (.ofRegistry o r) ↔
      (Graph.ofRegistry o r).idForName? p.name = some v :=
    mem_select_name_iff (Graph.consistent_ofParts _ _) (Graph.mirrored_ofParts _ _) p.name
  rw [parse_self hblank htrim hplus hcomma, mem_select_terms]
  simp only [List.mem_singleton, exists_eq_left]
  rw [hone, hname, Option.some.injEq, eq_comm]

end Selector

namespace ProjectSnapshot

/-- Of a name with a blank in front nothing warns, but no term of any text has it. As a selector it
selects nothing, under either scheme. -/
theorem unselectable_without_warning :
    let s : ProjectSnapshot := ⟨{}, [⟨" a", .model, []⟩]⟩
    let r := Registry.ofList s.objects
    s.toRegistry = .ok r ∧ (" a", .selectorOperator) ∉ s.warnings ∧
    (¬ ∃ text, Selector.Names text " a") ∧
    ∀ scheme, ((parse " a").select (.ofRegistry ⟨scheme, none⟩ r)).isEmpty := by
  intro s r
  have hok : s.toRegistry = .ok r :=
    toRegistry_eq_ok_iff.2 ⟨by decide +kernel, by decide +kernel, rfl⟩
  have hblank : ¬ isBlankText " a" := by decide
  refine ⟨hok, by decide +kernel, ?_, ?_⟩
  · rw [Selector.exists_names_iff hblank]
    decide +kernel
  · intro scheme
    cases scheme <;> decide +kernel

/-- **An object can be named in a selector exactly when it was not warned about**, if its name has
no blanks at its ends; with blanks there it never can. Named by nothing but its name, it is what is
selected, and nothing else is. -/
theorem selectable_iff_not_warned (h : s.toRegistry = .ok r) (hp : p ∈ s.objects) :
    ((p.name, .selectorOperator) ∈ s.warnings ↔ '+' ∈ p.name.toList ∨ ',' ∈ p.name.toList) ∧
    ((∃ text, Selector.Names text p.name) ↔
      (p.name, .selectorOperator) ∉ s.warnings ∧ trim p.name = p.name) ∧
    ((p.name, .selectorOperator) ∉ s.warnings → trim p.name = p.name → ∀ o : BuildOptions,
      let g := Graph.ofRegistry o r
      o.node p ∈ g.nodes ∧ ∀ v, v ∈ (parse p.name).select g ↔ v = o.idScheme.nodeId p) := by
  have hwarned : (p.name, .selectorOperator) ∈ s.warnings ↔
      '+' ∈ p.name.toList ∨ ',' ∈ p.name.toList :=
    (mem_warnings_iff h hp _).trans (selectorOperator_mem_nameWarnings_iff p.name)
  have hblank : ¬ isBlankText p.name := (toRegistry_eq_ok_iff.1 h).1 p hp
  have hbuilt : r.Built := built_of_toRegistry h
  have hmem : p ∈ r.toList := by rwa [toList_of_toRegistry h]
  refine ⟨hwarned, ?_, ?_⟩
  · rw [hwarned]
    exact Selector.exists_names_iff hblank
  · rw [hwarned]
    intro hplain htrim o g
    refine ⟨?_, fun v => Selector.mem_select_self_iff hbuilt hmem hblank htrim hplain⟩
    rw [← Array.mem_toList_iff, Graph.nodes_ofRegistry hbuilt]
    exact List.mem_map_of_mem hmem

/-- A name of digits, one with a space inside and one with an operator. -/
theorem selectable_iff_not_warned_of_objects :
    let s : ProjectSnapshot := ⟨⟨some "12"⟩,
      [⟨"12", .source, []⟩, ⟨"daily orders", .model, []⟩, ⟨"a,b", .chart, ["daily orders"]⟩]⟩
    let r := Registry.ofList s.objects
    let g := Graph.ofRegistry ⟨.typed, some "12"⟩ r
    s.toRegistry = .ok r ∧ (¬ ∃ text, Selector.Names text "a,b") ∧
    (∀ v, v ∈ (parse "12").select g ↔ v = "source:12") ∧
    (∀ v, v ∈ (parse "daily orders").select g ↔ v = "model:daily orders") := by
  intro s r g
  have hok : s.toRegistry = .ok r :=
    toRegistry_eq_ok_iff.2 ⟨by decide +kernel, by decide +kernel, rfl⟩
  refine ⟨hok, ?_, ?_, ?_⟩
  · have hchart :=
      selectable_iff_not_warned (p := ⟨"a,b", .chart, ["daily orders"]⟩) hok (by decide)
    rw [hchart.2.1]
    decide +kernel
  · have hsource := selectable_iff_not_warned (p := ⟨"12", .source, []⟩) hok (by decide)
    exact (hsource.2.2 (by decide +kernel) (by decide +kernel) ⟨.typed, some "12"⟩).2
  · have hmodel := selectable_iff_not_warned (p := ⟨"daily orders", .model, []⟩) hok (by decide)
    exact (hmodel.2.2 (by decide +kernel) (by decide +kernel) ⟨.typed, some "12"⟩).2

end ProjectSnapshot

end DataLineage
