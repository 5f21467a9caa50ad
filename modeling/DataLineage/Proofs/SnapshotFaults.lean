import DataLineage.Proofs.SnapshotNames
import DataLineage.Proofs.Trimming
import Mathlib.Order.Bounds.Basic

/-!
# Which name a snapshot fails at

The objects of a snapshot are looked at one by one. The first whose name is blank or that of an
earlier object decides, and nothing behind it is looked at. A repeated name has been warned about by
then, a blank one has not.

* `exists_split_of_fault`: what comes before the object at fault, and what was said by then.
* `isLeast_faultyAt`: the object at fault is the first that could be.
* `ProjectSnapshot.toRegistry_checks_in_order`: the statement.
-/

namespace DataLineage

variable {seen : Std.TreeSet String} {before after records : List ObjectRecord}
  {p : ObjectRecord} {s : ProjectSnapshot} {r : Registry} {fault : NameFault}

/-- **A fault is that of one object**, with no fault before it. Where it is a blank name, the objects
before it were warned about, and where it is a repeated one, that object too. -/
theorem exists_split_of_fault (h : (checkNames seen records).fault ≠ none) :
    ∃ before p after, records = before ++ p :: after ∧
      (checkNames seen before).fault = none ∧
      ((isBlankText p.name ∧ checkNames seen records =
          ⟨before.flatMap ObjectRecord.warnings, some (.invalid p.name)⟩) ∨
        (¬ isBlankText p.name ∧ (p.name ∈ seen ∨ p.name ∈ before.map ObjectRecord.name) ∧
          checkNames seen records =
            ⟨(before ++ [p]).flatMap ObjectRecord.warnings, some (.duplicate p.name)⟩)) := by
  induction records generalizing seen with
  | nil => exact absurd rfl h
  | cons p records ih =>
    by_cases hblank : isBlankText p.name
    · exact ⟨[], p, records, rfl, rfl, .inl ⟨hblank, checkNames_of_blank hblank⟩⟩
    by_cases hseen : p.name ∈ seen
    · refine ⟨[], p, records, rfl, rfl, .inr ⟨hblank, .inl hseen, ?_⟩⟩
      rw [checkNames_of_mem hblank hseen, List.nil_append, List.flatMap_singleton]
    · -- the object is accepted, so the fault is one of the others
      rw [checkNames_of_notMem hblank hseen] at h ⊢
      obtain ⟨before, q, after, rfl, hnone, hfault⟩ := ih h
      refine ⟨p :: before, q, after, rfl, ?_, ?_⟩
      · rw [checkNames_of_notMem hblank hseen, hnone]
      · rcases hfault with ⟨hq, heq⟩ | ⟨hq, hmem, heq⟩
        · rw [heq]
          exact .inl ⟨hq, rfl⟩
        · rw [heq]
          refine .inr ⟨hq, ?_, rfl⟩
          rw [Std.TreeSet.mem_insert, Std.LawfulEqCmp.compare_eq_iff_eq] at hmem
          rw [List.map_cons, List.mem_cons]
          tauto

/-- Whether the object at a position has a blank name or that of an earlier object. -/
def FaultyAt (records : List ObjectRecord) (i : ℕ) : Prop :=
  ∃ p, records[i]? = some p ∧
    (trim p.name = "" ∨ p.name ∈ (records.take i).map ObjectRecord.name)

/-- Without a fault in front, an object at fault is the first that is. -/
theorem isLeast_faultyAt (hbefore : (checkNames ∅ before).fault = none)
    (hp : trim p.name = "" ∨ p.name ∈ before.map ObjectRecord.name) :
    IsLeast {i | FaultyAt (before ++ p :: after) i} before.length := by
  obtain ⟨hblank, hnodup⟩ := (checkNames_fault_eq_none_iff _ _).1 hbefore
  constructor
  · refine ⟨p, by simp, ?_⟩
    rwa [List.take_left]
  · rintro i ⟨q, hq, hfault⟩
    by_contra hlt
    rw [not_le] at hlt
    rw [List.getElem?_append_left hlt] at hq
    rw [List.take_append_of_le_length hlt.le] at hfault
    rcases hfault with hfault | hfault
    · exact (hblank q (List.mem_of_getElem? hq)).1 (trim_eq_empty_iff.1 hfault)
    · -- the earlier objects of that name would stand before it among those without a fault
      have hrest : q ∈ before.drop i := List.mem_iff_getElem?.2 ⟨0, by simpa using hq⟩
      rw [← List.take_append_drop i before, List.map_append, List.nodup_append] at hnodup
      exact hnodup.2.2 _ hfault _ (List.mem_map_of_mem hrest) rfl

namespace ProjectSnapshot

theorem fault_of_error (h : s.toRegistry = .error fault) : s.nameReport.fault = some fault := by
  unfold toRegistry at h
  split at h
  next f hf =>
    rw [hf, Except.error.inj h]
  next => cases h

/-- **What a snapshot is refused for** at an object: a blank name, with warnings for the objects
before it, or a name that one of these has, with warnings for the object itself too. -/
inductive RefusedAt (s : ProjectSnapshot) (i : ℕ) (p : ObjectRecord) : NameFault → Prop where
  | blank (hp : trim p.name = "")
    (hw : s.warnings = (s.objects.take i).flatMap ObjectRecord.warnings) :
    RefusedAt s i p (.invalid p.name)
  | repeated (hp : trim p.name ≠ "") (hmem : p.name ∈ (s.objects.take i).map ObjectRecord.name)
    (hw : s.warnings = (s.objects.take (i + 1)).flatMap ObjectRecord.warnings) :
    RefusedAt s i p (.duplicate p.name)

/-- **The first object at fault decides**, and nothing behind it is looked at. -/
theorem exists_refusedAt (h : s.toRegistry = .error fault) :
    ∃ i p, IsLeast {i | FaultyAt s.objects i} i ∧ s.objects[i]? = some p ∧
      RefusedAt s i p fault := by
  have hfault : (checkNames ∅ s.objects).fault = some fault := fault_of_error h
  have hne : (checkNames ∅ s.objects).fault ≠ none := by simp [hfault]
  obtain ⟨before, p, after, hsplit, hbefore, hp⟩ := exists_split_of_fault hne
  have htake : s.objects.take before.length = before := by rw [hsplit, List.take_left]
  have htake' : s.objects.take (before.length + 1) = before ++ [p] := by
    rw [hsplit, List.take_length_add_append]
    rfl
  refine ⟨before.length, p, ?least, by simp [hsplit], ?refused⟩
  case least =>
    rw [hsplit]
    refine isLeast_faultyAt hbefore ?_
    rcases hp with ⟨hblank, -⟩ | ⟨-, hmem, -⟩
    · exact .inl (trim_eq_empty_iff.2 hblank)
    · exact .inr (hmem.resolve_left Std.TreeSet.not_mem_emptyc)
  case refused =>
    rcases hp with ⟨hblank, heq⟩ | ⟨hblank, hmem, heq⟩
    · rw [heq] at hfault
      cases hfault
      refine .blank (trim_eq_empty_iff.2 hblank) ?_
      rw [warnings, nameReport, heq, htake]
    · rw [heq] at hfault
      cases hfault
      refine .repeated (trim_eq_empty_iff.not.2 hblank) ?_ ?_
      · rw [htake]
        exact hmem.resolve_left Std.TreeSet.not_mem_emptyc
      · rw [warnings, nameReport, heq, htake']

/-- **A snapshot has a registry unless a name is blank or repeated.** The registry has the objects in
the order of declaration and finds each by its name, and every name was warned about as it calls for.
Without a registry, the fault is that of the first object whose name is blank or that of an earlier
one. If it is blank, the objects before it were warned about, and if it is repeated, it was too. -/
theorem toRegistry_checks_in_order (s : ProjectSnapshot) :
    ((∃ r, s.toRegistry = .ok r) ↔
      (∀ p ∈ s.objects, trim p.name ≠ "") ∧ (s.objects.map ObjectRecord.name).Nodup) ∧
    (∀ r, s.toRegistry = .ok r →
      r.toList = s.objects ∧ (∀ p ∈ s.objects, r.get? p.name = some p) ∧
        s.warnings = s.objects.flatMap ObjectRecord.warnings) ∧
    (∀ fault, s.toRegistry = .error fault →
      ∃ i p, IsLeast {i | FaultyAt s.objects i} i ∧ s.objects[i]? = some p ∧
        RefusedAt s i p fault) := by
  refine ⟨?_, ?_, fun _ => exists_refusedAt⟩
  · simp only [toRegistry_eq_ok_iff, ne_eq, trim_eq_empty_iff]
    exact ⟨fun ⟨_, hblank, hnames, _⟩ => ⟨hblank, hnames⟩,
      fun ⟨hblank, hnames⟩ => ⟨_, hblank, hnames, rfl⟩⟩
  · intro r hr
    refine ⟨toList_of_toRegistry hr, ?_, checkNames_warnings (fault_eq_none_of_ok hr)⟩
    intro p hp
    rw [(built_of_toRegistry hr).get?_eq_some_iff, toList_of_toRegistry hr]
    exact ⟨hp, rfl⟩

/-- Of a blank name and an even later repetition the blank name counts, and the name behind it that
calls for a warning gets none. -/
example :
    let s : ProjectSnapshot := ⟨{}, [⟨"a,b", .model, []⟩, ⟨" \t", .model, []⟩, ⟨"a,b", .chart, []⟩]⟩
    s.toRegistry.toOption.isNone ∧ s.nameReport.fault = some (.invalid " \t") ∧
      s.warnings = [("a,b", .selectorOperator)] := by decide +kernel

end ProjectSnapshot

end DataLineage
