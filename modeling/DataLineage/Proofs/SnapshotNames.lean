import DataLineage.Project.Snapshot
import DataLineage.Proofs.RegistryEdits

/-!
# The names of a snapshot

A snapshot is looked through object by object, up to the first name that a registry cannot take.
Where there is none, every object is in the registry, in the order of declaration, and every name
was warned about that calls for it.

* `ProjectSnapshot.toRegistry_eq_ok_iff`: which snapshots have a registry.
* `ProjectSnapshot.toList_of_toRegistry`: what it holds.
* `ProjectSnapshot.mem_warnings_iff`: what was warned about on the way.
-/

namespace DataLineage

variable {seen : Std.TreeSet String} {records : List ObjectRecord} {s : ProjectSnapshot}
  {r : Registry} {p : ObjectRecord}

/-- What a record is warned about, under its name. -/
def ObjectRecord.warnings (p : ObjectRecord) : List (String × NameWarning) :=
  (nameWarnings p.name).map (p.name, ·)

theorem checkNames_of_blank (h : isBlankText p.name) :
    checkNames seen (p :: records) = ⟨[], some (.invalid p.name)⟩ := by
  rw [checkNames, if_pos h]

theorem checkNames_of_mem (h : ¬ isBlankText p.name) (hseen : p.name ∈ seen) :
    checkNames seen (p :: records) = ⟨p.warnings, some (.duplicate p.name)⟩ := by
  rw [checkNames, if_neg h]
  exact if_pos (Std.TreeSet.contains_iff_mem.2 hseen)

theorem checkNames_of_notMem (h : ¬ isBlankText p.name) (hseen : p.name ∉ seen) :
    checkNames seen (p :: records) =
      ⟨p.warnings ++ (checkNames (seen.insert p.name) records).warnings,
        (checkNames (seen.insert p.name) records).fault⟩ := by
  rw [checkNames, if_neg h]
  exact if_neg (Std.TreeSet.contains_iff_mem.not.2 hseen)

/-- Names without fault are not blank, were not seen before and do not come twice. -/
theorem checkNames_fault_eq_none_iff (seen : Std.TreeSet String) (records : List ObjectRecord) :
    (checkNames seen records).fault = none ↔
      (∀ p ∈ records, ¬ isBlankText p.name ∧ p.name ∉ seen) ∧
        (records.map ObjectRecord.name).Nodup := by
  induction records generalizing seen with
  | nil => simp [checkNames]
  | cons p records ih =>
    rw [List.forall_mem_cons, List.map_cons, List.nodup_cons]
    by_cases hblank : isBlankText p.name
    · simp [checkNames_of_blank hblank, hblank]
    by_cases hseen : p.name ∈ seen
    · simp [checkNames_of_mem hblank hseen, hseen]
    · -- the other names have one name more to avoid
      have hlater : (∀ q ∈ records, ¬ isBlankText q.name ∧ q.name ∉ seen.insert p.name) ↔
          (∀ q ∈ records, ¬ isBlankText q.name ∧ q.name ∉ seen) ∧
            p.name ∉ records.map ObjectRecord.name := by
        simp only [Std.TreeSet.mem_insert, Std.LawfulEqCmp.compare_eq_iff_eq, List.mem_map]
        grind
      rw [checkNames_of_notMem hblank hseen, ih, hlater]
      tauto

/-- Without a fault every name is warned about as it calls for. -/
theorem checkNames_warnings (h : (checkNames seen records).fault = none) :
    (checkNames seen records).warnings = records.flatMap ObjectRecord.warnings := by
  induction records generalizing seen with
  | nil => rfl
  | cons p records ih =>
    have hfirst := ((checkNames_fault_eq_none_iff _ _).1 h).1 p List.mem_cons_self
    rw [checkNames_of_notMem hfirst.1 hfirst.2] at h ⊢
    rw [List.flatMap_cons, ← ih h]

namespace ProjectSnapshot

/-- **The snapshots that have a registry** are those with names that are not blank and do not come
twice. -/
theorem toRegistry_eq_ok_iff : s.toRegistry = .ok r ↔
    (∀ p ∈ s.objects, ¬ isBlankText p.name) ∧ (s.objects.map ObjectRecord.name).Nodup ∧
      r = Registry.ofList s.objects := by
  have hfault : s.nameReport.fault = none ↔
      (∀ p ∈ s.objects, ¬ isBlankText p.name) ∧ (s.objects.map ObjectRecord.name).Nodup := by
    rw [nameReport, checkNames_fault_eq_none_iff]
    simp
  rw [← and_assoc, ← hfault, toRegistry]
  cases s.nameReport.fault with
  | some fault => simp
  | none => simp [eq_comm]

theorem fault_eq_none_of_ok (h : s.toRegistry = .ok r) : s.nameReport.fault = none := by
  unfold toRegistry at h
  split at h
  · cases h
  · assumption

/-- **The registry holds the objects**, in the order of declaration. -/
theorem toList_of_toRegistry (h : s.toRegistry = .ok r) : r.toList = s.objects := by
  obtain ⟨-, hnames, rfl⟩ := toRegistry_eq_ok_iff.1 h
  have hcollect := Registry.Built.empty.toList_extend s.objects
  rw [← List.nil_append s.objects] at hnames
  exact hcollect.trans (Registry.putAll_of_nodup hnames)

theorem built_of_toRegistry (h : s.toRegistry = .ok r) : r.Built := by
  rw [toRegistry_eq_ofList h]
  exact Registry.Built.ofList s.objects

/-- **An object was warned about** exactly as its name calls for. -/
theorem mem_warnings_iff (h : s.toRegistry = .ok r) (hp : p ∈ s.objects) (w : NameWarning) :
    (p.name, w) ∈ s.warnings ↔ w ∈ nameWarnings p.name := by
  rw [warnings, nameReport, checkNames_warnings (fault_eq_none_of_ok h), List.mem_flatMap]
  constructor
  · rintro ⟨q, -, hw⟩
    obtain ⟨w', hw', heq⟩ := List.mem_map.1 hw
    obtain ⟨hname, rfl⟩ := Prod.mk.inj heq
    rwa [hname] at hw'
  · intro hw
    exact ⟨p, hp, List.mem_map_of_mem hw⟩

end ProjectSnapshot

end DataLineage
