import DataLineage.Proofs.DisplayedSelectors

/-!
# Terms that survive being displayed

Any name and any numbers of generations make a term, but reading keeps only some of them. A term is
read back from its own display just when its name can be read at all and the display is not one of
those that read as another term.

* `Term.ofChars?_display_eq_self_iff`: the terms read back from their display.
* `Term.survives_iff`: the same by what a name may hold.
* `Selector.parse_display_eq_self`: lists of such terms.
* `Selector.display_survives_iff`: the statement.
-/

namespace DataLineage

namespace Term

variable {t : Term}

/-- **The terms read back from their display**: those that can be read and are not misread. -/
theorem ofChars?_display_eq_self_iff :
    ofChars? t.display.toList = some t ↔ t.Readable ∧ ¬ t.Misread := by
  constructor
  · intro hread
    obtain ⟨h, -⟩ := readable_of_ofChars? hread
    obtain ⟨u, hu, hself⟩ := h.ofChars?_display
    rw [hread] at hu
    exact ⟨h, hself.1 (Option.some.inj hu).symm⟩
  · rintro ⟨h, hmis⟩
    obtain ⟨u, hu, hself⟩ := h.ofChars?_display
    rw [hu, hself.2 hmis]

/-- **What lets a term survive being displayed**: a name that is not empty, has no blank at its ends
and no plus in it, and is not all digits where it comes first and a plus and a number follow. -/
structure Survives (t : Term) : Prop where
  ne_empty : t.name ≠ ""
  trimmed : Trimmed t.name.toList
  plus : '+' ∉ t.name.toList
  clear : ¬ (t.name.toList.all Char.isDigit ∧ t.ancestors = .bounded 0 ∧
    ∃ n, 1 ≤ n ∧ t.descendants = .bounded n)

theorem misread_iff : t.Misread ↔ t.name.toList.all Char.isDigit ∧ t.ancestors = .bounded 0 ∧
    ∃ n, 1 ≤ n ∧ t.descendants = .bounded n := by
  refine and_congr_right fun _ => and_congr_right fun _ => ?_
  cases t.descendants with
  | bounded n =>
    simp [Generations.none, Nat.one_le_iff_ne_zero]
  | unbounded => simp

theorem survives_iff (ha : t.ancestors.Kept) (hd : t.descendants.Kept) :
    t.Survives ↔ t.Readable ∧ ¬ t.Misread := by
  have hne : t.name.toList ≠ [] ↔ t.name ≠ "" := not_congr String.toList_eq_nil_iff
  rw [misread_iff]
  constructor
  · intro h
    exact ⟨⟨h.trimmed, hne.2 h.ne_empty, h.plus, ha, hd⟩, h.clear⟩
  · rintro ⟨h, hclear⟩
    exact ⟨hne.1 h.ne_nil, h.trimmed, h.plus, hclear⟩

end Term

namespace Selector

/-- **A list of terms is read back from its display** if each of them is, and no name holds a
comma. -/
theorem parse_display_eq_self {ts : List Term} (hne : ts ≠ [])
    (h : ∀ t ∈ ts, t.Readable ∧ ¬ t.Misread) (hcomma : ∀ t ∈ ts, ',' ∉ t.name.toList) :
    parse (display (.terms ts)) = .terms ts := by
  have hself : (ts.filterMap fun t => Term.ofChars? t.display.toList) = ts := by
    refine (filterMap_eq_self_iff fun t ht => (h t ht).1.ofChars?_display).2 ?_
    exact fun t ht => (h t ht).2
  rw [parse_display_terms hne fun t ht => ⟨(h t ht).1, hcomma t ht⟩, hself]

/-- **Which terms survive being displayed.** A term with numbers of generations below 2 ^ 64, or
without limit, is read back from its display exactly when its name is not empty, has no blank at
either end and no plus in it, and it is not a name of digits without ancestors and with a limited
number of descendants other than zero. A selector of one or more such terms is read back from its
display too if no name holds a comma. -/
theorem display_survives_iff :
    (∀ t : Term, t.ancestors.Kept → t.descendants.Kept →
      (Term.parse? t.display = some t ↔ t.Survives)) ∧
    ∀ ts : List Term, ts ≠ [] → (∀ t ∈ ts, t.ancestors.Kept ∧ t.descendants.Kept) →
      (∀ t ∈ ts, t.Survives ∧ ',' ∉ t.name.toList) →
        parse (display (.terms ts)) = .terms ts := by
  refine ⟨?_, ?_⟩
  · intro t ha hd
    rw [Term.survives_iff ha hd]
    exact Term.ofChars?_display_eq_self_iff
  · intro ts hne hkept hsurvive
    refine parse_display_eq_self hne ?_ fun t ht => (hsurvive t ht).2
    intro t ht
    exact (Term.survives_iff (hkept t ht).1 (hkept t ht).2).1 (hsurvive t ht).1

/-- A name with a space in it and a name of digits that has no number after its plus; with one it
would be taken for a number itself. -/
theorem display_survives_of_years :
    let ts : List Term :=
      [⟨"daily orders", .bounded 2, .unbounded⟩, ⟨"2022", .bounded 0, .unbounded⟩]
    let year : Term := ⟨"2022", .bounded 0, .bounded 3⟩
    (∀ t ∈ ts, t.ancestors.Kept ∧ t.descendants.Kept) ∧
    (∀ t ∈ ts, t.Survives ∧ ',' ∉ t.name.toList) ∧
    parse (display (.terms ts)) = .terms ts ∧
    Term.parse? year.display ≠ some year := by
  intro ts year
  have hkept : ∀ n < 2 ^ 64, (Generations.bounded n).Kept := by
    intro n hn m hm
    exact Generations.bounded.inj hm ▸ hn
  have hall : Generations.unbounded.Kept := fun _ hn => by cases hn
  have hts : ∀ t ∈ ts, t.ancestors.Kept ∧ t.descendants.Kept := by
    simp only [ts, List.forall_mem_cons]
    exact ⟨⟨hkept 2 (by decide), hall⟩, ⟨hkept 0 (by decide), hall⟩, by simp⟩
  have hsurvive : ∀ t ∈ ts, t.Survives ∧ ',' ∉ t.name.toList := by
    simp only [ts, List.forall_mem_cons]
    refine ⟨⟨⟨?_, ?_, ?_, ?_⟩, ?_⟩, ⟨⟨?_, ?_, ?_, ?_⟩, ?_⟩, by simp⟩
    · decide
    · exact trimChars_eq_self_iff.1 (by decide +kernel)
    · decide +kernel
    · rintro ⟨-, hnone, -⟩
      cases hnone
    · decide +kernel
    · decide
    · exact trimChars_eq_self_iff.1 (by decide +kernel)
    · decide +kernel
    · rintro ⟨-, -, _, -, hnumber⟩
      cases hnumber
    · decide +kernel
  refine ⟨hts, hsurvive, display_survives_iff.2 ts (List.cons_ne_nil _ _) hts hsurvive, ?_⟩
  rw [ne_eq, display_survives_iff.1 year (hkept 0 (by decide)) (hkept 3 (by decide))]
  intro h
  exact h.clear ⟨by decide +kernel, rfl, 3, by decide, rfl⟩

end Selector

end DataLineage
