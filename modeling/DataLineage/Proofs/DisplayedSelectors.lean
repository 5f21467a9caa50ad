import DataLineage.Proofs.DisplayedTerms

/-!
# Selectors as they are displayed

The terms of a selector are displayed with a comma and a space between them, and parting the text at
its commas gives them back one by one. So reading a displayed selector fails to give the selector in
two ways only: one of its terms is misread, or it has no terms and is displayed as a blank text,
which means the whole graph.

* `Selector.listed_of_parse`: what the terms of a selector keep to.
* `Selector.parse_display_terms`: what displayed terms read as.
* `Selector.parse_display_eq_iff`: when a displayed selector reads as itself.
-/

namespace DataLineage

variable {t : Term} {ts : List Term}

/-- A space before a term makes no difference. -/
theorem Term.ofChars?_cons_space (cs : List Char) : ofChars? (' ' :: cs) = ofChars? cs := by
  have htrim : trimChars (' ' :: cs) = trimChars cs := by
    rw [trimChars, trimStart, List.dropWhile_cons_of_pos (by decide)]
    rfl
  rw [ofChars?_eq_reading?, ofChars?_eq_reading?, htrim]

/-- A displayed term has a comma only in its name. -/
theorem Term.comma_notMem_display (h : ',' ∉ t.name.toList) : ',' ∉ t.display.toList := by
  have ha : ',' ∉ (ancestorsText t.ancestors).toList := by
    by_cases hg : t.ancestors = .none
    · rw [hg]
      exact List.not_mem_nil
    · rw [toList_ancestorsText hg, List.mem_append, not_or]
      exact ⟨t.ancestors.notMem_digits (by decide), by decide⟩
  have hd : ',' ∉ (descendantsText t.descendants).toList := by
    by_cases hg : t.descendants = .none
    · rw [hg]
      exact List.not_mem_nil
    · rw [toList_descendantsText hg, List.mem_cons, not_or]
      exact ⟨by decide, t.descendants.notMem_digits (by decide)⟩
  rw [toList_display, List.mem_append, List.mem_append, not_or, not_or]
  exact ⟨ha, h, hd⟩

/-- A space after each comma goes to the piece after it. -/
theorem intercalate_comma_space (piece : List Char) (pieces : List (List Char)) :
    [',', ' '].intercalate (piece :: pieces) =
      [','].intercalate (piece :: pieces.map (' ' :: ·)) := by
  induction pieces generalizing piece with
  | nil => simp
  | cons next pieces ih =>
    have hspace : [','].intercalate ((' ' :: next) :: pieces.map (' ' :: ·)) =
        ' ' :: [','].intercalate (next :: pieces.map (' ' :: ·)) := by
      cases pieces <;> simp [List.intercalate_cons_cons]
    rw [List.intercalate_cons_cons, ih, List.map_cons, List.intercalate_cons_cons, hspace]
    simp

namespace Selector

/-- A term that can be a term of a selector: its name comes from between two commas. -/
structure Listed (t : Term) : Prop where
  readable : t.Readable
  comma : ',' ∉ t.name.toList

/-- The terms of a selector were read between commas. -/
theorem listed_of_parse {text : String} (h : parse text = .terms ts) : ∀ t ∈ ts, Listed t := by
  intro t ht
  rw [parse] at h
  split_ifs at h
  obtain rfl := Selector.terms.inj h
  obtain ⟨piece, hpiece, hread⟩ := List.mem_filterMap.1 ht
  obtain ⟨hreadable, hsub⟩ := Term.readable_of_ofChars? hread
  exact ⟨hreadable, fun hmem => (mem_splitOn hpiece).1 (hsub hmem)⟩

/-- The terms come apart at the commas, all but the first with a space before them. -/
theorem splitOn_display_terms (h : ∀ u ∈ t :: ts, ',' ∉ u.name.toList) :
    (display (.terms (t :: ts))).toList.splitOn ',' =
      t.display.toList :: ts.map fun u => ' ' :: u.display.toList := by
  have htext : (display (.terms (t :: ts))).toList =
      [','].intercalate (t.display.toList :: ts.map fun u => ' ' :: u.display.toList) := by
    rw [display, String.toList_intercalate, List.map_map, List.map_cons]
    exact (intercalate_comma_space _ _).trans (by rw [List.map_map]; rfl)
  rw [htext]
  refine List.splitOn_intercalate ',' ?_ (List.cons_ne_nil _ _)
  intro piece hpiece
  rcases List.mem_cons.1 hpiece with rfl | hpiece
  · exact Term.comma_notMem_display (h t List.mem_cons_self)
  · obtain ⟨u, hu, rfl⟩ := List.mem_map.1 hpiece
    rw [List.mem_cons, not_or]
    exact ⟨by decide, Term.comma_notMem_display (h u (List.mem_cons_of_mem t hu))⟩

/-- **Displayed terms are read one by one.** -/
theorem parse_display_terms (hne : ts ≠ []) (h : ∀ t ∈ ts, Listed t) :
    parse (display (.terms ts)) =
      .terms (ts.filterMap fun t => Term.ofChars? t.display.toList) := by
  obtain ⟨t, ts, rfl⟩ := List.exists_cons_of_ne_nil hne
  have hread : parseTerms (display (.terms (t :: ts))) =
      (t :: ts).filterMap fun u => Term.ofChars? u.display.toList := by
    rw [parseTerms, splitOn_display_terms fun u hu => (h u hu).comma, List.filterMap_cons,
      List.filterMap_map, List.filterMap_cons]
    simp only [Function.comp_def, Term.ofChars?_cons_space]
  -- the first term is read from the text, so the text is not blank
  have hblank : ¬ isBlankText (display (.terms (t :: ts))) := by
    intro hall
    obtain ⟨u, hu, -⟩ := (h t List.mem_cons_self).readable.ofChars?_display
    have hmem : t.display.toList ∈ (display (.terms (t :: ts))).toList.splitOn ',' := by
      rw [splitOn_display_terms fun u hu => (h u hu).comma]
      exact List.mem_cons_self
    have hpiece : isBlankText t.display :=
      List.all_eq_true.2 fun c hc => List.all_eq_true.1 hall c ((mem_splitOn hmem).2 hc)
    have hnone : Term.ofChars? t.display.toList = none := Term.parse?_eq_none_of_blank hpiece
    rw [hu] at hnone
    cases hnone
  rw [parse, if_neg hblank, hread]

theorem filterMap_eq_self_iff {α : Type*} {f : α → Option α} {p : α → Prop} {xs : List α}
    (h : ∀ x ∈ xs, ∃ y, f x = some y ∧ (y = x ↔ p x)) : xs.filterMap f = xs ↔ ∀ x ∈ xs, p x := by
  induction xs with
  | nil => simp
  | cons x xs ih =>
    obtain ⟨y, hy, hyx⟩ := h x List.mem_cons_self
    rw [List.filterMap_cons_some hy, List.cons.injEq, hyx,
      ih fun z hz => h z (List.mem_cons_of_mem x hz), List.forall_mem_cons]

/-- **When a displayed selector reads as itself.** The selector of any text, displayed and read
again, is the same selector exactly when it is the whole graph, or has terms and none of them is
misread. -/
theorem parse_display_eq_iff (text : String) :
    parse (parse text).display = parse text ↔
      match parse text with
      | .all => True
      | .terms ts => ts ≠ [] ∧ ∀ t ∈ ts, ¬ t.Misread := by
  cases hparse : parse text with
  | all =>
    have hall : parse (display .all) = .all := (parse_eq_all_iff "").2 rfl
    exact iff_of_true hall trivial
  | terms ts =>
    have hlisted := listed_of_parse hparse
    by_cases hne : ts = []
    · -- without terms the text is blank, which means the whole graph
      subst hne
      have hall : parse (display (.terms [])) = .all := (parse_eq_all_iff "").2 rfl
      rw [hall]
      exact iff_of_false (fun h => by cases h) fun h => h.1 rfl
    · have hself : (ts.filterMap fun t => Term.ofChars? t.display.toList) = ts ↔
          ∀ t ∈ ts, ¬ t.Misread :=
        filterMap_eq_self_iff fun t ht => (hlisted t ht).readable.ofChars?_display
      rw [parse_display_terms hne hlisted, Selector.terms.injEq, hself]
      exact (and_iff_right hne).symm

/-- A name of digits between no ancestors and two descendants reads as three ancestors of another
name, and a selector without terms reads as the whole graph. -/
theorem parse_display_ne :
    parse (parse "0+3+2").display ≠ parse "0+3+2" ∧ parse (parse ",").display ≠ parse "," := by
  decide +kernel

end Selector

end DataLineage
