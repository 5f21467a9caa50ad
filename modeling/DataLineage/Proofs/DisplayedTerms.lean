import DataLineage.Proofs.TermReadings

/-!
# Terms as they are displayed

A term is displayed as its name between the generations of its ancestors and descendants, where a
side without generations is left out. Reading that gives the term again, with one exception: a name
of digits without ancestors, with a plus and more digits after it, reads as a number of ancestors of
another name.

* `Term.readable_of_ofChars?`: what reading keeps to.
* `Term.Readable.ofChars?_name`, `Term.Readable.ofChars?_ancestors`,
  `Term.Readable.ofChars?_descendants` and `Term.Readable.ofChars?_both`: what a displayed term
  reads as, by the sides it has.
* `Term.Readable.ofChars?_display`: when that is the term itself.
-/

namespace DataLineage

/-! ## Texts -/

theorem trimmed_of_forall {cs : List Char} (h : ∀ c ∈ cs, isBlank c = false) : Trimmed cs :=
  ⟨fun c hc => h c (List.mem_of_mem_head? hc), fun c hc => h c (List.mem_of_getLast? hc)⟩

/-- Trimmed texts put together around a character that is no blank are trimmed. -/
theorem Trimmed.append_cons {x y : List Char} {c : Char} (hx : Trimmed x) (hy : Trimmed y)
    (hc : isBlank c = false) : Trimmed (x ++ c :: y) := by
  constructor
  · intro d hd
    cases x with
    | nil =>
      cases hd
      exact hc
    | cons e x => exact hx.head d hd
  · intro d hd
    rcases List.eq_nil_or_concat y with rfl | ⟨z, e, rfl⟩
    · simp only [List.getLast?_append, List.getLast?_singleton, Option.some_or] at hd
      cases hd
      exact hc
    · refine hy.last d ?_
      simpa [List.getLast?_append, List.getLast?_cons] using hd

theorem isBlank_of_isDigit {c : Char} (h : c.isDigit) : isBlank c = false := by
  simp only [Char.isDigit, Bool.and_eq_true, decide_eq_true_eq, ge_iff_le,
    UInt32.le_iff_toNat_le] at h
  change 48 ≤ c.val.toNat ∧ c.val.toNat ≤ 57 at h
  simp only [isBlank, Bool.or_eq_false_iff, Bool.and_eq_false_iff, decide_eq_false_iff_not,
    beq_eq_false_iff_ne, ne_eq, ← UInt32.toNat_inj, UInt32.le_iff_toNat_le, UInt32.reduceToNat]
  omega

/-- The pieces of a text hold none of the characters it was parted at. -/
theorem mem_splitOn {a : Char} {w : List Char} :
    ∀ {cs : List Char}, w ∈ cs.splitOn a → a ∉ w ∧ w ⊆ cs
  | cs, hw => by
    by_cases h : a ∈ cs
    · obtain ⟨x, y, hcs, hx⟩ := List.eq_append_cons_of_mem h
      rw [hcs, List.splitOn_append_cons_self_of_not_mem hx] at hw
      rcases List.mem_cons.1 hw with rfl | hw
      · exact ⟨hx, hcs ▸ List.subset_append_left _ _⟩
      · have hlt : y.length < cs.length := by
          rw [hcs, List.length_append, List.length_cons]
          omega
        obtain ⟨hnot, hsub⟩ := mem_splitOn hw
        refine ⟨hnot, fun c hc => ?_⟩
        rw [hcs]
        exact List.mem_append_right x (List.mem_cons_of_mem a (hsub hc))
    · rw [List.splitOn_eq_singleton h, List.mem_singleton] at hw
      subst hw
      exact ⟨h, List.Subset.refl _⟩
termination_by cs => cs.length

/-! ## Generations -/

namespace Generations

/-- The digits that a number of generations is written with; no limit is written without any. -/
def digits : Generations → List Char
  | bounded n => Nat.toDigits 10 n
  | unbounded => []

/-- Numbers that reading keeps. -/
def Kept (g : Generations) : Prop := ∀ n, g = bounded n → n < 2 ^ 64

theorem all_isDigit_digits (g : Generations) : g.digits.all Char.isDigit := by
  rw [List.all_eq_true]
  cases g with
  | bounded n => exact fun c hc => Nat.isDigit_of_mem_toDigits (by decide) (by decide) hc
  | unbounded => exact fun c hc => absurd hc List.not_mem_nil

theorem notMem_digits (g : Generations) {c : Char} (hc : c.isDigit = false) : c ∉ g.digits := by
  intro hmem
  have := List.all_eq_true.1 g.all_isDigit_digits c hmem
  rw [hc] at this
  cases this

theorem trimmed_digits (g : Generations) : Trimmed g.digits :=
  trimmed_of_forall fun c hc => isBlank_of_isDigit (List.all_eq_true.1 g.all_isDigit_digits c hc)

/-- Digits are blank only when there are none. -/
theorem all_isBlank_digits_iff (g : Generations) : g.digits.all isBlank ↔ g = unbounded := by
  cases g with
  | bounded n =>
    have hne : Nat.toDigits 10 n ≠ [] := Nat.toDigits_ne_nil
    obtain ⟨c, cs, hcs⟩ := List.exists_cons_of_ne_nil hne
    have hc : isBlank c = false := by
      refine isBlank_of_isDigit (List.all_eq_true.1 (all_isDigit_digits (bounded n)) c ?_)
      rw [digits, hcs]
      exact List.mem_cons_self
    simp [digits, hcs, hc]
  | unbounded => simp [digits]

/-- **A number that is kept is read as it is written.** -/
theorem written_digits {g : Generations} (h : g.Kept) : written g.digits = g := by
  cases g with
  | bounded n =>
    have hne : Nat.toDigits 10 n ≠ [] := Nat.toDigits_ne_nil
    have hvalue : decimalValue (Nat.toDigits 10 n) = n := by
      rw [← natOfDigits_eq]
      exact Nat.ofDigitChars_ten_toDigits
    rw [digits, written, if_neg hne, hvalue, if_pos (h n rfl)]
  | unbounded => rfl

theorem kept_upTo (n : ℕ∞) : (upTo n).Kept := by
  intro k hk
  rw [upTo] at hk
  split_ifs at hk with hn
  obtain rfl := bounded.inj hk
  obtain ⟨m, rfl⟩ := ENat.ne_top_iff_exists.1 (ne_top_of_lt hn)
  rw [ENat.toNat_natCast]
  exact_mod_cast hn

end Generations

namespace Term

variable {t : Term} {text : List Char}

theorem ext_iff {t u : Term} : t = u ↔
    t.name = u.name ∧ t.ancestors = u.ancestors ∧ t.descendants = u.descendants := by
  cases t
  cases u
  simp

/-- **What every term that was read keeps to.** -/
structure Readable (t : Term) : Prop where
  trimmed : Trimmed t.name.toList
  ne_nil : t.name.toList ≠ []
  plus : '+' ∉ t.name.toList
  ancestors : t.ancestors.Kept
  descendants : t.descendants.Kept

/-- A name that was read is one of the parts between the pluses, without blanks at its ends. -/
theorem exists_part {r : Reading} (h : reading? text = some r) (ht : Trimmed text) :
    ∃ part ∈ text.splitOn '+', ¬ part.all isBlank ∧ r.name.toList = trimChars part := by
  unfold reading? at h
  split at h
  next x hx =>
    have hjoin : ['+'].intercalate (text.splitOn '+') = text := List.intercalate_splitOn '+'
    obtain rfl : x = text := by simpa [hx] using hjoin
    have hself : trimChars x = x := trimChars_eq_self_iff.2 ht
    split_ifs at h with hne
    cases h
    rw [String.toList_ofList]
    refine ⟨x, by simp [hx], ?_, hself.symm⟩
    rw [← isEmpty_trimChars, hself, List.isEmpty_iff]
    exact hne
  next x y hxy =>
    split_ifs at h with hy hx
    · cases h
      exact ⟨y, by simp [hxy], hy.2, String.toList_ofList⟩
    · cases h
      exact ⟨x, by simp [hxy], hx.2, String.toList_ofList⟩
  next x y z hxyz =>
    split_ifs at h with hy
    cases h
    exact ⟨y, by simp [hxyz], hy.2.2, String.toList_ofList⟩
  next => cases h

theorem subset_trimChars (cs : List Char) : trimChars cs ⊆ cs := by
  intro c hc
  rw [trimChars, trimEnd, List.mem_reverse] at hc
  have hstart := (List.dropWhile_sublist isBlank).subset hc
  rw [List.mem_reverse] at hstart
  exact (List.dropWhile_sublist isBlank).subset hstart

/-- What is read is readable, and its name comes from the text. -/
theorem readable_of_ofChars? (h : ofChars? text = some t) :
    t.Readable ∧ t.name.toList ⊆ text := by
  rw [ofChars?_eq_reading?, Option.map_eq_some_iff] at h
  obtain ⟨r, hr, rfl⟩ := h
  obtain ⟨part, hpart, hblank, hname⟩ := exists_part hr (trimmed_trimChars text)
  obtain ⟨hplus, hsub⟩ := mem_splitOn hpart
  have hlist : r.term.name.toList = trimChars part := hname
  refine ⟨⟨?_, ?_, ?_, Generations.kept_upTo _, Generations.kept_upTo _⟩, ?_⟩
  · rw [hlist]
    exact trimmed_trimChars part
  · rw [hlist, ne_eq, ← List.isEmpty_iff, isEmpty_trimChars]
    exact hblank
  · rw [hlist, mem_trimChars_iff (by decide)]
    exact hplus
  · rw [hlist]
    intro c hc
    exact subset_trimChars text (hsub (subset_trimChars part hc))

/-! ## Displaying -/

/-- A number of ancestors is displayed with a plus after it, unless there are none. -/
theorem toList_ancestorsText {g : Generations} (h : g ≠ .none) :
    (ancestorsText g).toList = g.digits ++ ['+'] := by
  unfold ancestorsText
  split
  next => exact absurd rfl h
  next n _ =>
    rw [String.toList_append, Nat.toString_eq_ofList_toDigits, String.toList_ofList]
    rfl
  next => rfl

/-- A number of descendants is displayed with a plus before it, unless there are none. -/
theorem toList_descendantsText {g : Generations} (h : g ≠ .none) :
    (descendantsText g).toList = '+' :: g.digits := by
  unfold descendantsText
  split
  next => exact absurd rfl h
  next n _ =>
    simp only [String.toList_append, Nat.toString_eq_ofList_toDigits, String.toList_ofList]
    rfl
  next => rfl

theorem toList_display (t : Term) : t.display.toList = (ancestorsText t.ancestors).toList ++
    (t.name.toList ++ (descendantsText t.descendants).toList) := by
  rw [display, String.toList_append, String.toList_append, List.append_assoc]

/-- **A term that reads as another one when it is displayed**: a name of digits, no ancestors and a
limited number of descendants. The name is then taken for a number of ancestors and the number of
descendants for the name. -/
def Misread (t : Term) : Prop :=
  t.name.toList.all Char.isDigit ∧ t.ancestors = .none ∧ t.descendants ≠ .none ∧
    t.descendants ≠ .unbounded

namespace Readable

theorem not_all_isBlank (h : t.Readable) : ¬ t.name.toList.all isBlank := by
  rw [← isEmpty_trimChars, trimChars_eq_self_iff.2 h.trimmed, List.isEmpty_iff]
  exact h.ne_nil

theorem trim_name (h : t.Readable) : String.ofList (trimChars t.name.toList) = t.name := by
  rw [trimChars_eq_self_iff.2 h.trimmed, String.ofList_toList]

/-- A displayed term has no blanks at its ends. -/
theorem trim_display (h : t.Readable) : trimChars t.display.toList = t.display.toList := by
  have hname : Trimmed (t.name.toList ++ (descendantsText t.descendants).toList) := by
    by_cases hd : t.descendants = .none
    · have hnil : (descendantsText t.descendants).toList = [] := by rw [hd]; rfl
      rw [hnil, List.append_nil]
      exact h.trimmed
    · rw [toList_descendantsText hd]
      exact h.trimmed.append_cons t.descendants.trimmed_digits (by decide)
  rw [trimChars_eq_self_iff, toList_display]
  by_cases ha : t.ancestors = .none
  · rw [ha]
    exact hname
  · rw [toList_ancestorsText ha, List.append_assoc, List.singleton_append]
    exact t.ancestors.trimmed_digits.append_cons hname (by decide)

theorem ofChars?_name (h : t.Readable) (ha : t.ancestors = .none) (hd : t.descendants = .none) :
    ofChars? t.display.toList = some t := by
  have htext : trimChars t.display.toList = t.name.toList := by
    rw [h.trim_display, toList_display, ha, hd]
    exact List.append_nil _
  rw [ofChars?_of_notMem (by rw [htext]; exact h.ne_nil) (by rw [htext]; exact h.plus), htext,
    String.ofList_toList]
  exact congrArg some (Term.ext_iff.2 ⟨rfl, ha.symm, hd.symm⟩)

/-- A name with ancestors alone: its plus is theirs, whatever the name is. -/
theorem ofChars?_ancestors (h : t.Readable) (ha : t.ancestors ≠ .none)
    (hd : t.descendants = .none) : ofChars? t.display.toList = some t := by
  have htext : trimChars t.display.toList = t.ancestors.digits ++ '+' :: t.name.toList := by
    rw [h.trim_display, toList_display, toList_ancestorsText ha, hd]
    simp [descendantsText, Generations.none]
  rw [ofChars?_of_one htext (t.ancestors.notMem_digits (by decide)) h.plus,
    if_pos ⟨t.ancestors.all_isDigit_digits, h.not_all_isBlank⟩, h.trim_name,
    Generations.written_digits h.ancestors]
  exact congrArg some (Term.ext_iff.2 ⟨rfl, rfl, hd.symm⟩)

/-- A name with descendants alone: its plus is theirs, unless digits stand on both sides of it. -/
theorem ofChars?_descendants (h : t.Readable) (ha : t.ancestors = .none)
    (hd : t.descendants ≠ .none) : ofChars? t.display.toList =
      if t.name.toList.all Char.isDigit ∧ t.descendants ≠ .unbounded then
        some ⟨String.ofList t.descendants.digits, .written t.name.toList, .none⟩
      else some t := by
  have htext : trimChars t.display.toList = t.name.toList ++ '+' :: t.descendants.digits := by
    rw [h.trim_display, toList_display, toList_descendantsText hd, ha]
    rfl
  have hself : trimChars t.descendants.digits = t.descendants.digits :=
    trimChars_eq_self_iff.2 t.descendants.trimmed_digits
  have hlimit : ¬ t.descendants.digits.all isBlank ↔ t.descendants ≠ .unbounded :=
    not_congr t.descendants.all_isBlank_digits_iff
  have hterm : (⟨t.name, .none, t.descendants⟩ : Term) = t := Term.ext_iff.2 ⟨rfl, ha.symm, rfl⟩
  rw [ofChars?_of_one htext h.plus (t.descendants.notMem_digits (by decide)), hself, h.trim_name,
    Generations.written_digits h.descendants]
  refine if_congr (and_congr_right' hlimit) rfl ?_
  rw [if_pos ⟨t.descendants.all_isDigit_digits, h.not_all_isBlank⟩]
  exact congrArg some hterm

/-- A name between ancestors and descendants. -/
theorem ofChars?_both (h : t.Readable) (ha : t.ancestors ≠ .none) (hd : t.descendants ≠ .none) :
    ofChars? t.display.toList = some t := by
  have htext : trimChars t.display.toList =
      t.ancestors.digits ++ '+' :: (t.name.toList ++ '+' :: t.descendants.digits) := by
    rw [h.trim_display, toList_display, toList_ancestorsText ha, toList_descendantsText hd]
    simp
  rw [ofChars?_of_two htext (t.ancestors.notMem_digits (by decide)) h.plus
    (t.descendants.notMem_digits (by decide)),
    if_pos ⟨t.ancestors.all_isDigit_digits, t.descendants.all_isDigit_digits, h.not_all_isBlank⟩,
    h.trim_name, Generations.written_digits h.ancestors, Generations.written_digits h.descendants]

/-- **A displayed term reads as a term**, and as the same one unless it is misread. -/
theorem ofChars?_display (h : t.Readable) :
    ∃ u, ofChars? t.display.toList = some u ∧ (u = t ↔ ¬ t.Misread) := by
  by_cases ha : t.ancestors = .none
  · by_cases hd : t.descendants = .none
    · have hnot : ¬ t.Misread := fun hm => hm.2.2.1 hd
      exact ⟨t, h.ofChars?_name ha hd, iff_of_true rfl hnot⟩
    · rw [h.ofChars?_descendants ha hd]
      split_ifs with hm
      · refine ⟨_, rfl, iff_of_false ?_ (not_not.2 ⟨hm.1, ha, hd, hm.2⟩)⟩
        -- the number of descendants has become the name, so no descendants are left
        intro heq
        exact hd (congrArg Term.descendants heq).symm
      · exact ⟨t, rfl, iff_of_true rfl fun hmis => hm ⟨hmis.1, hmis.2.2.2⟩⟩
  · have hnot : ¬ t.Misread := fun hm => ha hm.2.1
    by_cases hd : t.descendants = .none
    · exact ⟨t, h.ofChars?_ancestors ha hd, iff_of_true rfl hnot⟩
    · exact ⟨t, h.ofChars?_both ha hd, iff_of_true rfl hnot⟩

end Readable

end Term

end DataLineage
