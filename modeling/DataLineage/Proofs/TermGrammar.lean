import DataLineage.Proofs.Trimming
import DataLineage.Selection.Selector
import Mathlib.Data.Nat.Digits.Defs

/-!
# The grammar of terms

Terms are read from both ends at once: digits and a plus before the name, a plus and digits after
it. How the pluses of a text part it decides what it means, so the readings are told apart by their
number.

* `Generations.ofDigits_eq`: a run of digits stands for its decimal value, or for no bound.
* `Term.ofChars?_eq`: what is left between the generations is a name unless it is blank or has a
  plus.
* `Term.ofChars?_of_notMem`, `Term.ofChars?_of_one`, `Term.ofChars?_of_two` and
  `Term.ofChars?_of_three`: the readings of a text with none, one, two and more pluses.
* `Term.parse?_grammar`: the statement.
-/

namespace DataLineage

/-! ## Digits -/

/-- The decimal value of a run of digits. -/
def decimalValue (digits : List Char) : ℕ :=
  Nat.ofDigits 10 (digits.reverse.map fun d => d.toNat - '0'.toNat)

theorem natOfDigits_eq (digits : List Char) : natOfDigits digits = decimalValue digits := by
  induction digits using List.reverseRecOn with
  | nil => rfl
  | append_singleton digits d ih =>
    rw [natOfDigits, List.foldl_append, ← natOfDigits, ih, decimalValue, decimalValue,
      List.reverse_append, List.reverse_singleton, List.singleton_append, List.map_cons,
      Nat.ofDigits_cons, List.foldl_cons, List.foldl_nil, appendDigit]
    exact Nat.add_comm _ _

/-- The generations that a run of digits stands for. -/
def Generations.written (digits : List Char) : Generations :=
  if digits = [] then .unbounded
  else if decimalValue digits < 2 ^ 64 then .bounded (decimalValue digits)
  else .unbounded

/-- A run of digits stands for its decimal value, or for no bound. -/
theorem Generations.ofDigits_eq : ofDigits = written := by
  funext digits
  rw [ofDigits, written, natOfDigits_eq]
  cases digits with
  | nil => rfl
  | cons d digits => rfl

namespace Term

variable {cs x y z : List Char}

/-! ## Parting a text -/

theorem atFirstPlus?_of_notMem (h : '+' ∉ cs) : atFirstPlus? cs = none := by
  induction cs with
  | nil => rfl
  | cons c cs ih =>
    rw [List.mem_cons, not_or] at h
    rw [atFirstPlus?, if_neg (Ne.symm h.1), ih h.2, Option.map_none]

theorem atFirstPlus?_append (h : '+' ∉ x) (y : List Char) :
    atFirstPlus? (x ++ '+' :: y) = some (x, y) := by
  induction x with
  | nil => rfl
  | cons c x ih =>
    rw [List.mem_cons, not_or] at h
    rw [List.cons_append, atFirstPlus?, if_neg (Ne.symm h.1), ih h.2, Option.map_some]

theorem atLastPlus?_of_notMem (h : '+' ∉ cs) : atLastPlus? cs = none := by
  induction cs with
  | nil => rfl
  | cons c cs ih =>
    rw [List.mem_cons, not_or] at h
    rw [atLastPlus?, ih h.2]
    exact if_neg (Ne.symm h.1)

theorem atLastPlus?_append (x : List Char) (h : '+' ∉ y) :
    atLastPlus? (x ++ '+' :: y) = some (x, y) := by
  induction x with
  | nil => rw [List.nil_append, atLastPlus?, atLastPlus?_of_notMem h]; rfl
  | cons c x ih => rw [List.cons_append, atLastPlus?, ih]

/-- A text with pluses has a last one. -/
theorem exists_last (h : '+' ∈ cs) : ∃ x y, cs = x ++ '+' :: y ∧ '+' ∉ y := by
  obtain ⟨y, x, hyx, hy⟩ := List.eq_append_cons_of_mem (List.mem_reverse.2 h)
  refine ⟨x.reverse, y.reverse, ?_, by rwa [List.mem_reverse]⟩
  rw [← List.reverse_reverse cs, hyx]
  simp

/-! ## Taking generations off -/

theorem splitDescendants_of_notMem (h : '+' ∉ cs) : splitDescendants cs = (cs, .none) := by
  rw [splitDescendants, atLastPlus?_of_notMem h]

theorem splitDescendants_append (x : List Char) (h : '+' ∉ y) :
    splitDescendants (x ++ '+' :: y) =
      if y.all Char.isDigit then (x, .written y) else (x ++ '+' :: y, .none) := by
  rw [splitDescendants, atLastPlus?_append x h, Generations.ofDigits_eq]
  rfl

theorem splitAncestors_of_notMem (h : '+' ∉ cs) : splitAncestors cs = (.none, cs) := by
  rw [splitAncestors, atFirstPlus?_of_notMem h]

theorem splitAncestors_append (h : '+' ∉ x) (y : List Char) :
    splitAncestors (x ++ '+' :: y) =
      if x.all Char.isDigit ∧ ¬ (splitDescendants y).1.all isBlank then (.written x, y)
      else (.none, x ++ '+' :: y) := by
  rw [splitAncestors, atFirstPlus?_append h y, Generations.ofDigits_eq]
  simp only [isEmpty_trimChars, isDigits, Bool.and_eq_true, Bool.not_eq_true',
    Bool.not_eq_true]

/-- Taking descendants off takes at most one plus. -/
theorem count_splitDescendants (cs : List Char) :
    cs.count '+' ≤ (splitDescendants cs).1.count '+' + 1 := by
  by_cases h : '+' ∈ cs
  · obtain ⟨x, y, rfl, hy⟩ := exists_last h
    have hcount : y.count '+' = 0 := List.count_eq_zero_of_not_mem hy
    rw [splitDescendants_append x hy]
    split
    · rw [List.count_append, List.count_cons_self, hcount]
    · exact Nat.le_succ _
  · rw [splitDescendants_of_notMem h]
    exact Nat.le_succ _

/-- Taking ancestors off takes at most one plus. -/
theorem count_splitAncestors (cs : List Char) :
    cs.count '+' ≤ (splitAncestors cs).2.count '+' + 1 := by
  by_cases h : '+' ∈ cs
  · obtain ⟨x, y, rfl, hx⟩ := List.eq_append_cons_of_mem h
    have hcount : x.count '+' = 0 := List.count_eq_zero_of_not_mem hx
    rw [splitAncestors_append hx]
    split
    · rw [List.count_append, List.count_cons_self, hcount, Nat.zero_add]
    · exact Nat.le_succ _
  · rw [splitAncestors_of_notMem h]
    exact Nat.le_succ _

/-! ## Readings -/

variable {text middle rest : List Char} {a d : Generations}

/-- What is left between the generations is a name unless it is blank or has a plus. -/
theorem ofChars?_eq (hne : trimChars text ≠ [])
    (ha : splitAncestors (trimChars text) = (a, rest))
    (hd : splitDescendants rest = (middle, d)) :
    ofChars? text =
      if middle.all isBlank ∨ '+' ∈ middle then none
      else some ⟨String.ofList (trimChars middle), a, d⟩ := by
  have hempty : (trimChars text).isEmpty = false := by
    rw [← Bool.not_eq_true, List.isEmpty_iff]
    exact hne
  have hplus : (trimChars middle).contains '+' = true ↔ '+' ∈ middle := by
    rw [List.contains_iff_mem, mem_trimChars_iff (by decide)]
  simp only [ofChars?, hempty, ha, hd, isEmpty_trimChars, Bool.or_eq_true, hplus]
  rfl

theorem ofChars?_of_notMem (hne : trimChars text ≠ []) (h : '+' ∉ trimChars text) :
    ofChars? text = some ⟨String.ofList (trimChars text), .none, .none⟩ := by
  have hself : trimChars (trimChars text) = trimChars text :=
    trimChars_eq_self_iff.2 (trimmed_trimChars text)
  have hblank : ¬ (trimChars text).all isBlank := by
    rw [← isEmpty_trimChars, hself, List.isEmpty_iff]
    exact hne
  rw [ofChars?_eq hne (splitAncestors_of_notMem h) (splitDescendants_of_notMem h),
    if_neg (not_or.2 ⟨hblank, h⟩), hself]

/-- A text with one plus: the digits before it are ancestors, if a name comes after it. Else the
digits after it are descendants, if a name comes before it. -/
theorem ofChars?_of_one (ht : trimChars text = x ++ '+' :: y) (hx : '+' ∉ x) (hy : '+' ∉ y) :
    ofChars? text =
      if x.all Char.isDigit ∧ ¬ y.all isBlank then
        some ⟨String.ofList (trimChars y), .written x, .none⟩
      else if y.all Char.isDigit ∧ ¬ x.all isBlank then
        some ⟨String.ofList (trimChars x), .none, .written y⟩
      else none := by
  have hne : trimChars text ≠ [] := by rw [ht]; simp
  by_cases hp : x.all Char.isDigit ∧ ¬ y.all isBlank
  · have ha : splitAncestors (trimChars text) = (.written x, y) := by
      rw [ht, splitAncestors_append hx, splitDescendants_of_notMem hy, if_pos hp]
    rw [ofChars?_eq hne ha (splitDescendants_of_notMem hy), if_neg (not_or.2 ⟨hp.2, hy⟩),
      if_pos hp]
  · have ha : splitAncestors (trimChars text) = (.none, x ++ '+' :: y) := by
      rw [ht, splitAncestors_append hx, splitDescendants_of_notMem hy, if_neg hp]
    -- no ancestors come off, so the plus may be that of descendants
    rw [if_neg hp]
    by_cases hs : y.all Char.isDigit
    · have hd : splitDescendants (x ++ '+' :: y) = (x, .written y) := by
        rw [splitDescendants_append x hy, if_pos hs]
      rw [ofChars?_eq hne ha hd]
      by_cases hb : x.all isBlank
      · rw [if_pos (.inl hb), if_neg fun h => h.2 hb]
      · rw [if_neg (not_or.2 ⟨hb, hx⟩), if_pos ⟨hs, hb⟩]
    · have hd : splitDescendants (x ++ '+' :: y) = (x ++ '+' :: y, .none) := by
        rw [splitDescendants_append x hy, if_neg hs]
      rw [ofChars?_eq hne ha hd, if_pos (.inr (by simp)), if_neg fun h => hs h.1]

/-- A text with two pluses has its name between them, and digits on both sides. -/
theorem ofChars?_of_two (ht : trimChars text = x ++ '+' :: (y ++ '+' :: z)) (hx : '+' ∉ x)
    (hy : '+' ∉ y) (hz : '+' ∉ z) :
    ofChars? text =
      if x.all Char.isDigit ∧ z.all Char.isDigit ∧ ¬ y.all isBlank then
        some ⟨String.ofList (trimChars y), .written x, .written z⟩
      else none := by
  have hne : trimChars text ≠ [] := by rw [ht]; simp
  by_cases hs : z.all Char.isDigit
  · have hd : splitDescendants (y ++ '+' :: z) = (y, .written z) := by
      rw [splitDescendants_append y hz, if_pos hs]
    by_cases hp : x.all Char.isDigit ∧ ¬ y.all isBlank
    · have ha : splitAncestors (trimChars text) = (.written x, y ++ '+' :: z) := by
        rw [ht, splitAncestors_append hx, hd, if_pos hp]
      rw [ofChars?_eq hne ha hd, if_neg (not_or.2 ⟨hp.2, hy⟩), if_pos ⟨hp.1, hs, hp.2⟩]
    · -- the first plus stays, also when the last one comes off
      have ha : splitAncestors (trimChars text) = (.none, (x ++ '+' :: y) ++ '+' :: z) := by
        rw [ht, splitAncestors_append hx, hd, if_neg hp, List.append_assoc, List.cons_append]
      have hd' : splitDescendants ((x ++ '+' :: y) ++ '+' :: z) = (x ++ '+' :: y, .written z) := by
        rw [splitDescendants_append _ hz, if_pos hs]
      rw [ofChars?_eq hne ha hd', if_pos (.inr (by simp)), if_neg fun h => hp ⟨h.1, h.2.2⟩]
  · have hplus : ∀ w, '+' ∈ (splitDescendants (w ++ '+' :: z)).1 := by
      intro w
      rw [splitDescendants_append w hz, if_neg hs]
      simp
    have hrest : ∃ w, (splitAncestors (trimChars text)).2 = w ++ '+' :: z := by
      rw [ht, splitAncestors_append hx]
      split
      · exact ⟨y, rfl⟩
      · exact ⟨x ++ '+' :: y, by simp⟩
    obtain ⟨w, hw⟩ := hrest
    have hmem := hplus w
    rw [← hw] at hmem
    -- the last plus does not come off, whatever became of the first
    rw [ofChars?_eq hne rfl rfl, if_pos (.inr hmem), if_neg fun h => hs h.2.1]

/-- Of three pluses one is left in the name. -/
theorem ofChars?_of_three (h : 3 ≤ (trimChars text).count '+') : ofChars? text = none := by
  have hne : trimChars text ≠ [] := by
    intro hnil
    rw [hnil] at h
    exact absurd h (by decide)
  have ha := count_splitAncestors (trimChars text)
  have hd := count_splitDescendants (splitAncestors (trimChars text)).2
  have hmem : '+' ∈ (splitDescendants (splitAncestors (trimChars text)).2).1 := by
    rw [← List.count_pos_iff]
    omega
  rw [ofChars?_eq hne rfl rfl, if_pos (.inr hmem)]

/-- **Terms are read by one fixed grammar**, by the number of pluses in the trimmed text. -/
theorem parse?_grammar (text : String) :
    let t := trimChars text.toList
    (t = [] → parse? text = none) ∧
    (t ≠ [] → t.count '+' = 0 →
      parse? text = some ⟨String.ofList t, .bounded 0, .bounded 0⟩) ∧
    (∀ x y, t = x ++ '+' :: y → t.count '+' = 1 →
      parse? text =
        if x.all Char.isDigit ∧ ¬ y.all isBlank then
          some ⟨String.ofList (trimChars y), .written x, .bounded 0⟩
        else if y.all Char.isDigit ∧ ¬ x.all isBlank then
          some ⟨String.ofList (trimChars x), .bounded 0, .written y⟩
        else none) ∧
    (∀ x y z, t = x ++ '+' :: (y ++ '+' :: z) → t.count '+' = 2 →
      parse? text =
        if x.all Char.isDigit ∧ z.all Char.isDigit ∧ ¬ y.all isBlank then
          some ⟨String.ofList (trimChars y), .written x, .written z⟩
        else none) ∧
    (3 ≤ t.count '+' → parse? text = none) := by
  intro t
  refine ⟨?_, ?_, ?_, ?_, ofChars?_of_three⟩
  · intro ht
    exact parse?_eq_none_of_blank (List.all_eq_true.2 ((trimChars_eq_nil_iff _).1 ht))
  · intro hne hcount
    exact ofChars?_of_notMem hne (List.count_eq_zero.1 hcount)
  · intro x y ht hcount
    rw [ht, List.count_append, List.count_cons_self] at hcount
    exact ofChars?_of_one ht (List.count_eq_zero.1 (by omega)) (List.count_eq_zero.1 (by omega))
  · intro x y z ht hcount
    rw [ht, List.count_append, List.count_cons_self, List.count_append,
      List.count_cons_self] at hcount
    exact ofChars?_of_two ht (List.count_eq_zero.1 (by omega)) (List.count_eq_zero.1 (by omega))
      (List.count_eq_zero.1 (by omega))

/-- With nothing after the plus, the digits before it are the name. -/
example : parse? " 12+ " = some ⟨"12", .bounded 0, .unbounded⟩ := by decide

end Term

end DataLineage
