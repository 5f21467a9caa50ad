import DataLineage.Proofs.WrittenTrees
import Mathlib.Data.List.Chain
import Mathlib.Data.List.TakeWhile

/-!
# How JSON tokens are spelled

A token can be spelled in many ways: a character of a string as itself or behind a backslash, the
exponent of a number with a small or a capital letter. A text spells a list of tokens when it has
them in order, with blanks before, between and behind them. Cutting a text into tokens finds what the
text spells. A number ends where no further character can belong to it, so it has to stand apart
from what follows.

* `Json.Text.body_spelled`, `Json.numberBody_spelled`, `Json.lexeme_spelled`: a spelling is read back,
  whatever stands apart behind it.
* `Json.Text.exists_spelled`, `Json.exists_spelled_number`, `Json.exists_spelled`: what is read was
  spelled.
* `Json.tokens_eq_iff`: both together, for a whole text.
-/

namespace DataLineage

namespace Json

/-! ## Spellings -/

/-- The spellings of one piece of a string. -/
inductive Piece.Spelled : Piece → List Char → Prop
  | plain {c : Char} (hquote : c ≠ '"') (hmark : c ≠ '\\') (hc : ¬ c.val < 0x20) :
    Spelled (.char c) [c]
  | escape {letter c : Char} (h : escaped? letter = some c) : Spelled (.char c) ['\\', letter]
  | unit {a b c d : Char} {n : Nat} (h : hexUnit? a b c d = some n) :
    Spelled (.unit n) ['\\', 'u', a, b, c, d]

/-- The spellings of the pieces of a string, one after another. -/
inductive PiecesSpelled : List Piece → List Char → Prop
  | nil : PiecesSpelled [] []
  | cons {p : Piece} {ps : List Piece} {cs rest : List Char} (hp : p.Spelled cs)
    (h : PiecesSpelled ps rest) : PiecesSpelled (p :: ps) (cs ++ rest)

/-- At least one digit, and nothing else. -/
def IsDigits (ds : List Char) : Prop := ds ≠ [] ∧ ∀ d ∈ ds, d.isDigit

/-- The spellings of the fraction of a number. -/
inductive FractionSpelled : Option (List Char) → List Char → Prop
  | none : FractionSpelled none []
  | some {ds : List Char} (h : IsDigits ds) : FractionSpelled (some ds) ('.' :: ds)

/-- The spellings of the exponent of a number. -/
inductive ExponentSpelled : Option (Bool × List Char) → List Char → Prop
  | none : ExponentSpelled none []
  | some {e : Char} {negative : Bool} {sign ds : List Char} (he : e = 'e' ∨ e = 'E')
    (hsign : (negative, sign) ∈ [(true, ['-']), (false, ['+']), (false, [])]) (h : IsDigits ds) :
    ExponentSpelled (some (negative, ds)) (e :: (sign ++ ds))

/-- The spellings of a number without its sign. -/
inductive Number.MagnitudeSpelled (n : Number) : List Char → Prop
  | mk {f e : List Char} (hwhole : IsDigits n.whole)
    (hzero : ¬ (n.whole.head? = some '0' ∧ 1 < n.whole.length)) (hf : FractionSpelled n.fraction f)
    (he : ExponentSpelled n.exponent e) : MagnitudeSpelled n (n.whole ++ (f ++ e))

/-- The spellings of one token. -/
inductive Token.Spelled : Token → List Char → Prop
  | openArray : Spelled .openArray ['[']
  | closeArray : Spelled .closeArray [']']
  | openObject : Spelled .openObject ['\x7b']
  | closeObject : Spelled .closeObject ['\x7d']
  | colon : Spelled .colon [':']
  | comma : Spelled .comma [',']
  | null : Spelled (.scalar .null) ['n', 'u', 'l', 'l']
  | yes : Spelled (.scalar (.bool true)) ['t', 'r', 'u', 'e']
  | no : Spelled (.scalar (.bool false)) ['f', 'a', 'l', 's', 'e']
  | number {n : Number} {cs : List Char} (h : n.MagnitudeSpelled cs) :
    Spelled (.scalar (.number n)) (if n.negative then '-' :: cs else cs)
  | text {ps : List Piece} {cs : List Char} (h : PiecesSpelled ps cs) :
    Spelled (.scalar (.text ⟨ps, none⟩)) ('"' :: (cs ++ ['"']))

/-- The texts that spell some tokens: blanks, a token, and so on to the last blanks. -/
inductive TokensSpelled : List Token → List Char → Prop
  | nil {blanks : List Char} (hblanks : ∀ c ∈ blanks, isSpace c) : TokensSpelled [] blanks
  | cons {t : Token} {ts : List Token} {blanks cs rest : List Char}
    (hblanks : ∀ c ∈ blanks, isSpace c) (ht : t.Spelled cs) (h : TokensSpelled ts rest) :
    TokensSpelled (t :: ts) (blanks ++ (cs ++ rest))

/-- Whether a token says what it is; others mark a place where a text is not JSON. -/
def Token.IsWhole : Token → Prop
  | .scalar s => s.break? = none
  | _ => True

def Token.IsScalar (t : Token) : Prop := ∃ s, t = .scalar s

/-- No scalar comes right after another. -/
def Separated (ts : List Token) : Prop := ts.IsChain fun t u => ¬ (t.IsScalar ∧ u.IsScalar)

/-- The characters with which a number can go on. -/
def isNumberPart (c : Char) : Bool := c.isDigit || c == '.' || c == 'e' || c == 'E'

/-- No number goes on into this text. -/
def Apart (cs : List Char) : Prop := ∀ c ∈ cs.head?, ¬ isNumberPart c

variable {ps : List Piece} {n : Number} {t : Token} {ts : List Token} {c : Char}
  {cs ds rest word : List Char}

/-! ## Strings -/

theorem Text.body_escape {letter : Char} (h : escaped? letter = some c) (rest : List Char) :
    body ('\\' :: letter :: rest) = cons (.char c) (body rest) := by
  unfold escaped? at h
  split at h <;> first | (cases h; rfl) | cases h

/-- **A piece is read back** from any of its spellings. -/
theorem Text.body_piece {p : Piece} (hp : p.Spelled cs) (rest : List Char) :
    body (cs ++ rest) = cons p (body rest) := by
  cases hp with
  | plain hquote hmark hc =>
    rw [List.singleton_append, body, if_neg hc] <;> simp_all
  | escape h => exact body_escape h rest
  | unit h => simp only [List.cons_append, List.nil_append, body, h]

/-- **A string is read back** from between its quotes. -/
theorem Text.body_spelled (h : PiecesSpelled ps cs) (rest : List Char) :
    body (cs ++ '"' :: rest) = (⟨ps, none⟩, rest) := by
  induction h with
  | nil => rfl
  | cons hp _ ih => rw [List.append_assoc, body_piece hp, ih]; rfl

/-- **A string that is read was spelled** up to its closing quote. -/
theorem Text.exists_spelled (cs : List Char) (h : (body cs).1.stop = none) :
    ∃ front, cs = front ++ '"' :: (body cs).2 ∧ PiecesSpelled (body cs).1.pieces front := by
  fun_induction body cs with
  | case1 => cases h
  | case2 rest => exact ⟨[], rfl, .nil⟩
  | case3 => cases h
  | case4 a b c d rest n hn ih =>
    obtain ⟨front, hcs, hfront⟩ := ih h
    exact ⟨'\\' :: 'u' :: a :: b :: c :: d :: front, by simp [cons, ← hcs], .cons (.unit hn) hfront⟩
  | case5 => cases h
  | case6 => cases h
  | case7 letter rest _ _ c hc ih =>
    obtain ⟨front, hcs, hfront⟩ := ih h
    exact ⟨'\\' :: letter :: front, by simp [cons, ← hcs], .cons (.escape hc) hfront⟩
  | case8 => cases h
  | case9 => cases h
  | case10 c rest hquote hend _ _ hmark hc ih =>
    obtain ⟨front, hcs, hfront⟩ := ih h
    have hne : c ≠ '\\' := by
      rintro rfl
      cases rest with
      | nil => exact hend rfl rfl
      | cons d rest => exact hmark d rest rfl rfl
    exact ⟨c :: front, by simp [cons, ← hcs], .cons (.plain hquote hne hc) hfront⟩

/-! ## Numbers -/

theorem apart_nil : Apart [] := by simp [Apart]

theorem apart_cons (hc : isNumberPart c = false) (cs : List Char) : Apart (c :: cs) := by
  simp [Apart, hc]

/-- **Digits are read back** before a text that begins with none. -/
theorem digits1_spelled (h : IsDigits ds) (hrest : ∀ c ∈ rest.head?, ¬ c.isDigit) :
    digits1 (ds ++ rest) = .ok (ds, rest) := by
  obtain ⟨hne, hds⟩ := h
  have hrun : digitRun (ds ++ rest) = (ds, rest) := by
    have hstop : rest.takeWhile Char.isDigit = [] ∧ rest.dropWhile Char.isDigit = rest := by
      cases rest with
      | nil => exact ⟨rfl, rfl⟩
      | cons c cs =>
        have hc : ¬ c.isDigit := hrest c rfl
        exact ⟨List.takeWhile_cons_of_neg hc, List.dropWhile_cons_of_neg hc⟩
    rw [digitRun, List.takeWhile_append_of_pos hds, List.dropWhile_append_of_pos hds, hstop.1,
      hstop.2, List.append_nil]
  unfold digits1
  rw [hrun]
  split
  next h => exact absurd (congrArg Prod.fst h) hne
  next h => exact absurd (congrArg Prod.fst h) hne
  next => rfl

/-- **Digits that are read were spelled.** -/
theorem exists_spelled_digits {run : List Char × List Char} (h : digits1 cs = .ok run) :
    cs = run.1 ++ run.2 ∧ IsDigits run.1 := by
  have hall := List.takeWhile_append_dropWhile (p := Char.isDigit) (l := cs)
  unfold digits1 digitRun at h
  split at h
  next => cases h
  next => cases h
  next hnil hcons =>
    cases h
    refine ⟨hall.symm, ?_, fun d hd => List.mem_takeWhile_imp hd⟩
    intro (hnone : cs.takeWhile Char.isDigit = [])
    cases hdrop : cs.dropWhile Char.isDigit with
    | nil => exact hnil (by rw [hnone, hdrop])
    | cons d rest => exact hcons d rest (by rw [hnone, hdrop])

theorem not_isDigit_of_apart (h : Apart cs) : ∀ c ∈ cs.head?, ¬ c.isDigit := by
  intro c hc hd
  exact h c hc (by simp [isNumberPart, hd])

/-- What follows the fraction of a number begins with no digit and no point. -/
theorem ExponentSpelled.head_append {x : Option (Bool × List Char)} (h : ExponentSpelled x cs)
    (hrest : Apart rest) : ∀ c ∈ (cs ++ rest).head?, ¬ c.isDigit ∧ c ≠ '.' := by
  cases h with
  | none =>
    intro c hc
    refine ⟨not_isDigit_of_apart hrest c hc, ?_⟩
    rintro rfl
    exact hrest '.' hc rfl
  | some he _ _ =>
    intro c hc
    obtain rfl := Option.some.inj hc
    rcases he with rfl | rfl <;> decide

/-- What follows the whole digits of a number begins with no digit. -/
theorem FractionSpelled.head_append {x : Option (List Char)} (h : FractionSpelled x cs)
    (hrest : ∀ c ∈ rest.head?, ¬ c.isDigit ∧ c ≠ '.') : ∀ c ∈ (cs ++ rest).head?, ¬ c.isDigit := by
  cases h with
  | none => exact fun c hc => (hrest c hc).1
  | some _ =>
    intro c hc
    obtain rfl := Option.some.inj hc
    decide

theorem fractionPart_spelled {x : Option (List Char)} (h : FractionSpelled x cs)
    (hrest : ∀ c ∈ rest.head?, ¬ c.isDigit ∧ c ≠ '.') : fractionPart (cs ++ rest) = .ok (x, rest) := by
  cases h with
  | none =>
    rw [List.nil_append]
    unfold fractionPart
    split
    next => exact absurd rfl (hrest '.' rfl).2
    next => rfl
  | some h =>
    rw [List.cons_append, fractionPart, digits1_spelled h fun c hc => (hrest c hc).1]
    rfl

theorem exists_spelled_fraction {r : Option (List Char) × List Char}
    (h : fractionPart cs = .ok r) : ∃ front, cs = front ++ r.2 ∧ FractionSpelled r.1 front := by
  unfold fractionPart at h
  split at h
  next tail =>
    cases hd : digits1 tail with
    | error b => rw [hd] at h; cases h
    | ok run =>
      rw [hd] at h
      cases h
      obtain ⟨hcs, hds⟩ := exists_spelled_digits hd
      exact ⟨'.' :: run.1, by rw [hcs]; rfl, .some hds⟩
  next => cases h; exact ⟨[], rfl, .none⟩

/-- A sign is taken off digits, or there is none. -/
theorem takeSign_spelled {negative : Bool} {sign : List Char}
    (hsign : (negative, sign) ∈ [(true, ['-']), (false, ['+']), (false, [])]) (h : IsDigits ds) :
    takeSign (sign ++ (ds ++ rest)) = (negative, ds ++ rest) := by
  simp only [List.mem_cons, Prod.mk.injEq, List.not_mem_nil, or_false] at hsign
  obtain ⟨rfl, rfl⟩ | ⟨rfl, rfl⟩ | ⟨rfl, rfl⟩ := hsign
  · rfl
  · rfl
  · obtain ⟨hne, hds⟩ := h
    cases ds with
    | nil => exact absurd rfl hne
    | cons d ds =>
      have hd : d.isDigit := hds d List.mem_cons_self
      unfold takeSign
      split
      next h => exact absurd ((List.cons.inj h).1 ▸ hd) (by decide)
      next h => exact absurd ((List.cons.inj h).1 ▸ hd) (by decide)
      next => rfl

theorem exists_spelled_sign (cs : List Char) : ∃ sign,
    (((takeSign cs).1, sign) ∈ [(true, ['-']), (false, ['+']), (false, [])]) ∧
      cs = sign ++ (takeSign cs).2 := by
  unfold takeSign
  split
  · exact ⟨['-'], by simp, rfl⟩
  · exact ⟨['+'], by simp, rfl⟩
  · exact ⟨[], by simp, rfl⟩

theorem exponentPart_spelled {x : Option (Bool × List Char)} (h : ExponentSpelled x cs)
    (hrest : Apart rest) : exponentPart (cs ++ rest) = .ok (x, rest) := by
  cases h with
  | none =>
    rw [List.nil_append]
    unfold exponentPart
    split
    next c tail =>
      split
      next he => rcases he with rfl | rfl <;> exact absurd rfl (hrest _ rfl)
      next => rfl
    next => rfl
  | some he hsign hds =>
    rw [List.cons_append, exponentPart]
    simp only [if_pos he]
    rw [List.append_assoc, takeSign_spelled hsign hds,
      digits1_spelled hds (not_isDigit_of_apart hrest)]
    rfl

theorem exists_spelled_exponent {r : Option (Bool × List Char) × List Char}
    (h : exponentPart cs = .ok r) : ∃ front, cs = front ++ r.2 ∧ ExponentSpelled r.1 front := by
  unfold exponentPart at h
  split at h
  next c tail =>
    split at h
    next he =>
      cases hd : digits1 (takeSign tail).2 with
      | error b => rw [hd] at h; cases h
      | ok run =>
        rw [hd] at h
        cases h
        obtain ⟨hcs, hds⟩ := exists_spelled_digits hd
        obtain ⟨sign, hsign, htail⟩ := exists_spelled_sign tail
        refine ⟨c :: (sign ++ run.1), ?_, .some he hsign hds⟩
        rw [List.cons_append, List.append_assoc, ← hcs, ← htail]
    next => cases h; exact ⟨[], rfl, .none⟩
  next => cases h; exact ⟨[], rfl, .none⟩

/-- **A number is read back** before a text into which it does not go on. -/
theorem numberBody_spelled (h : n.MagnitudeSpelled cs) (hrest : Apart rest) :
    numberBody n.negative (cs ++ rest) = .ok (n, rest) := by
  obtain ⟨hwhole, hzero, hf, he⟩ := h
  -- each part ends where the next begins: the digits before the point, the fraction before the mark
  have hafter := he.head_append hrest
  rw [numberBody, List.append_assoc, List.append_assoc,
    digits1_spelled hwhole (hf.head_append hafter)]
  simp only [bind, Except.bind, if_neg hzero, fractionPart_spelled hf hafter,
    exponentPart_spelled he hrest]
  rfl

/-- **A number that is read was spelled.** -/
theorem exists_spelled_number {negative : Bool} (h : numberBody negative cs = .ok (n, rest)) :
    n.negative = negative ∧ ∃ front, cs = front ++ rest ∧ n.MagnitudeSpelled front := by
  unfold numberBody at h
  cases hw : digits1 cs with
  | error b => rw [hw] at h; cases h
  | ok whole =>
    rw [hw] at h
    simp only [bind, Except.bind] at h
    split at h
    next => cases h
    next hzero =>
      cases hf : fractionPart whole.2 with
      | error b => rw [hf] at h; cases h
      | ok fraction =>
        rw [hf] at h
        simp only at h
        cases he : exponentPart fraction.2 with
        | error b => rw [he] at h; cases h
        | ok exponent =>
          rw [he] at h
          cases h
          obtain ⟨hcs, hds⟩ := exists_spelled_digits hw
          obtain ⟨f, hf', hfs⟩ := exists_spelled_fraction hf
          obtain ⟨e, he', hes⟩ := exists_spelled_exponent he
          refine ⟨rfl, whole.1 ++ (f ++ e), ?_, .mk hds hzero hfs hes⟩
          rw [hcs, hf', he', List.append_assoc, List.append_assoc]

/-! ## Tokens -/

theorem afterWord_append (word rest : List Char) : afterWord word (word ++ rest) = .ok rest := by
  induction word with
  | nil => rfl
  | cons w word ih => simp [afterWord, ih]

theorem eq_append_of_afterWord (h : afterWord word cs = .ok rest) : cs = word ++ rest := by
  fun_induction afterWord word cs with
  | case1 cs => cases h; rfl
  | case2 => cases h
  | case3 w word cs ih => rw [ih h]; rfl
  | case4 => cases h

theorem wordToken_append (s : Scalar) (word rest : List Char) :
    wordToken s word (word ++ rest) = (.scalar s, rest) := by
  rw [wordToken, afterWord_append]

/-- A word that is read was spelled. -/
theorem eq_append_of_wordToken {s : Scalar} (h : (wordToken s word cs).1.IsWhole) :
    cs = word ++ (wordToken s word cs).2 ∧ (wordToken s word cs).1 = .scalar s := by
  unfold wordToken at h ⊢
  split
  next hword => exact ⟨eq_append_of_afterWord hword, rfl⟩
  next hword => rw [hword] at h; cases h
  next hword => rw [hword] at h; cases h

theorem exists_spelled_numberToken {negative : Bool} (h : (numberToken negative cs).1.IsWhole) :
    ∃ n front, n.negative = negative ∧ cs = front ++ (numberToken negative cs).2 ∧
      n.MagnitudeSpelled front ∧ (numberToken negative cs).1 = .scalar (.number n) := by
  unfold numberToken at h ⊢
  split
  next n rest hn =>
    obtain ⟨hneg, front, hcs, hfront⟩ := exists_spelled_number hn
    exact ⟨n, front, hneg, hcs, hfront, rfl⟩
  next hn => rw [hn] at h; cases h
  next hn => rw [hn] at h; cases h

/-- A digit begins a number. -/
theorem lexeme_digit (hc : c.isDigit) (cs : List Char) :
    lexeme c cs = numberToken false (c :: cs) := by
  unfold lexeme
  split
  iterate 11
    · exact absurd hc (by decide)
  rw [if_pos hc]

/-- What no number can begin with does not begin the digits of one. -/
theorem Number.MagnitudeSpelled.exists_head (h : n.MagnitudeSpelled cs) :
    ∃ d tail, cs = d :: tail ∧ d.isDigit := by
  obtain ⟨⟨hne, hds⟩, -, -, -⟩ := h
  cases hw : n.whole with
  | nil => exact absurd hw hne
  | cons d ds => exact ⟨d, _, rfl, hds d (hw ▸ List.mem_cons_self)⟩

/-- **A token is read back** from any of its spellings, before a text into which no number goes on. -/
theorem lexeme_spelled (ht : t.Spelled cs) (hrest : t.IsScalar → Apart rest) :
    ∃ c tail, cs = c :: tail ∧ isSpace c = false ∧ lexeme c (tail ++ rest) = (t, rest) := by
  cases ht with
  | null => exact ⟨_, _, rfl, by decide, wordToken_append .null ['u', 'l', 'l'] rest⟩
  | yes => exact ⟨_, _, rfl, by decide, wordToken_append (.bool true) ['r', 'u', 'e'] rest⟩
  | no => exact ⟨_, _, rfl, by decide, wordToken_append (.bool false) ['a', 'l', 's', 'e'] rest⟩
  | text h =>
    refine ⟨_, _, rfl, by decide, ?_⟩
    rw [lexeme, List.append_assoc, List.singleton_append, Text.body_spelled h]
  | @number n cs h =>
    have hbody := numberBody_spelled h (hrest ⟨_, rfl⟩)
    by_cases hneg : n.negative = true
    · rw [if_pos hneg]
      refine ⟨_, _, rfl, by decide, ?_⟩
      rw [lexeme, numberToken, ← hneg, hbody]
    · rw [if_neg hneg]
      obtain ⟨d, tail, rfl, hd⟩ := h.exists_head
      rw [Bool.not_eq_true] at hneg
      refine ⟨d, tail, rfl, ?_, ?_⟩
      · by_contra hspace
        rw [Bool.not_eq_false] at hspace
        simp only [isSpace, Bool.or_eq_true, beq_iff_eq] at hspace
        rcases hspace with ((rfl | rfl) | rfl) | rfl <;> exact absurd hd (by decide)
      · rw [lexeme_digit hd, numberToken, ← hneg, ← List.cons_append, hbody]
  | _ => exact ⟨_, _, rfl, by decide, rfl⟩

/-- **A token that is read was spelled.** -/
theorem exists_spelled (h : (lexeme c cs).1.IsWhole) :
    ∃ front, c :: cs = front ++ (lexeme c cs).2 ∧ (lexeme c cs).1.Spelled front := by
  -- the digits come first: no other character begins more than one kind of token
  by_cases hd : c.isDigit
  · rw [lexeme_digit hd] at h ⊢
    obtain ⟨n, front, hneg, hcs, hfront, htoken⟩ := exists_spelled_numberToken h
    refine ⟨front, hcs, ?_⟩
    have hspelled : Token.Spelled (.scalar (.number n)) _ := .number hfront
    rwa [hneg, if_neg Bool.false_ne_true, ← htoken] at hspelled
  · unfold lexeme at h ⊢
    split at h
    next => exact ⟨_, rfl, .openArray⟩
    next => exact ⟨_, rfl, .closeArray⟩
    next => exact ⟨_, rfl, .openObject⟩
    next => exact ⟨_, rfl, .closeObject⟩
    next => exact ⟨_, rfl, .colon⟩
    next => exact ⟨_, rfl, .comma⟩
    next =>
      have hstop : (Text.body cs).1.stop = none := h
      obtain ⟨front, hcs, hfront⟩ := Text.exists_spelled cs hstop
      have hspelled : Token.Spelled (.scalar (.text ⟨(Text.body cs).1.pieces, none⟩)) _ :=
        .text hfront
      rw [← hstop] at hspelled
      exact ⟨_, by simp [← hcs], hspelled⟩
    next =>
      obtain ⟨hcs, htoken⟩ := eq_append_of_wordToken h
      exact ⟨['n', 'u', 'l', 'l'], congrArg ('n' :: ·) hcs, htoken ▸ .null⟩
    next =>
      obtain ⟨hcs, htoken⟩ := eq_append_of_wordToken h
      exact ⟨['t', 'r', 'u', 'e'], congrArg ('t' :: ·) hcs, htoken ▸ .yes⟩
    next =>
      obtain ⟨hcs, htoken⟩ := eq_append_of_wordToken h
      exact ⟨['f', 'a', 'l', 's', 'e'], congrArg ('f' :: ·) hcs, htoken ▸ .no⟩
    next =>
      obtain ⟨n, front, hneg, hcs, hfront, htoken⟩ := exists_spelled_numberToken h
      refine ⟨'-' :: front, congrArg ('-' :: ·) hcs, ?_⟩
      have hspelled : Token.Spelled (.scalar (.number n)) _ := .number hfront
      rwa [hneg, if_pos rfl, ← htoken] at hspelled
    next =>
      rw [if_neg hd] at h
      cases h

/-! ## Texts -/

theorem tokens_of_dropWhile (h : cs.dropWhile isSpace = c :: rest) :
    tokens cs = (lexeme c rest).1 :: tokens (lexeme c rest).2 := by
  rw [tokens]
  split
  next hdrop => rw [h] at hdrop; cases hdrop
  next hdrop => rw [h] at hdrop; cases hdrop; rfl

theorem tokens_eq_nil (h : cs.dropWhile isSpace = []) : tokens cs = [] := by
  rw [tokens]
  split
  next => rfl
  next hdrop => rw [h] at hdrop; cases hdrop

/-- Blanks before a text are no tokens. -/
theorem tokens_append {blanks : List Char} (h : ∀ c ∈ blanks, isSpace c) (cs : List Char) :
    tokens (blanks ++ cs) = tokens cs := by
  have hdrop : (blanks ++ cs).dropWhile isSpace = cs.dropWhile isSpace :=
    List.dropWhile_append_of_pos h
  cases hcs : cs.dropWhile isSpace with
  | nil => rw [tokens_eq_nil hcs, tokens_eq_nil (hdrop.trans hcs)]
  | cons c rest => rw [tokens_of_dropWhile hcs, tokens_of_dropWhile (hdrop.trans hcs)]

/-- No number goes on into a text that begins with a mark, or with no token. -/
theorem TokensSpelled.apart (h : TokensSpelled ts cs) (hts : ∀ t ∈ ts.head?, ¬ t.IsScalar) :
    Apart cs := by
  have hspace : ∀ {c}, isSpace c → isNumberPart c = false := by
    intro c hc
    simp only [isSpace, Bool.or_eq_true, beq_iff_eq] at hc
    rcases hc with ((rfl | rfl) | rfl) | rfl <;> decide
  cases h with
  | nil hblanks =>
    cases cs with
    | nil => exact apart_nil
    | cons c cs => exact apart_cons (hspace (hblanks c List.mem_cons_self)) cs
  | @cons t ts blanks cs rest hblanks ht _ =>
    cases blanks with
    | cons c blanks => exact apart_cons (hspace (hblanks c List.mem_cons_self)) _
    | nil =>
      have hmark : ¬ t.IsScalar := hts t rfl
      cases ht with
      | openArray | closeArray | openObject | closeObject | colon | comma =>
        exact apart_cons (by decide) _
      | _ => exact absurd ⟨_, rfl⟩ hmark

/-- **A text has the tokens that it spells**, if no scalar comes right after another. -/
theorem tokens_spelled (h : TokensSpelled ts cs) (hts : Separated ts) : tokens cs = ts := by
  induction h with
  | @nil blanks hblanks =>
    have hnone := tokens_append hblanks []
    rw [List.append_nil] at hnone
    rw [hnone, tokens]
    rfl
  | @cons t ts blanks cs rest hblanks ht hrest ih =>
    obtain ⟨hnext, hts⟩ := List.isChain_cons.1 hts
    have hapart : t.IsScalar → Apart rest := fun hs =>
      hrest.apart fun u hu hu' => hnext u hu ⟨hs, hu'⟩
    obtain ⟨c, tail, rfl, hspace, hlexeme⟩ := lexeme_spelled ht hapart
    rw [tokens_append hblanks, List.cons_append, tokens_cons hspace, hlexeme, ih hts]

/-- **A text spells its tokens**, if each of them says what it is. -/
theorem spelled_tokens (cs : List Char) (h : ∀ t ∈ tokens cs, t.IsWhole) :
    TokensSpelled (tokens cs) cs := by
  -- the induction is on the text: each token leaves a shorter one
  fun_induction tokens cs with
  | case1 cs hdrop =>
    have hsplit := List.takeWhile_append_dropWhile (p := isSpace) (l := cs)
    rw [hdrop, List.append_nil] at hsplit
    exact .nil fun c hc => List.mem_takeWhile_imp (hsplit.symm ▸ hc)
  | case2 cs c rest hdrop ih =>
    have hsplit := List.takeWhile_append_dropWhile (p := isSpace) (l := cs)
    obtain ⟨front, hfront, ht⟩ := exists_spelled (h _ List.mem_cons_self)
    rw [hdrop, hfront] at hsplit
    rw [← hsplit]
    exact .cons (fun c hc => List.mem_takeWhile_imp hc) ht
      (ih fun t ht => h t (List.mem_cons_of_mem _ ht))

/-- **The tokens of a text are those that it spells**, where each says what it is and no scalar comes
right after another. -/
theorem tokens_eq_iff (hwhole : ∀ t ∈ ts, t.IsWhole) (hts : Separated ts) :
    tokens cs = ts ↔ TokensSpelled ts cs := by
  constructor
  · rintro rfl
    exact spelled_tokens cs hwhole
  · exact fun h => tokens_spelled h hts

end Json

end DataLineage
