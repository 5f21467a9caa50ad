import DataLineage.Decimal.Reading

/-!
# JSON tokens

A text is cut into punctuation and scalars. Cutting never fails: where a token ends too early or
cannot be one, a broken token takes its place and nothing follows it.

* `Token.length_lexeme`: a token takes at least its first character from the text.
-/

namespace DataLineage.Json

/-- How a text can fail to be JSON at a place: it ends, or something else stands there. -/
inductive Break where
  | ended
  | malformed
  deriving DecidableEq, Repr, Inhabited

/-- A part of a string as written: a character, or a UTF-16 unit given by its number. -/
inductive Piece where
  | char (c : Char)
  | unit (n : Nat)
  deriving DecidableEq, Repr

/-- A string as written, up to its closing quote or to where it breaks off. -/
structure Text where
  pieces : List Piece
  stop : Option Break
  deriving DecidableEq, Repr

/-- A number as written. -/
structure Number where
  negative : Bool
  whole : List Char
  fraction : Option (List Char)
  /-- Whether the exponent is negative, and its digits. -/
  exponent : Option (Bool × List Char)
  deriving DecidableEq, Repr

inductive Scalar where
  | null
  | bool (b : Bool)
  | number (n : Number)
  /-- A number that lacks digits at the end of the text. -/
  | cutNumber
  /-- The start of a word at the end of the text. -/
  | cutWord
  | text (t : Text)
  | broken (b : Break)
  deriving DecidableEq, Repr

inductive Token where
  | openArray
  | closeArray
  | openObject
  | closeObject
  | colon
  | comma
  | scalar (s : Scalar)
  deriving DecidableEq, Repr

/-- The characters that may stand between tokens. -/
def isSpace (c : Char) : Bool := c == ' ' || c == '\n' || c == '\r' || c == '\t'

/-- The UTF-16 unit with these four hexadecimal digits. -/
def hexUnit? (a b c d : Char) : Option Nat := natInBase? 16 [a, b, c, d]

/-- The character that a backslash and this letter stand for. -/
def escaped? (c : Char) : Option Char :=
  match c with
  | '"' => some '"'
  | '\\' => some '\\'
  | '/' => some '/'
  | 'b' => some '\x08'
  | 'f' => some '\x0c'
  | 'n' => some '\n'
  | 'r' => some '\r'
  | 't' => some '\t'
  | _ => none

/-- The number of bytes a text takes in UTF-8. -/
def utf8Length (cs : List Char) : Nat := cs.foldl (fun n c => n + c.utf8Size) 0

/-- A string that breaks off here, with nothing after it. -/
def Text.stopped (b : Break) : Text × List Char := (⟨[], some b⟩, [])

/-- Puts a piece in front of a string. -/
def Text.cons (p : Piece) (t : Text × List Char) : Text × List Char :=
  (⟨p :: t.1.pieces, t.1.stop⟩, t.2)

/-- Reads a string after its opening quote. A `\u` needs four bytes after it to be told apart from
the end of the text. -/
def Text.body : List Char → Text × List Char
  | [] => stopped .ended
  | '"' :: rest => (⟨[], none⟩, rest)
  | ['\\'] => stopped .ended
  | '\\' :: 'u' :: a :: b :: c :: d :: rest =>
    match hexUnit? a b c d with
    | some n => cons (.unit n) (body rest)
    | none => stopped .malformed
  | '\\' :: 'u' :: rest => stopped (if utf8Length rest < 4 then .ended else .malformed)
  | '\\' :: c :: rest =>
    match escaped? c with
    | some c => cons (.char c) (body rest)
    | none => stopped .malformed
  | c :: rest => if c.val < 0x20 then stopped .malformed else cons (.char c) (body rest)

/-- The digits at the start of a text, and the rest. -/
def digitRun (cs : List Char) : List Char × List Char :=
  (cs.takeWhile Char.isDigit, cs.dropWhile Char.isDigit)

/-- At least one digit. -/
def digits1 (cs : List Char) : Except Break (List Char × List Char) :=
  match digitRun cs with
  | ([], []) => .error .ended
  | ([], _ :: _) => .error .malformed
  | run => .ok run

/-- The exponent of a number, if the text goes on with one. -/
def exponentPart (cs : List Char) : Except Break (Option (Bool × List Char) × List Char) :=
  match cs with
  | c :: rest =>
    if c = 'e' ∨ c = 'E' then
      (digits1 (takeSign rest).2).map fun (ds, after) => (some ((takeSign rest).1, ds), after)
    else .ok (none, cs)
  | [] => .ok (none, [])

/-- The fraction of a number, if the text goes on with one. -/
def fractionPart (cs : List Char) : Except Break (Option (List Char) × List Char) :=
  match cs with
  | '.' :: rest => (digits1 rest).map fun (ds, rest) => (some ds, rest)
  | cs => .ok (none, cs)

/-- A number after its sign. A zero in front is the only digit before the point. -/
def numberBody (negative : Bool) (cs : List Char) : Except Break (Number × List Char) := do
  let (whole, rest) ← digits1 cs
  if whole.head? = some '0' ∧ 1 < whole.length then throw .malformed
  let (fraction, rest) ← fractionPart rest
  let (exponent, rest) ← exponentPart rest
  pure (⟨negative, whole, fraction, exponent⟩, rest)

def numberToken (negative : Bool) (cs : List Char) : Token × List Char :=
  match numberBody negative cs with
  | .ok (n, rest) => (.scalar (.number n), rest)
  | .error .ended => (.scalar .cutNumber, [])
  | .error .malformed => (.scalar (.broken .malformed), [])

/-- What follows a word that the text has to go on with. -/
def afterWord : List Char → List Char → Except Break (List Char)
  | [], cs => .ok cs
  | _ :: _, [] => .error .ended
  | w :: ws, c :: cs => if w = c then afterWord ws cs else .error .malformed

def wordToken (s : Scalar) (word cs : List Char) : Token × List Char :=
  match afterWord word cs with
  | .ok rest => (.scalar s, rest)
  | .error .ended => (.scalar .cutWord, [])
  | .error .malformed => (.scalar (.broken .malformed), [])

/-- The token that starts with a character, and the text after it. -/
def lexeme (c : Char) (cs : List Char) : Token × List Char :=
  match c with
  | '[' => (.openArray, cs)
  | ']' => (.closeArray, cs)
  | '\x7b' => (.openObject, cs)
  | '\x7d' => (.closeObject, cs)
  | ':' => (.colon, cs)
  | ',' => (.comma, cs)
  | '"' =>
    let (t, rest) := Text.body cs
    (.scalar (.text t), rest)
  | 'n' => wordToken .null ['u', 'l', 'l'] cs
  | 't' => wordToken (.bool true) ['r', 'u', 'e'] cs
  | 'f' => wordToken (.bool false) ['a', 'l', 's', 'e'] cs
  | '-' => numberToken true cs
  | c => if c.isDigit then numberToken false (c :: cs) else (.scalar (.broken .malformed), [])

theorem Text.length_body (cs : List Char) : (body cs).2.length ≤ cs.length := by
  fun_induction body cs <;> simp_all [stopped, cons] <;> omega

theorem length_digits1 {cs : List Char} {run : List Char × List Char} (h : digits1 cs = .ok run) :
    run.2.length < cs.length := by
  have hlen := congrArg List.length (List.takeWhile_append_dropWhile (p := Char.isDigit) (l := cs))
  unfold digits1 digitRun at h
  split at h
  · cases h
  · cases h
  · cases h
    rename_i h1 h2
    have : cs.takeWhile Char.isDigit ≠ [] := by
      intro h0
      cases hd : cs.dropWhile Char.isDigit with
      | nil => exact h1 (by rw [h0, hd])
      | cons d r => exact h2 d r (by rw [h0, hd])
    have := List.length_pos_iff.2 this
    simp only [List.length_append] at hlen
    simp only
    omega

theorem length_fractionPart {cs : List Char} {r : Option (List Char) × List Char}
    (h : fractionPart cs = .ok r) : r.2.length ≤ cs.length := by
  unfold fractionPart at h
  split at h
  · cases hd : digits1 _ with
    | error b => rw [hd] at h; cases h
    | ok run =>
      have := length_digits1 hd
      rw [hd] at h
      cases h
      simp only [List.length_cons]
      omega
  · cases h; exact Nat.le_refl _

theorem length_exponentPart {cs : List Char} {r : Option (Bool × List Char) × List Char}
    (h : exponentPart cs = .ok r) : r.2.length ≤ cs.length := by
  unfold exponentPart at h
  split at h
  · split at h
    · rename_i rest _
      cases hd : digits1 (takeSign rest).2 with
      | error b => rw [hd] at h; cases h
      | ok run =>
        have h1 := length_digits1 hd
        have h2 := length_takeSign rest
        rw [hd] at h
        cases h
        simp only [List.length_cons]
        omega
    · cases h; exact Nat.le_refl _
  · cases h; exact Nat.le_refl _

theorem length_numberBody {negative : Bool} {cs : List Char} {r : Number × List Char}
    (h : numberBody negative cs = .ok r) : r.2.length < cs.length := by
  unfold numberBody at h
  cases h1 : digits1 cs with
  | error b => rw [h1] at h; cases h
  | ok run =>
    have l1 := length_digits1 h1
    rw [h1] at h
    simp only [bind, Except.bind] at h
    split at h
    · cases h
    · cases h2 : fractionPart run.2 with
      | error b => rw [h2] at h; cases h
      | ok f =>
        have l2 := length_fractionPart h2
        rw [h2] at h
        simp only at h
        cases h3 : exponentPart f.2 with
        | error b => rw [h3] at h; cases h
        | ok e =>
          have l3 := length_exponentPart h3
          rw [h3] at h
          cases h
          simp only
          omega

theorem length_afterWord {ws cs rest : List Char} (h : afterWord ws cs = .ok rest) :
    rest.length ≤ cs.length := by
  fun_induction afterWord ws cs <;> simp_all
  exact Nat.le_succ_of_le ‹_›

theorem length_wordToken (s : Scalar) (word cs : List Char) :
    (wordToken s word cs).2.length ≤ cs.length := by
  unfold wordToken
  split
  next h => exact length_afterWord h
  all_goals exact Nat.zero_le _

/-- A token takes at least its first character from the text. -/
theorem length_lexeme (c : Char) (cs : List Char) : (lexeme c cs).2.length ≤ cs.length := by
  unfold lexeme
  split
  all_goals first
    | exact Nat.le_refl _
    | exact Text.length_body cs
    | exact length_wordToken ..
    | skip
  · unfold numberToken
    split
    next h => exact Nat.le_of_lt (length_numberBody h)
    all_goals exact Nat.zero_le _
  · split
    · unfold numberToken
      split
      next h => exact Nat.lt_succ_iff.1 (length_numberBody h)
      all_goals exact Nat.zero_le _
    · exact Nat.zero_le _

/-- The tokens of a text. -/
def tokens (cs : List Char) : List Token :=
  match _h : cs.dropWhile isSpace with
  | [] => []
  | c :: rest => (lexeme c rest).1 :: tokens (lexeme c rest).2
termination_by cs.length
decreasing_by
  have h1 := length_lexeme c rest
  have h2 := (List.dropWhile_sublist isSpace (l := cs)).length_le
  rw [_h, List.length_cons] at h2
  omega

end DataLineage.Json
