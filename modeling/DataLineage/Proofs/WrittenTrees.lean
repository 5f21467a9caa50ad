import DataLineage.Json.Decode
import DataLineage.Json.Tree
import Mathlib.Data.Nat.Notation

/-!
# Trees as they are written

The compact text of a tree is read back as a value without holes, from the first character to the
last. Inside quotes each character comes back as one piece: as itself, or as the number of its
UTF-16 unit where it is a control character without a letter of its own.

* `Json.Text.body_writeText`: a text between quotes.
* `Json.State.after_write`: a tree within open arrays and objects, whatever follows it.
* `Json.ofChars_write`: a tree as a document.
-/

namespace DataLineage

namespace Json

variable {c : Char} {cs rest : List Char} {stack : List Frame}

/-! ## Texts -/

/-- The piece as which a character that was written comes back. -/
def Piece.ofChar (c : Char) : Piece :=
  if c.val < 0x20 ∧ c ∉ ['\x08', '\x0c', '\n', '\r', '\t'] then .unit c.toNat else .char c

/-- A text as it comes back. -/
def Text.ofString (s : String) : Text := ⟨s.toList.map Piece.ofChar, none⟩

/-- Two hexadecimal digits after two zeros are enough for a control character. -/
theorem hexUnit?_control : ∀ n < 0x20,
    hexUnit? '0' '0' (Nat.digitChar (n / 16)) (Nat.digitChar (n % 16)) = some n := by decide

/-- A character that is neither a mark nor a control character comes back as itself. -/
theorem Text.body_cons (hquote : c ≠ '"') (hmark : c ≠ '\\') (hc : ¬ c.val < 0x20)
    (rest : List Char) : body (c :: rest) = cons (.char c) (body rest) := by
  rw [body, if_neg hc] <;> simp_all

/-- **A character comes back as one piece**, whatever follows it. -/
theorem Text.body_writeChar (c : Char) (rest : List Char) :
    body (writeChar c ++ rest) = cons (.ofChar c) (body rest) := by
  unfold writeChar
  split
  -- the characters that have a letter or a mark of their own
  iterate 7
    · rfl
  next hquote hmark hb hf hn hr ht =>
    split
    next hc =>
      have hunit := hexUnit?_control c.toNat hc
      have hpiece : Piece.ofChar c = .unit c.toNat := if_pos ⟨hc, by simp_all⟩
      rw [hpiece]
      simp only [List.cons_append, List.nil_append, body, hunit]
    next hc =>
      have hpiece : Piece.ofChar c = .char c := if_neg fun h => hc h.1
      rw [hpiece]
      exact body_cons hquote hmark hc rest

/-- **A text comes back from between its quotes.** -/
theorem Text.body_writeText (s : String) (rest : List Char) :
    body (s.toList.flatMap writeChar ++ '"' :: rest) = (ofString s, rest) := by
  rw [ofString]
  induction s.toList with
  | nil => rfl
  | cons c cs ih => rw [List.flatMap_cons, List.append_assoc, body_writeChar, ih]; rfl

/-- The pieces are put together to the characters they came from. -/
theorem decodePieces_ofChar (cs : List Char) :
    decodePieces none (cs.map Piece.ofChar) = .ok cs := by
  induction cs with
  | nil => rfl
  | cons c cs ih =>
    rw [List.map_cons, Piece.ofChar]
    split
    next hc =>
      have hlow : c.toNat < 0x20 := hc.1
      have hleading : isLeading c.toNat = false := by
        simp [isLeading]
        omega
      have htrailing : isTrailing c.toNat = false := by
        simp [isTrailing]
        omega
      rw [decodePieces.eq_def]
      simp only [htrailing, hleading, ih, Char.ofNat_toNat]
      rfl
    next =>
      rw [decodePieces, ih]
      rfl

theorem Text.decode_ofString (s : String) : (ofString s).decode = .ok s := by
  rw [decode, ofString, decodePieces_ofChar]
  exact congrArg Except.ok String.ofList_toList

/-! ## Trees -/

mutual

/-- The value that a tree comes back as. -/
def Tree.value : Tree → Value
  | .null => .scalar .null
  | .text s => .scalar (.text (.ofString s))
  | .array items => .array (itemValues items) none
  | .object members => .object (memberValues members) none

def itemValues : List Tree → List Value
  | [] => []
  | v :: rest => v.value :: itemValues rest

def memberValues : List (String × Tree) → List (Text × Value)
  | [] => []
  | (name, v) :: rest => (.ofString name, v.value) :: memberValues rest

end

theorem tokens_cons (h : isSpace c = false) (cs : List Char) :
    tokens (c :: cs) = (lexeme c cs).1 :: tokens (lexeme c cs).2 := by
  have hdrop : (c :: cs).dropWhile isSpace = c :: cs := List.dropWhile_cons_of_neg (by simp [h])
  rw [tokens]
  split
  next hnil => rw [hdrop] at hnil; cases hnil
  next d rest hcons => rw [hdrop] at hcons; cases hcons; rfl

/-- The state that the rest of a text leads to. -/
def State.after (s : State) (cs : List Char) : State := (tokens cs).foldl step s

theorem State.after_mark (c : Char) {t : Token} (s : State) (h : isSpace c = false)
    (hl : lexeme c cs = (t, cs)) : s.after (c :: cs) = (step s t).after cs := by
  rw [after, tokens_cons h, hl]
  rfl

theorem State.after_writeText (s : State) (text : String) (rest : List Char) :
    s.after (writeText text ++ rest) = (step s (.scalar (.text (.ofString text)))).after rest := by
  have hwrite : writeText text ++ rest = '"' :: (text.toList.flatMap writeChar ++ '"' :: rest) := by
    simp [writeText]
  have hlexeme : lexeme '"' (text.toList.flatMap writeChar ++ '"' :: rest) =
      (.scalar (.text (.ofString text)), rest) := by
    rw [lexeme, Text.body_writeText]
  rw [hwrite, after, tokens_cons (by decide), hlexeme]
  rfl

/-- A tree starts with a token that closes no array. -/
theorem exists_tokens_write (v : Tree) (rest : List Char) :
    ∃ t ts, tokens (v.write ++ rest) = t :: ts ∧ t ≠ .closeArray := by
  cases v with
  | null => exact ⟨_, _, tokens_cons (by decide) _, by simp [lexeme, wordToken, afterWord]⟩
  | text s => exact ⟨_, _, tokens_cons (by decide) _, by simp [lexeme]⟩
  | array items => cases items <;> exact ⟨_, _, tokens_cons (by decide) _, by simp [lexeme]⟩
  | object members => cases members <;> exact ⟨_, _, tokens_cons (by decide) _, by simp [lexeme]⟩

/-- The first item of an array is read as any other value. -/
theorem State.after_firstItem (v : Tree) (stack : List Frame) (rest : List Char) :
    (firstItem stack).after (v.write ++ rest) =
      (value (.array [] :: stack)).after (v.write ++ rest) := by
  obtain ⟨t, ts, htokens, hclose⟩ := exists_tokens_write v rest
  have hstep : step (firstItem stack) t = step (value (.array [] :: stack)) t := if_neg hclose
  rw [after, after, htokens, List.foldl_cons, List.foldl_cons, hstep]

/-- A member is read after the mark before its name, once its value is. -/
theorem State.after_member {s : State} {key : String} {v : Tree} (members : List (Text × Value))
    (hs : step s (.scalar (.text (.ofString key))) = .colon members (.ofString key) stack)
    (hv : ∀ stack rest, (value stack).after (v.write ++ rest) = (put v.value stack).after rest)
    (rest : List Char) :
    s.after (writeText key ++ ':' :: (v.write ++ rest)) =
      (afterMember (members ++ [(.ofString key, v.value)]) stack).after rest := by
  calc s.after (writeText key ++ ':' :: (v.write ++ rest))
      = (colon members (.ofString key) stack).after (':' :: (v.write ++ rest)) := by
        rw [after_writeText, hs]
    _ = (value (.object members (.ofString key) :: stack)).after (v.write ++ rest) :=
        after_mark ':' _ (by decide) rfl
    _ = (afterMember (members ++ [(.ofString key, v.value)]) stack).after rest := hv _ _

-- The induction is on the tree, for any stack and any text after it: to the first item of an array
-- the other items are such a text, and the array itself is on the stack.
mutual

/-- **A tree comes back as its value**, within open arrays and objects and whatever follows it. -/
theorem State.after_write (v : Tree) (stack : List Frame) (rest : List Char) :
    (value stack).after (v.write ++ rest) = (put v.value stack).after rest := by
  match v with
  | .null =>
    have htoken : tokens (Tree.null.write ++ rest) = .scalar .null :: tokens rest :=
      tokens_cons (by decide) _
    rw [after, htoken]
    rfl
  | .text s =>
    rw [Tree.write, after_writeText]
    rfl
  | .array [] => exact (after_mark '[' _ (by decide) rfl).trans (after_mark ']' _ (by decide) rfl)
  | .array (v :: vs) =>
    rw [Tree.write, List.cons_append, List.cons_append, List.append_assoc]
    calc (value stack).after ('[' :: (v.write ++ (writeItems vs ++ rest)))
        = (firstItem stack).after (v.write ++ (writeItems vs ++ rest)) :=
          after_mark '[' _ (by decide) rfl
      _ = (value (.array [] :: stack)).after (v.write ++ (writeItems vs ++ rest)) :=
          after_firstItem v stack _
      _ = (afterItem [v.value] stack).after (writeItems vs ++ rest) := after_write v _ _
      _ = (put (.array (v.value :: itemValues vs) none) stack).after rest :=
          after_writeItems vs [v.value] stack rest
  | .object [] =>
    exact (after_mark '\x7b' _ (by decide) rfl).trans (after_mark '\x7d' _ (by decide) rfl)
  | .object ((key, v) :: vs) =>
    have htext : (Tree.object ((key, v) :: vs)).write ++ rest =
        '\x7b' :: (writeText key ++ ':' :: (v.write ++ (writeMembers vs ++ rest))) := by
      simp [Tree.write]
    rw [htext]
    calc (value stack).after
          ('\x7b' :: (writeText key ++ ':' :: (v.write ++ (writeMembers vs ++ rest))))
        = (firstName stack).after
          (writeText key ++ ':' :: (v.write ++ (writeMembers vs ++ rest))) :=
          after_mark '\x7b' _ (by decide) rfl
      _ = (afterMember [(.ofString key, v.value)] stack).after (writeMembers vs ++ rest) :=
          after_member [] rfl (after_write v) _
      _ = (put (.object ((.ofString key, v.value) :: memberValues vs) none) stack).after rest :=
          after_writeMembers vs [(.ofString key, v.value)] stack rest

/-- The items of an array after some, and its closing mark. -/
theorem State.after_writeItems (vs : List Tree) (items : List Value) (stack : List Frame)
    (rest : List Char) :
    (afterItem items stack).after (writeItems vs ++ rest) =
      (put (.array (items ++ itemValues vs) none) stack).after rest := by
  match vs with
  | [] =>
    rw [itemValues, List.append_nil]
    exact after_mark ']' _ (by decide) rfl
  | v :: vs =>
    rw [writeItems, List.cons_append, List.cons_append, List.append_assoc, itemValues,
      List.append_cons]
    calc (afterItem items stack).after (',' :: (v.write ++ (writeItems vs ++ rest)))
        = (value (.array items :: stack)).after (v.write ++ (writeItems vs ++ rest)) :=
          after_mark ',' _ (by decide) rfl
      _ = (afterItem (items ++ [v.value]) stack).after (writeItems vs ++ rest) := after_write v _ _
      _ = (put (.array (items ++ [v.value] ++ itemValues vs) none) stack).after rest :=
          after_writeItems vs _ stack rest

/-- The members of an object after some, and its closing mark. -/
theorem State.after_writeMembers (vs : List (String × Tree)) (members : List (Text × Value))
    (stack : List Frame) (rest : List Char) :
    (afterMember members stack).after (writeMembers vs ++ rest) =
      (put (.object (members ++ memberValues vs) none) stack).after rest := by
  match vs with
  | [] =>
    rw [memberValues, List.append_nil]
    exact after_mark '\x7d' _ (by decide) rfl
  | (key, v) :: vs =>
    have htext : writeMembers ((key, v) :: vs) ++ rest =
        ',' :: (writeText key ++ ':' :: (v.write ++ (writeMembers vs ++ rest))) := by
      simp [writeMembers]
    rw [htext, memberValues, List.append_cons members]
    calc (afterMember members stack).after
          (',' :: (writeText key ++ ':' :: (v.write ++ (writeMembers vs ++ rest))))
        = (name members stack).after
          (writeText key ++ ':' :: (v.write ++ (writeMembers vs ++ rest))) :=
          after_mark ',' _ (by decide) rfl
      _ = (afterMember (members ++ [(.ofString key, v.value)]) stack).after
          (writeMembers vs ++ rest) := after_member members rfl (after_write v) _
      _ = (put (.object (members ++ [(.ofString key, v.value)] ++ memberValues vs) none)
          stack).after rest := after_writeMembers vs _ stack rest

end

/-- **A tree as a document** comes back as its value, with nothing after it. -/
theorem ofChars_write (v : Tree) : Document.ofChars v.write = ⟨v.value, false⟩ := by
  have hread := State.after_write v [] []
  rw [List.append_nil] at hread
  have hend : (put v.value []).after [] = .done ⟨v.value, false⟩ := by
    rw [State.after, tokens]
    rfl
  have hall : Document.ofChars v.write = finish ((State.value []).after v.write) := rfl
  rw [hall, hread, hend, finish]

end Json

end DataLineage
