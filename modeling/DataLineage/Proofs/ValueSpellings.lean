import DataLineage.Proofs.TokenSpellings

/-!
# How JSON values are spelled

A value without a break has its tokens, in order and with commas between the parts of an array or
object. A text spells the value when it spells these tokens. Reading a text takes its tokens one by
one, and what it holds at any time, in open arrays and objects, is made of exactly the tokens taken
so far; where that fails, the document ends with a break.

* `Json.takes_step`, `Json.takes_foldl`: one more token, or a document that is no JSON.
* `Json.isRead`: the tokens of a value are read as the value.
* `Json.ofChars_eq_iff`: **a document is read as a value exactly when it spells the value.**
-/

namespace DataLineage

namespace Json

/-! ## The tokens of a value -/

/-- Parts with commas between them. -/
def joined : List (List Token) → List Token
  | [] => []
  | part :: rest => part ++ rest.flatMap (.comma :: ·)

/-- Parts with a comma after each. -/
def followed (parts : List (List Token)) : List Token := parts.flatMap (· ++ [.comma])

mutual

/-- The tokens of a value that breaks off nowhere. -/
def Value.tokens : Value → List Token
  | .scalar s => [.scalar s]
  | .array items _ => .openArray :: (joined (itemTokens items) ++ [.closeArray])
  | .object members _ => .openObject :: (joined (memberTokens members) ++ [.closeObject])
  | .unnamed _ => []

def itemTokens : List Value → List (List Token)
  | [] => []
  | v :: rest => v.tokens :: itemTokens rest

def memberTokens : List (Text × Value) → List (List Token)
  | [] => []
  | (name, v) :: rest => (.scalar (.text name) :: .colon :: v.tokens) :: memberTokens rest

end

/-- **The spellings of a value**: those of its tokens, if it breaks off nowhere. -/
def Value.Spelled (v : Value) (cs : List Char) : Prop := v.break? = none ∧ TokensSpelled v.tokens cs

/-- The tokens of a member of an object. -/
def partTokens (m : Text × Value) : List Token := .scalar (.text m.1) :: .colon :: m.2.tokens

variable {v : Value} {items : List Value} {members : List (Text × Value)} {stop : Option Break}
  {stack : List Frame} {s : State} {t : Token} {ts us : List Token} {cs : List Char}
  {parts : List (List Token)}

theorem itemTokens_eq (items : List Value) : itemTokens items = items.map Value.tokens := by
  induction items with
  | nil => rfl
  | cons v items ih => rw [itemTokens, ih, List.map_cons]

theorem memberTokens_eq (members : List (Text × Value)) :
    memberTokens members = members.map partTokens := by
  induction members with
  | nil => rfl
  | cons m members ih => rw [memberTokens, ih, List.map_cons, partTokens]

theorem tokens_array (items : List Value) (stop : Option Break) :
    (Value.array items stop).tokens =
      .openArray :: (joined (items.map Value.tokens) ++ [.closeArray]) := by
  rw [Value.tokens, itemTokens_eq]

theorem tokens_object (members : List (Text × Value)) (stop : Option Break) :
    (Value.object members stop).tokens =
      .openObject :: (joined (members.map partTokens) ++ [.closeObject]) := by
  rw [Value.tokens, memberTokens_eq]

theorem joined_concat (parts : List (List Token)) (part : List Token) :
    joined (parts ++ [part]) = followed parts ++ part := by
  cases parts with
  | nil => simp [joined, followed]
  | cons first rest =>
    have hmove : first ++ rest.flatMap (.comma :: ·) ++ [.comma] =
        followed (first :: rest) := by
      rw [followed, List.flatMap_cons]
      induction rest generalizing first with
      | nil => simp
      | cons next rest ih => simpa using congrArg (first ++ .comma :: ·) (ih next)
    rw [← hmove, List.cons_append, joined, List.flatMap_append]
    simp

/-- With a comma after all of them, parts have one after each. -/
theorem joined_comma (h : parts ≠ []) : joined parts ++ [.comma] = followed parts := by
  obtain ⟨front, part, rfl⟩ := (List.eq_nil_or_concat' parts).resolve_left h
  rw [joined_concat, followed, followed, List.flatMap_append]
  simp

/-! ## Values without a break -/

/-- **Induction on a value**, by the items and members in it. -/
@[elab_as_elim]
theorem Value.rec_mem {motive : Value → Prop} (v : Value) (scalar : ∀ s, motive (.scalar s))
    (array : ∀ items stop, (∀ w ∈ items, motive w) → motive (.array items stop))
    (object : ∀ members stop, (∀ m ∈ members, motive m.2) → motive (.object members stop))
    (unnamed : ∀ first, motive (.unnamed first)) : motive v := by
  match v with
  | .scalar s => exact scalar s
  | .array items stop =>
    exact array items stop fun w hw => Value.rec_mem w scalar array object unnamed
  | .object members stop =>
    exact object members stop fun m hm => Value.rec_mem m.2 scalar array object unnamed
  | .unnamed first => exact unnamed first
termination_by v
decreasing_by
  · have := List.sizeOf_lt_of_mem hw
    simp only [Value.array.sizeOf_spec]
    omega
  · have hsize := List.sizeOf_lt_of_mem hm
    have hsnd : sizeOf m.2 < sizeOf m := by
      cases m
      simp only [Prod.mk.sizeOf_spec]
      omega
    simp only [Value.object.sizeOf_spec]
    omega

theorem itemsBreak?_eq_none_iff : itemsBreak? items = none ↔ ∀ v ∈ items, v.break? = none := by
  induction items with
  | nil => simp [itemsBreak?]
  | cons v items ih => simp [itemsBreak?, Option.or_eq_none_iff, ih]

theorem membersBreak?_eq_none_iff :
    membersBreak? members = none ↔ ∀ m ∈ members, m.1.stop = none ∧ m.2.break? = none := by
  induction members with
  | nil => simp [membersBreak?]
  | cons m members ih => simp [membersBreak?, Option.or_eq_none_iff, ih]

theorem break?_array : (Value.array items stop).break? = none ↔
    (∀ v ∈ items, v.break? = none) ∧ stop = none := by
  rw [Value.break?, Option.or_eq_none_iff, itemsBreak?_eq_none_iff]

theorem break?_object : (Value.object members stop).break? = none ↔
    (∀ m ∈ members, m.1.stop = none ∧ m.2.break? = none) ∧ stop = none := by
  rw [Value.break?, Option.or_eq_none_iff, membersBreak?_eq_none_iff]

theorem not_whole_broken (b : Break) : (Value.broken b).break? ≠ none := by
  simp [Value.broken, Value.break?, Scalar.break?]

/-! ## What is taken -/

/-- The tokens of the open arrays and objects, up to the value that is read now. -/
def stackTokens : List Frame → List Token
  | [] => []
  | .array items :: stack => stackTokens stack ++ .openArray :: followed (items.map Value.tokens)
  | .object members name :: stack =>
    stackTokens stack ++
      .openObject :: (followed (members.map partTokens) ++ [.scalar (.text name), .colon])

/-- **What a state has taken** from the tokens of a text. -/
def State.taken : State → List Token
  | .value stack => stackTokens stack
  | .firstItem stack => stackTokens stack ++ [.openArray]
  | .afterItem items stack => stackTokens stack ++ .openArray :: joined (items.map Value.tokens)
  | .firstName stack => stackTokens stack ++ [.openObject]
  | .name members stack => stackTokens stack ++ .openObject :: followed (members.map partTokens)
  | .colon members key stack =>
    stackTokens stack ++
      .openObject :: (followed (members.map partTokens) ++ [.scalar (.text key)])
  | .afterMember members stack =>
    stackTokens stack ++ .openObject :: joined (members.map partTokens)
  | .done d => d.value.tokens

/-- What follows an item or a member has one before it. -/
def State.Begun : State → Prop
  | .afterItem items _ => items ≠ []
  | .afterMember members _ => members ≠ []
  | _ => True

/-- The text is not JSON, or something follows its value. -/
def State.Failed (s : State) : Prop := ∃ d, s = .done d ∧ (d.trailing ∨ d.value.break? ≠ none)

/-- What a step from one state with a token has to lead to. -/
def Takes (before : List Token) (s : State) : Prop := s.Begun ∧ (s.Failed ∨ s.taken = before)

theorem takes_put (v : Value) (stack : List Frame) :
    Takes (stackTokens stack ++ v.tokens) (put v stack) := by
  unfold put
  split
  next => exact ⟨trivial, .inr rfl⟩
  next items stack =>
    refine ⟨by simp [State.Begun], .inr ?_⟩
    rw [State.taken, List.map_append, List.map_singleton, joined_concat, stackTokens,
      List.append_assoc, List.cons_append]
  next members name stack =>
    refine ⟨by simp [State.Begun], .inr ?_⟩
    rw [State.taken, List.map_append, List.map_singleton, joined_concat, stackTokens,
      List.append_assoc, List.cons_append, List.append_assoc]
    rfl

/-- A hole in a value is a hole in all that is around it. -/
theorem not_whole_unwind (hv : v.break? ≠ none) (stack : List Frame) :
    (unwind v stack).break? ≠ none := by
  induction stack generalizing v with
  | nil => exact hv
  | cons frame stack ih =>
    cases frame with
    | array items =>
      refine ih fun h => ?_
      cases (break?_array.1 h).2
    | object members name =>
      refine ih fun h => ?_
      cases (break?_object.1 h).2

theorem takes_fail (hv : v.break? ≠ none) (stack : List Frame) : Takes ts (fail v stack) :=
  ⟨trivial, .inl ⟨_, rfl, .inr (not_whole_unwind hv stack)⟩⟩

theorem not_whole_stopped_array (items : List Value) (b : Break) :
    (Value.array items (some b)).break? ≠ none := by
  intro h
  cases (break?_array.1 h).2

theorem not_whole_stopped_object (members : List (Text × Value)) (b : Break) :
    (Value.object members (some b)).break? ≠ none := by
  intro h
  cases (break?_object.1 h).2

/-- An object that lacks a member after a comma breaks off. -/
theorem not_whole_missing (members : List (Text × Value)) (b : Break) :
    (Value.object (members ++ [(.missing b, .broken b)]) none).break? ≠ none := by
  intro h
  have hlast := (break?_object.1 h).1 (.missing b, .broken b) (by simp)
  cases hlast.1

theorem takes_start (stack : List Frame) (t : Token) :
    Takes (stackTokens stack ++ [t]) (start stack t) := by
  cases t with
  | scalar s => exact takes_put (.scalar s) stack
  | openArray => exact ⟨trivial, .inr rfl⟩
  | openObject => exact ⟨trivial, .inr rfl⟩
  | _ => exact takes_fail (not_whole_broken .malformed) stack

/-- **A step takes its token**, or the text is not JSON. -/
theorem takes_step (hs : s.Begun) (t : Token) : Takes (s.taken ++ [t]) (step s t) := by
  cases s with
  | value stack => exact takes_start stack t
  | firstItem stack =>
    simp only [step]
    split
    next h =>
      have hput := takes_put (.array [] none) stack
      rw [h, State.taken, List.append_assoc]
      exact hput
    next => exact takes_start (.array [] :: stack) t
  | afterItem items stack =>
    simp only [step]
    split
    next h =>
      -- the comma is taken as the one after the last item, so there has to be one
      have hne : items.map Value.tokens ≠ [] := mt List.map_eq_nil_iff.1 hs
      refine ⟨trivial, .inr ?_⟩
      rw [h, State.taken, State.taken, stackTokens, ← joined_comma hne, List.append_assoc,
        List.cons_append]
    split
    next h =>
      have hput := takes_put (.array items none) stack
      rw [tokens_array] at hput
      rw [h, State.taken, List.append_assoc, List.cons_append]
      exact hput
    next => exact takes_fail (not_whole_stopped_array items .malformed) stack
  | firstName stack =>
    simp only [step]
    split
    next name => exact ⟨trivial, .inr (by simp [State.taken, followed])⟩
    next =>
      have hput := takes_put (.object [] none) stack
      rw [State.taken, List.append_assoc]
      exact hput
    next =>
      split
      next first hfirst => exact takes_fail (by simp [Value.break?]) stack
      next => exact takes_fail (not_whole_stopped_object [] .malformed) stack
  | name members stack =>
    simp only [step]
    split
    next name => exact ⟨trivial, .inr (by simp [State.taken])⟩
    next => exact takes_fail (not_whole_missing members .malformed) stack
  | colon members name stack =>
    simp only [step]
    split
    next h =>
      refine ⟨trivial, .inr ?_⟩
      rw [h, State.taken, State.taken, stackTokens, List.append_assoc, List.cons_append,
        List.append_assoc]
      rfl
    next => exact takes_fail (not_whole_broken .malformed) _
  | afterMember members stack =>
    simp only [step]
    split
    next h =>
      have hne : members.map partTokens ≠ [] := mt List.map_eq_nil_iff.1 hs
      refine ⟨trivial, .inr ?_⟩
      rw [h, State.taken, State.taken, ← joined_comma hne, List.append_assoc, List.cons_append]
    split
    next h =>
      have hput := takes_put (.object members none) stack
      rw [tokens_object] at hput
      rw [h, State.taken, List.append_assoc, List.cons_append]
      exact hput
    next => exact takes_fail (not_whole_stopped_object members .malformed) stack
  | done d => exact ⟨trivial, .inl ⟨_, rfl, .inl rfl⟩⟩

theorem State.Failed.step (h : s.Failed) (t : Token) : (step s t).Failed := by
  obtain ⟨d, rfl, -⟩ := h
  exact ⟨_, rfl, .inl rfl⟩

/-- **A run takes its tokens**, or the text is not JSON. -/
theorem takes_foldl (hs : Takes us s) (ts : List Token) : Takes (us ++ ts) (ts.foldl step s) := by
  induction ts generalizing s us with
  | nil => rwa [List.append_nil]
  | cons t ts ih =>
    -- a text that failed stays failed, whatever was taken
    have hstep : Takes (us ++ [t]) (step s t) := by
      obtain ⟨hbegun, hfailed | htaken⟩ := hs
      · exact ⟨(takes_step hbegun t).1, .inl (hfailed.step t)⟩
      · exact htaken ▸ takes_step hbegun t
    have hrest := ih hstep
    rwa [List.append_assoc] at hrest

/-- A text that ends too early breaks off. -/
theorem eq_done_of_finish (hv : (finish s).value.break? = none) : s = .done (finish s) := by
  cases s with
  | value stack => exact absurd hv (not_whole_unwind (not_whole_broken .ended) stack)
  | firstItem stack => exact absurd hv (not_whole_unwind (not_whole_stopped_array [] .ended) stack)
  | afterItem items stack =>
    exact absurd hv (not_whole_unwind (not_whole_stopped_array items .ended) stack)
  | firstName stack => exact absurd hv (not_whole_unwind (not_whole_stopped_object [] .ended) stack)
  | name members stack => exact absurd hv (not_whole_unwind (not_whole_missing members .ended) stack)
  | colon members name stack => exact absurd hv (not_whole_unwind (not_whole_broken .ended) _)
  | afterMember members stack =>
    exact absurd hv (not_whole_unwind (not_whole_stopped_object members .ended) stack)
  | done d => rfl

/-- **A text that is a whole document has the tokens of its value.** -/
theorem tokens_of_ofChars (h : Document.ofChars cs = ⟨v, false⟩) (hv : v.break? = none) :
    Json.tokens cs = v.tokens := by
  have hstart : Takes [] (.value []) := ⟨trivial, .inr rfl⟩
  have hend : (finish ((Json.tokens cs).foldl step (.value []))) = ⟨v, false⟩ := h
  have hdone := eq_done_of_finish (by rw [hend]; exact hv)
  rw [hend] at hdone
  obtain ⟨-, hfailed | htaken⟩ := takes_foldl hstart (Json.tokens cs)
  · rw [hdone] at hfailed
    obtain ⟨d, hd, hfailed⟩ := hfailed
    cases hd
    rcases hfailed with htrailing | hbroken
    · cases htrailing
    · exact absurd hv hbroken
  · rw [hdone] at htaken
    exact htaken.symm

/-! ## Reading the tokens of a value -/

/-- A value starts with a token that closes no array. -/
theorem exists_tokens (hv : v.break? = none) : ∃ t ts, v.tokens = t :: ts ∧ t ≠ .closeArray := by
  cases v with
  | scalar s => exact ⟨_, _, rfl, by simp⟩
  | array items stop => exact ⟨_, _, rfl, by simp⟩
  | object members stop => exact ⟨_, _, rfl, by simp⟩
  | unnamed first => cases hv

/-- A run over the tokens of a value puts it in its place. -/
def IsRead (v : Value) : Prop :=
  ∀ stack ts, (v.tokens ++ ts).foldl step (.value stack) = ts.foldl step (put v stack)

/-- The items of an array after some, and its closing mark. -/
theorem foldl_items {vs : List Value} (h : ∀ v ∈ vs, IsRead v) (items : List Value)
    (stack : List Frame) (ts : List Token) :
    ((vs.map Value.tokens).flatMap (.comma :: ·) ++ .closeArray :: ts).foldl step
      (.afterItem items stack) = ts.foldl step (put (.array (items ++ vs) none) stack) := by
  induction vs generalizing items with
  | nil => rw [List.append_nil]; rfl
  | cons v vs ih =>
    rw [List.map_cons, List.flatMap_cons, List.cons_append, List.cons_append, List.append_assoc,
      List.foldl_cons, List.append_cons items]
    calc _ = (v.tokens ++ ((vs.map Value.tokens).flatMap (.comma :: ·) ++ .closeArray :: ts)).foldl
          step (.value (.array items :: stack)) := rfl
      _ = ((vs.map Value.tokens).flatMap (.comma :: ·) ++ .closeArray :: ts).foldl step
          (.afterItem (items ++ [v]) stack) := h v List.mem_cons_self _ _
      _ = _ := ih (fun w hw => h w (List.mem_cons_of_mem _ hw)) _

/-- A member is read after the mark before its name, once its value is. -/
theorem foldl_member {m : Text × Value} (h : IsRead m.2) (members : List (Text × Value))
    (hs : step s (.scalar (.text m.1)) = .colon members m.1 stack) (ts : List Token) :
    (partTokens m ++ ts).foldl step s =
      ts.foldl step (.afterMember (members ++ [m]) stack) := by
  rw [partTokens, List.cons_append, List.foldl_cons, hs, List.cons_append, List.foldl_cons]
  exact h (.object members m.1 :: stack) ts

/-- The members of an object after some, and its closing mark. -/
theorem foldl_members {ms : List (Text × Value)} (h : ∀ m ∈ ms, IsRead m.2)
    (members : List (Text × Value)) (stack : List Frame) (ts : List Token) :
    ((ms.map partTokens).flatMap (.comma :: ·) ++ .closeObject :: ts).foldl step
      (.afterMember members stack) = ts.foldl step (put (.object (members ++ ms) none) stack) := by
  induction ms generalizing members with
  | nil => rw [List.append_nil]; rfl
  | cons m ms ih =>
    rw [List.map_cons, List.flatMap_cons, List.cons_append, List.cons_append, List.append_assoc,
      List.foldl_cons, List.append_cons members]
    calc _ = (partTokens m ++ ((ms.map partTokens).flatMap (.comma :: ·) ++ .closeObject :: ts)).foldl
          step (.name members stack) := rfl
      _ = ((ms.map partTokens).flatMap (.comma :: ·) ++ .closeObject :: ts).foldl step
          (.afterMember (members ++ [m]) stack) :=
        foldl_member (h m List.mem_cons_self) members rfl _
      _ = _ := ih (fun m hm => h m (List.mem_cons_of_mem _ hm)) _

/-- **The tokens of a value are read as the value**, within open arrays and objects and whatever
follows them. -/
theorem isRead (hv : v.break? = none) : IsRead v := by
  induction v using Value.rec_mem with
  | scalar s => exact fun _ _ => rfl
  | unnamed first => cases hv
  | array items stop ih =>
    intro stack ts
    obtain ⟨hitems, rfl⟩ := break?_array.1 hv
    have hread : ∀ v ∈ items, IsRead v := fun v hmem => ih v hmem (hitems v hmem)
    rw [tokens_array]
    cases items with
    | nil => rfl
    | cons v vs =>
      obtain ⟨t, us, htokens, hclose⟩ := exists_tokens (hitems v List.mem_cons_self)
      -- the first item is read as one after a comma is
      have hfirst : ∀ us, (v.tokens ++ us).foldl step (.firstItem stack) =
          (v.tokens ++ us).foldl step (.value (.array [] :: stack)) := by
        intro us
        have hstep : step (.firstItem stack) t = step (.value (.array [] :: stack)) t := if_neg hclose
        rw [htokens, List.cons_append, List.foldl_cons, List.foldl_cons, hstep]
      rw [List.map_cons, joined, List.cons_append, List.foldl_cons, List.append_assoc,
        List.append_assoc, List.singleton_append]
      calc _ = (v.tokens ++ ((vs.map Value.tokens).flatMap (.comma :: ·) ++ .closeArray :: ts)).foldl
            step (.firstItem stack) := rfl
        _ = ((vs.map Value.tokens).flatMap (.comma :: ·) ++ .closeArray :: ts).foldl step
            (.afterItem [v] stack) := (hfirst _).trans (hread v List.mem_cons_self _ _)
        _ = _ := foldl_items (fun w hw => hread w (List.mem_cons_of_mem _ hw)) [v] stack ts
  | object members stop ih =>
    intro stack ts
    obtain ⟨hmembers, rfl⟩ := break?_object.1 hv
    have hread : ∀ m ∈ members, IsRead m.2 := fun m hmem => ih m hmem (hmembers m hmem).2
    rw [tokens_object]
    cases members with
    | nil => rfl
    | cons m ms =>
      rw [List.map_cons, joined, List.cons_append, List.foldl_cons, List.append_assoc,
        List.append_assoc, List.singleton_append]
      calc _ = (partTokens m ++ ((ms.map partTokens).flatMap (.comma :: ·) ++
              .closeObject :: ts)).foldl step (.firstName stack) := rfl
        _ = ((ms.map partTokens).flatMap (.comma :: ·) ++ .closeObject :: ts).foldl step
            (.afterMember [m] stack) := foldl_member (hread m List.mem_cons_self) [] rfl _
        _ = _ := foldl_members (fun m hm => hread m (List.mem_cons_of_mem _ hm)) [m] stack ts

/-! ## Spellings -/

theorem Separated.append_mark (hts : Separated ts) (ht : ¬ t.IsScalar) (hus : Separated us) :
    Separated (ts ++ t :: us) := by
  refine List.isChain_append.2 ⟨hts, List.isChain_cons.2 ⟨fun u _ h => ht h.1, hus⟩, ?_⟩
  intro x _ y hy h
  obtain rfl : t = y := Option.some.inj hy
  exact ht h.2

theorem separated_joined (h : ∀ part ∈ parts, Separated part) : Separated (joined parts) := by
  cases parts with
  | nil => exact List.isChain_nil
  | cons first rest =>
    rw [joined]
    induction rest generalizing first with
    | nil => simpa using h first List.mem_cons_self
    | cons next rest ih =>
      rw [List.flatMap_cons, List.cons_append]
      exact (h first List.mem_cons_self).append_mark (by simp [Token.IsScalar])
        (ih next fun part hpart => h part (List.mem_cons_of_mem _ hpart))

/-- Marks around a list of tokens. -/
theorem Separated.enclose {first last : Token} (hts : Separated ts) (hfirst : ¬ first.IsScalar)
    (hlast : ¬ last.IsScalar) : Separated (first :: (ts ++ [last])) :=
  Separated.append_mark List.isChain_nil hfirst (hts.append_mark hlast List.isChain_nil)

/-- **No scalar of a value comes right after another.** -/
theorem separated_tokens (v : Value) : Separated v.tokens := by
  induction v using Value.rec_mem with
  | scalar s => exact List.isChain_singleton _
  | unnamed first => exact List.isChain_nil
  | array items stop ih =>
    rw [tokens_array]
    refine Separated.enclose (separated_joined ?_) (by simp [Token.IsScalar])
      (by simp [Token.IsScalar])
    exact List.forall_mem_map.2 ih
  | object members stop ih =>
    rw [tokens_object]
    refine Separated.enclose (separated_joined ?_) (by simp [Token.IsScalar])
      (by simp [Token.IsScalar])
    refine List.forall_mem_map.2 fun m hm => ?_
    have hcolon : ¬ Token.colon.IsScalar := by simp [Token.IsScalar]
    exact Separated.append_mark (List.isChain_singleton (.scalar (.text m.1))) hcolon (ih m hm)

theorem mem_joined (h : t ∈ joined parts) : t = .comma ∨ ∃ part ∈ parts, t ∈ part := by
  cases parts with
  | nil => cases h
  | cons first rest =>
    rw [joined, List.mem_append, List.mem_flatMap] at h
    rcases h with h | ⟨part, hpart, h⟩
    · exact .inr ⟨first, List.mem_cons_self, h⟩
    · rcases List.mem_cons.1 h with rfl | h
      · exact .inl rfl
      · exact .inr ⟨part, List.mem_cons_of_mem _ hpart, h⟩

/-- **Each token of a value says what it is**, if the value breaks off nowhere. -/
theorem isWhole_tokens (hv : v.break? = none) : ∀ t ∈ v.tokens, t.IsWhole := by
  induction v using Value.rec_mem with
  | scalar s =>
    intro t ht
    obtain rfl := List.mem_singleton.1 ht
    exact hv
  | unnamed first => cases hv
  | array items stop ih =>
    intro t ht
    rw [tokens_array, List.mem_cons, List.mem_append, List.mem_singleton] at ht
    rcases ht with rfl | ht | rfl
    · trivial
    · rcases mem_joined ht with rfl | ⟨part, hpart, ht⟩
      · trivial
      · obtain ⟨w, hw, rfl⟩ := List.mem_map.1 hpart
        exact ih w hw ((break?_array.1 hv).1 w hw) t ht
    · trivial
  | object members stop ih =>
    intro t ht
    rw [tokens_object, List.mem_cons, List.mem_append, List.mem_singleton] at ht
    rcases ht with rfl | ht | rfl
    · trivial
    · rcases mem_joined ht with rfl | ⟨part, hpart, ht⟩
      · trivial
      · obtain ⟨m, hm, rfl⟩ := List.mem_map.1 hpart
        obtain ⟨hname, hvalue⟩ := (break?_object.1 hv).1 m hm
        rw [partTokens, List.mem_cons, List.mem_cons] at ht
        rcases ht with rfl | rfl | ht
        · exact hname
        · trivial
        · exact ih m hm hvalue t ht
    · trivial

/-- A text spells a value without a break exactly when it has the tokens of the value. -/
theorem spelled_iff_tokens (hv : v.break? = none) : v.Spelled cs ↔ Json.tokens cs = v.tokens := by
  rw [tokens_eq_iff (isWhole_tokens hv) (separated_tokens v)]
  exact and_iff_right hv

/-- **A document is read as a value exactly when it spells the value.** -/
theorem ofChars_eq_iff :
    (Document.ofChars cs = ⟨v, false⟩ ∧ v.break? = none) ↔ v.Spelled cs := by
  constructor
  · rintro ⟨h, hv⟩
    exact (spelled_iff_tokens hv).2 (tokens_of_ofChars h hv)
  · intro h
    have hv := h.1
    have htokens := (spelled_iff_tokens hv).1 h
    have hread := isRead hv [] []
    rw [List.append_nil] at hread
    refine ⟨?_, hv⟩
    rw [Document.ofChars, htokens, hread]
    rfl

end Json

end DataLineage
