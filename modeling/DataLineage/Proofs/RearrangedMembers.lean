import DataLineage.Proofs.FilledRecords
import DataLineage.Proofs.ValueSpellings

/-!
# Members in another order

The members of an object can stand in another order, go by other names of their fields, and have
members among them that no field answers to; the values of fields can be rearranged in their turn. A
record that is read is read the same afterwards.

* `Json.Rearranged`, `Json.RecordAlike`, `Json.ListAlike`: the rearrangements.
* `Json.foldlM_readMember_eq_ok_iff`: what it takes to read the members of an object.
* `Json.Keeps.record`, `Json.Keeps.list`: **a rearranged value is read the same.**
* `Json.Whole.record`, `Json.Whole.list`: a value that is read breaks off nowhere.
-/

namespace DataLineage

namespace Json

variable {σ α β : Type}

/-! ## Rearrangements -/

/-- The names that a field of a record goes by, and how its values may be rearranged. -/
structure FieldForm where
  names : List String
  Alike : Value → Value → Prop

/-- **Rearrangements of the members of an object** that is read as a record with such fields. -/
inductive Rearranged (forms : List FieldForm) : List (Text × Value) → List (Text × Value) → Prop
  | nil : Rearranged forms [] []
  | same {ms ms' : List (Text × Value)} (m : Text × Value) (h : Rearranged forms ms ms') :
    Rearranged forms (m :: ms) (m :: ms')
  /-- A field can go by another of its names, and its value can be rearranged. -/
  | field {ms ms' : List (Text × Value)} {form : FieldForm} {key key' : Text} {name name' : String}
    {v v' : Value} (hform : form ∈ forms) (hkey : key.decode = .ok name) (hname : name ∈ form.names)
    (hkey' : key'.decode = .ok name') (hname' : name' ∈ form.names) (hvalue : form.Alike v v')
    (h : Rearranged forms ms ms') : Rearranged forms ((key, v) :: ms) ((key', v') :: ms')
  /-- A member that no field answers to can be added. -/
  | added {ms ms' : List (Text × Value)} {key : Text} {name : String} {v : Value}
    (hkey : key.decode = .ok name) (hname : ∀ form ∈ forms, name ∉ form.names)
    (hvalue : v.break? = none) (h : Rearranged forms ms ms') :
    Rearranged forms ms ((key, v) :: ms')
  | perm {ms ms' ms'' : List (Text × Value)} (h : Rearranged forms ms ms') (hperm : ms'.Perm ms'') :
    Rearranged forms ms ms''

/-- The values of fields in order can be rearranged. -/
inductive InOrderAlike : List FieldForm → List Value → List Value → Prop
  | nil (forms : List FieldForm) : InOrderAlike forms [] []
  | cons {form : FieldForm} {forms : List FieldForm} {v v' : Value} {vs vs' : List Value}
    (hvalue : form.Alike v v') (h : InOrderAlike forms vs vs') :
    InOrderAlike (form :: forms) (v :: vs) (v' :: vs')

/-- **Rearrangements of a value that is read as a record**: of an object, or of an array that has the
values of the fields in order. -/
inductive RecordAlike (forms : List FieldForm) : Value → Value → Prop
  | same (v : Value) : RecordAlike forms v v
  | object {ms ms' : List (Text × Value)} (h : Rearranged forms ms ms') :
    RecordAlike forms (.object ms none) (.object ms' none)
  | array {vs vs' : List Value} (h : InOrderAlike forms vs vs') :
    RecordAlike forms (.array vs none) (.array vs' none)

/-- Rearrangements of a value that is read as a list. -/
inductive ListAlike (R : Value → Value → Prop) : Value → Value → Prop
  | same (v : Value) : ListAlike R v v
  | array {vs vs' : List Value} (h : List.Forall₂ R vs vs') :
    ListAlike R (.array vs none) (.array vs' none)

/-- A reader does not mind some rearrangements. -/
def Keeps (read : Value → Read α) (R : Value → Value → Prop) : Prop :=
  ∀ ⦃v v' a⦄, R v v' → read v = .ok a → read v' = .ok a

/-- A reader takes only values that break off nowhere. -/
def Whole (read : Value → Read α) : Prop := ∀ ⦃v a⦄, read v = .ok a → v.break? = none

/-! ## What is read breaks off nowhere -/

theorem decodePieces_stop {stop : Option Break} {ps : List Piece} {cs : List Char}
    (h : decodePieces stop ps = .ok cs) : stop = none := by
  fun_induction decodePieces stop ps generalizing cs with
  | case1 hstop => exact hstop
  | case3 c rest ih =>
    obtain ⟨cs', hcs, -⟩ := map_eq_ok_iff.1 h
    exact ih hcs
  | case7 n _ _ m rest _ ih =>
    obtain ⟨cs', hcs, -⟩ := map_eq_ok_iff.1 h
    exact ih hcs
  | case9 n rest _ _ ih =>
    obtain ⟨cs', hcs, -⟩ := map_eq_ok_iff.1 h
    exact ih hcs
  | _ => cases h

theorem Text.stop_of_decode {t : Text} {s : String} (h : t.decode = .ok s) : t.stop = none := by
  unfold decode at h
  split at h
  next hpieces => exact decodePieces_stop hpieces
  next => cases h

/-- The complaint about a value is never a reading of it. -/
theorem mismatch_ne_ok (h : Head) (wanted : Wanted) (a : α) :
    (h.mismatch wanted : Read α) ≠ .ok a := by
  unfold Head.mismatch
  cases h.found <;> exact fun h => nomatch h

theorem closed_eq_ok_iff {stop : Option Break} : closed stop = .ok () ↔ stop = none := by
  cases stop <;> simp [closed]

/-! ## Reading members -/

section members

variable {r : RecordType Value Fault σ α} {m : Text × Value} {ms ms' : List (Text × Value)}
  {s t : σ} {a : α} {forms : List FieldForm} {form : FieldForm} {key : Text} {name : String}
  {v : Value} {f : Field Value Fault σ}

/-- The field that a member means with its value, if it means one. -/
def meant (r : RecordType Value Fault σ α) (m : Text × Value) : List (Field Value Fault σ × Value) :=
  match m.1.decode with
  | .ok name => r.meant name m.2
  | .error _ => []

/-- A member has a name, and a value that breaks off nowhere unless a field takes it. -/
def Passes (r : RecordType Value Fault σ α) (m : Text × Value) : Prop :=
  ∃ name, m.1.decode = .ok name ∧ (r.fieldNamed? name = none → m.2.break? = none)

theorem meant_eq (hname : m.1.decode = .ok name) (hfield : r.fieldNamed? name = some f) :
    meant r m = [(f, m.2)] := by
  rw [meant, hname, ← RecordType.meant_of_some hfield]

theorem meant_eq_nil (hname : m.1.decode = .ok name) (hfield : r.fieldNamed? name = none) :
    meant r m = [] := by
  rw [meant, hname, ← RecordType.meant_of_none hfield]

/-- **What it takes to read a member.** -/
theorem readMember_eq_ok_iff :
    readMember r s m = .ok t ↔ Passes r m ∧ r.Filled (meant r m) s t := by
  cases hname : m.1.decode with
  | error e => simp [readMember, Passes, hname, bind, Except.bind]
  | ok name =>
    cases hfield : r.fieldNamed? name with
    | none =>
      have hpasses : Passes r m ↔ m.2.break? = none := by simp [Passes, hname, hfield]
      rw [hpasses, meant_eq_nil hname hfield, RecordType.filled_nil_iff, ← skip_eq_ok_iff]
      simp only [readMember, hname, bind, Except.bind, hfield]
      cases m.2.skip <;> simp [pure, Except.pure, eq_comm]
    | some f =>
      have hpasses : Passes r m := ⟨name, hname, by simp [hfield]⟩
      have hmem : f ∈ r.fields := (RecordType.fieldNamed?_mem hfield).1
      rw [meant_eq hname hfield, RecordType.filled_singleton_iff hmem]
      simp only [readMember, hname, bind, Except.bind, hfield, hpasses, true_and]
      rfl

/-- **What it takes to read the members of an object.** -/
theorem foldlM_readMember_eq_ok_iff : ms.foldlM (readMember r) s = .ok t ↔
    (∀ m ∈ ms, Passes r m) ∧ r.Filled (ms.flatMap (meant r)) s t := by
  induction ms generalizing s with
  | nil => simp [RecordType.filled_nil_iff, pure, Except.pure, eq_comm]
  | cons m ms ih =>
    rw [List.foldlM_cons, bind_eq_ok_iff, List.flatMap_cons, RecordType.filled_append_iff,
      List.forall_mem_cons]
    simp only [readMember_eq_ok_iff, ih]
    grind

/-- **What it takes to read a record from an object.** -/
theorem readRecord_object_eq_ok_iff {stop : Option Break} :
    readRecord r (.object ms stop) = .ok a ↔
      (∀ m ∈ ms, Passes r m) ∧ stop = none ∧
        ∃ s, r.Filled (ms.flatMap (meant r)) r.start s ∧ r.ofFields s = .ok a := by
  rw [readRecord, bind_eq_ok_iff]
  simp only [foldlM_readMember_eq_ok_iff, bind_eq_ok_iff]
  constructor
  · rintro ⟨s, ⟨hpasses, hfilled⟩, _, hclosed, hrecord⟩
    refine ⟨hpasses, closed_eq_ok_iff.1 hclosed, s, hfilled, ?_⟩
    split at hrecord
    next h => cases hrecord; exact h
    next => cases hrecord
  · rintro ⟨hpasses, rfl, s, hfilled, hrecord⟩
    refine ⟨s, ⟨hpasses, hfilled⟩, (), rfl, ?_⟩
    rw [hrecord]
    rfl

/-- **What it takes to read a record from an array.** -/
theorem readRecord_array_eq_ok_iff {vs : List Value} {stop : Option Break} :
    readRecord r (.array vs stop) = .ok a ↔
      stop = none ∧ ∃ s, readItems r.start r.fields vs = .ok (s, []) ∧ r.ofFields s = .ok a := by
  rw [readRecord, bind_eq_ok_iff]
  constructor
  · rintro ⟨⟨s, rest⟩, hitems, hrecord⟩
    -- too few items, or some left over, leave the mark at the end unread
    cases hfields : r.ofFields s with
    | error e =>
      simp only [hfields] at hrecord
      split at hrecord <;> cases stop <;> cases hrecord
    | ok a =>
      simp only [hfields] at hrecord
      cases rest with
      | nil => split at hrecord <;> cases stop <;> cases hrecord <;> exact ⟨rfl, s, hitems, hfields⟩
      | cons => split at hrecord <;> cases stop <;> cases hrecord
  · rintro ⟨rfl, s, hitems, hrecord⟩
    refine ⟨(s, []), hitems, ?_⟩
    simp only [hrecord]
    split <;> rfl

/-! ## Records -/

/-- A field does not mind some rearrangements of its value. -/
def FieldKeeps (f : Field Value Fault σ) (R : Value → Value → Prop) : Prop :=
  ∀ ⦃v v' s t⦄, R v v' → f.read v s = .ok t → f.read v' s = .ok t

/-- A field takes only values that break off nowhere. -/
def FieldWhole (f : Field Value Fault σ) : Prop :=
  ∀ ⦃v s t⦄, f.read v s = .ok t → v.break? = none

/-- A field has a form: it goes by these names, and its value may be rearranged like that. -/
structure HasForm (f : Field Value Fault σ) (form : FieldForm) : Prop where
  names : form.names = f.name :: f.aliases
  keeps : FieldKeeps f form.Alike

/-- **The fields of a record have certain forms**, no two of which share a name. -/
structure HasForms (r : RecordType Value Fault σ α) (forms : List FieldForm) : Prop where
  inOrder : List.Forall₂ HasForm r.fields forms
  distinct : forms.Pairwise fun form form' => form.names.Disjoint form'.names

theorem HasForm.answersTo_iff (h : HasForm f form) : f.answersTo name ↔ name ∈ form.names := by
  rw [h.names, Field.answersTo, List.mem_cons, Bool.or_eq_true, beq_iff_eq, List.contains_iff_mem,
    eq_comm]

/-- No field has a name that is in none of their forms. -/
theorem HasForms.unknown (h : HasForms r forms) (hname : ∀ form ∈ forms, name ∉ form.names) :
    r.fieldNamed? name = none := by
  obtain ⟨hinOrder, -⟩ := h
  unfold RecordType.fieldNamed?
  generalize r.fields = fs at hinOrder
  induction hinOrder with
  | nil => rfl
  | cons hhead _ ih =>
    obtain ⟨hfirst, hrest⟩ := List.forall_mem_cons.1 hname
    have hskip := mt hhead.answersTo_iff.1 hfirst
    exact (List.find?_cons_of_neg (p := (Field.answersTo · name)) hskip).trans (ih hrest)

/-- The names of a form mean one field. -/
theorem HasForms.known (h : HasForms r forms) (hform : form ∈ forms) :
    ∃ f, (∀ name ∈ form.names, r.fieldNamed? name = some f) ∧ FieldKeeps f form.Alike := by
  obtain ⟨hinOrder, hdistinct⟩ := h
  unfold RecordType.fieldNamed?
  generalize r.fields = fs at hinOrder
  induction hinOrder with
  | nil => cases hform
  | @cons f form' fs forms hhead _ ih =>
    obtain ⟨hfirst, hdistinct⟩ := List.pairwise_cons.1 hdistinct
    rcases List.mem_cons.1 hform with rfl | hform
    · refine ⟨f, fun name hname => ?_, hhead.keeps⟩
      exact List.find?_cons_of_pos (p := (Field.answersTo · name)) (hhead.answersTo_iff.2 hname)
    · obtain ⟨g, hg, hkeeps⟩ := ih hform hdistinct
      refine ⟨g, fun name hname => ?_, hkeeps⟩
      have hother : name ∉ form'.names := fun h => hfirst form hform h hname
      have hskip := mt hhead.answersTo_iff.1 hother
      exact (List.find?_cons_of_neg (p := (Field.answersTo · name)) hskip).trans (hg name hname)

theorem FieldKeeps.of_puts {read : Value → Read β} {put : β → σ → σ} {R : Value → Value → Prop}
    (hf : f.Puts read put) (h : Keeps read R) : FieldKeeps f R := by
  intro v v' s t hR hread
  obtain ⟨b, hb, rfl⟩ := hf.read_eq_ok_iff.1 hread
  exact hf.read_eq_ok_iff.2 ⟨b, h hR hb, rfl⟩

theorem FieldWhole.of_puts {read : Value → Read β} {put : β → σ → σ} (hf : f.Puts read put)
    (h : Whole read) : FieldWhole f := by
  intro v s t hread
  obtain ⟨b, hb, -⟩ := hf.read_eq_ok_iff.1 hread
  exact h hb

/-- **Rearranged members are read**, and into the same fields. -/
theorem Rearranged.reads (h : Rearranged forms ms ms') (hr : r.Lawful) (hforms : HasForms r forms)
    (hpasses : ∀ m ∈ ms, Passes r m) : (∀ m ∈ ms', Passes r m) ∧
      ∀ s t, r.Filled (ms.flatMap (meant r)) s t → r.Filled (ms'.flatMap (meant r)) s t := by
  induction h with
  | nil => exact ⟨hpasses, fun _ _ h => h⟩
  | same m _ ih =>
    obtain ⟨hm, hpasses⟩ := List.forall_mem_cons.1 hpasses
    obtain ⟨hpasses', hfilled⟩ := ih hpasses
    refine ⟨List.forall_mem_cons.2 ⟨hm, hpasses'⟩, fun s t h => ?_⟩
    rw [List.flatMap_cons, RecordType.filled_append_iff] at h ⊢
    obtain ⟨u, hu, hrest⟩ := h
    exact ⟨u, hu, hfilled u t hrest⟩
  | @field ms ms' form key key' name name' v v' hform hkey hname hkey' hname' hvalue _ ih =>
    obtain ⟨f, hnames, hkeeps⟩ := hforms.known hform
    have hmeant : meant r (key, v) = [(f, v)] := meant_eq hkey (hnames name hname)
    have hmeant' : meant r (key', v') = [(f, v')] := meant_eq hkey' (hnames name' hname')
    have hpasses' : Passes r (key', v') := ⟨name', hkey', by simp [hnames name' hname']⟩
    obtain ⟨hrest, hfilled⟩ := ih (List.forall_mem_cons.1 hpasses).2
    refine ⟨List.forall_mem_cons.2 ⟨hpasses', hrest⟩, fun s t h => ?_⟩
    rw [List.flatMap_cons, hmeant, List.singleton_append, RecordType.filled_cons_iff] at h
    rw [List.flatMap_cons, hmeant', List.singleton_append, RecordType.filled_cons_iff]
    obtain ⟨hf, hnew, u, hread, h⟩ := h
    exact ⟨hf, hnew, u, hkeeps hvalue hread, hfilled u t h⟩
  | @added ms ms' key name v hkey hname hvalue _ ih =>
    have hunknown := hforms.unknown hname
    have hmeant : meant r (key, v) = [] := meant_eq_nil hkey hunknown
    obtain ⟨hrest, hfilled⟩ := ih hpasses
    refine ⟨List.forall_mem_cons.2 ⟨⟨name, hkey, fun _ => hvalue⟩, hrest⟩, fun s t h => ?_⟩
    rw [List.flatMap_cons, hmeant]
    exact hfilled s t h
  | perm _ hperm ih =>
    -- members in another order mean the same fields in another order
    obtain ⟨hpasses', hfilled⟩ := ih hpasses
    exact ⟨fun m hm => hpasses' m (hperm.mem_iff.2 hm),
      fun s t h => (hfilled s t h).perm hr (hperm.flatMap_right _)⟩

/-- Rearranged values of fields in order are read into the same fields. -/
theorem InOrderAlike.readItems {fs : List (Field Value Fault σ)} {vs vs' : List Value}
    (h : InOrderAlike forms vs vs')
    (hfs : List.Forall₂ HasForm fs forms)
    (hread : readItems s fs vs = .ok (t, [])) : Json.readItems s fs vs' = .ok (t, []) := by
  induction h generalizing fs s with
  | nil => exact hread
  | cons hvalue _ ih =>
    cases hfs with
    | cons hform hfs =>
      rw [Json.readItems, bind_eq_ok_iff] at hread ⊢
      obtain ⟨u, hu, hread⟩ := hread
      exact ⟨u, hform.keeps hvalue hu, ih hfs hread⟩

/-- **A record is read the same from a rearranged value.** -/
theorem Keeps.record (hr : r.Lawful) (hforms : HasForms r forms) :
    Keeps (readRecord r) (RecordAlike forms) := by
  intro v v' a halike hread
  cases halike with
  | same => exact hread
  | object h =>
    obtain ⟨hpasses, -, s, hfilled, hrecord⟩ := readRecord_object_eq_ok_iff.1 hread
    obtain ⟨hpasses', hkeeps⟩ := h.reads hr hforms hpasses
    exact readRecord_object_eq_ok_iff.2 ⟨hpasses', rfl, s, hkeeps _ _ hfilled, hrecord⟩
  | array h =>
    obtain ⟨-, s, hitems, hrecord⟩ := readRecord_array_eq_ok_iff.1 hread
    exact readRecord_array_eq_ok_iff.2 ⟨rfl, s, h.readItems hforms.inOrder hitems, hrecord⟩

/-- A value that is read into a field in order is read. -/
theorem exists_read_of_readItems {fs : List (Field Value Fault σ)} {vs : List Value}
    (h : readItems s fs vs = .ok (t, [])) : ∀ v ∈ vs, ∃ f ∈ fs, ∃ u u', f.read v u = .ok u' := by
  induction vs generalizing fs s with
  | nil => exact fun _ hv => absurd hv List.not_mem_nil
  | cons v vs ih =>
    cases fs with
    | nil => cases h
    | cons f fs =>
      rw [readItems, bind_eq_ok_iff] at h
      obtain ⟨u, hu, hrest⟩ := h
      refine List.forall_mem_cons.2 ⟨⟨f, List.mem_cons_self, s, u, hu⟩, fun w hw => ?_⟩
      obtain ⟨g, hg, hread⟩ := ih hrest w hw
      exact ⟨g, List.mem_cons_of_mem _ hg, hread⟩

/-- What is read as a record breaks off nowhere, if what its fields take does not. -/
theorem Whole.record (h : ∀ f ∈ r.fields, FieldWhole f) : Whole (readRecord r) := by
  intro v a hread
  cases v with
  | scalar s => exact absurd hread (mismatch_ne_ok _ _ a)
  | unnamed first => cases hread
  | array vs stop =>
    obtain ⟨hstop, s, hitems, -⟩ := readRecord_array_eq_ok_iff.1 hread
    refine break?_array.2 ⟨fun v hv => ?_, hstop⟩
    obtain ⟨f, hf, u, u', hread⟩ := exists_read_of_readItems hitems v hv
    exact h f hf hread
  | object ms stop =>
    obtain ⟨hpasses, hstop, s, hfilled, -⟩ := readRecord_object_eq_ok_iff.1 hread
    refine break?_object.2 ⟨fun m hm => ?_, hstop⟩
    obtain ⟨name, hname, hvalue⟩ := hpasses m hm
    refine ⟨Text.stop_of_decode hname, ?_⟩
    -- a value is skipped, which breaks the text off where the value does, or is taken by a field
    cases hfield : r.fieldNamed? name with
    | none => exact hvalue hfield
    | some f =>
      have hmem : (f, m.2) ∈ ms.flatMap (meant r) :=
        List.mem_flatMap.2 ⟨m, hm, by rw [meant_eq hname hfield]; exact List.mem_cons_self⟩
      obtain ⟨hf, u, u', hread⟩ := hfilled.exists_read hmem
      exact h f hf hread

end members

/-! ## Texts, variants and lists -/

section values

variable {read : Value → Read α} {R : Value → Value → Prop}

theorem Whole.text : Whole readText := by
  intro v a hread
  unfold readText at hread
  split at hread
  next t => exact Text.stop_of_decode hread
  next => exact absurd hread (mismatch_ne_ok _ _ a)

theorem Whole.option (h : Whole read) : Whole (readOption read) := by
  intro v a hread
  unfold readOption at hread
  split at hread
  next => rfl
  next =>
    obtain ⟨b, hb, -⟩ := map_eq_ok_iff.1 hread
    exact h hb

theorem Whole.unit : Whole readUnit := by
  intro v a hread
  unfold readUnit at hread
  split at hread
  next => rfl
  next => exact absurd hread (mismatch_ne_ok _ _ a)

/-- A variant is a name, or an object with one member that is `null`. -/
theorem Whole.variant (ofName? : String → Option α) (names : List String) :
    Whole (readVariant ofName? names) := by
  intro v a hread
  unfold readVariant at hread
  cases v with
  | scalar s =>
    cases s with
    | text t =>
      obtain ⟨name, hname, -⟩ := bind_eq_ok_iff.1 hread
      exact Text.stop_of_decode hname
    | _ => cases hread
  | array items stop => cases hread
  | unnamed first =>
    have hmismatch : first.mismatch .variantName = .ok a := hread
    exact absurd hmismatch (mismatch_ne_ok _ _ a)
  | object ms stop =>
    cases ms with
    | nil => cases hread
    | cons m rest =>
      obtain ⟨name, hname, hread⟩ := bind_eq_ok_iff.1 hread
      obtain ⟨b, -, hread⟩ := bind_eq_ok_iff.1 hread
      obtain ⟨_, hunit, hread⟩ := bind_eq_ok_iff.1 hread
      have hvalue : m.2.break? = none := Whole.unit hunit
      cases rest with
      | cons => cases hread
      | nil =>
        obtain ⟨_, hclosed, -⟩ := bind_eq_ok_iff.1 hread
        refine break?_object.2 ⟨?_, closed_eq_ok_iff.1 hclosed⟩
        rintro m' hm
        obtain rfl := List.mem_singleton.1 hm
        exact ⟨Text.stop_of_decode hname, hvalue⟩

/-- Each item of a list is read. -/
theorem exists_read_of_mapM {vs : List Value} {xs : List α} (h : vs.mapM read = .ok xs) :
    ∀ v ∈ vs, ∃ x, read v = .ok x := by
  induction vs generalizing xs with
  | nil => exact fun _ hv => absurd hv List.not_mem_nil
  | cons v vs ih =>
    simp only [List.mapM_cons, bind_eq_ok_iff] at h
    obtain ⟨x, hx, xs, hxs, -⟩ := h
    exact List.forall_mem_cons.2 ⟨⟨x, hx⟩, ih hxs⟩

theorem Whole.list (h : Whole read) : Whole (readList read) := by
  intro v xs hread
  unfold readList at hread
  split at hread
  next items stop =>
    simp only [bind_eq_ok_iff] at hread
    obtain ⟨ys, hitems, _, hclosed, -⟩ := hread
    refine break?_array.2 ⟨fun v hv => ?_, closed_eq_ok_iff.1 hclosed⟩
    obtain ⟨x, hx⟩ := exists_read_of_mapM hitems v hv
    exact h hx
  next => exact absurd hread (mismatch_ne_ok _ _ xs)

/-- Rearranged items are read the same. -/
theorem Keeps.mapM (h : Keeps read R) {vs vs' : List Value} (hitems : List.Forall₂ R vs vs')
    {xs : List α} (hread : vs.mapM read = .ok xs) : vs'.mapM read = .ok xs := by
  induction hitems generalizing xs with
  | nil => exact hread
  | cons hv _ ih =>
    simp only [List.mapM_cons, bind_eq_ok_iff] at hread ⊢
    obtain ⟨y, hy, zs, hzs, hpure⟩ := hread
    exact ⟨y, h hv hy, zs, ih hzs, hpure⟩

/-- **A list is read the same from a rearranged value.** -/
theorem Keeps.list (h : Keeps read R) : Keeps (readList read) (ListAlike R) := by
  intro v v' xs halike hread
  cases halike with
  | same => exact hread
  | array hitems =>
    obtain ⟨ys, hys, hclosed⟩ := bind_eq_ok_iff.1 hread
    exact bind_eq_ok_iff.2 ⟨ys, h.mapM hitems hys, hclosed⟩

end values

end Json

end DataLineage
