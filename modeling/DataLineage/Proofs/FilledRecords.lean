import DataLineage.Project.Fields
import Mathlib.Data.List.Pairwise

/-!
# How records are filled

Whatever the format, a record is read by filling its fields one after another, each at most once. A
field that remembers that it was read, and keeps what it read in a place of its own, does not mind
when its turn comes.

* `RecordType.Filled`: values are read into fields in order, each of which is new.
* `RecordType.Filled.perm`: **in another order they fill the same fields.**
* `ObjectRecord.lawful`, `ProjectDefaults.lawful`, `ProjectSnapshot.lawful`: the records of a project
  document are of that kind, however their values are read.
-/

namespace DataLineage

variable {ν ε σ α β γ : Type}

/-- Two fields of which neither sees what is read into the other. -/
structure Field.Apart (f g : Field ν ε σ) : Prop where
  isRead {v : ν} {s t : σ} : f.read v s = .ok t → g.isRead t = g.isRead s
  swap {v w : ν} {s t u : σ} : f.read v s = .ok t → g.read w t = .ok u →
    ∃ t', g.read w s = .ok t' ∧ f.read v t' = .ok u

/-- A field that puts what it reads in a place. -/
def Field.Puts (f : Field ν ε σ) (read : ν → Except ε β) (put : β → σ → σ) : Prop :=
  ∀ v s, f.read v s = (read v).map (put · s)

theorem map_eq_ok_iff {x : Except ε β} {f : β → γ} {c : γ} :
    x.map f = .ok c ↔ ∃ b, x = .ok b ∧ f b = c := by
  cases x <;> simp [Except.map]

theorem bind_eq_ok_iff {x : Except ε β} {f : β → Except ε γ} {c : γ} :
    x >>= f = .ok c ↔ ∃ b, x = .ok b ∧ f b = .ok c := by
  cases x <;> simp [bind, Except.bind]

namespace RecordType

/-- Each field remembers that it was read and has a place of its own. -/
structure Lawful (r : RecordType ν ε σ α) : Prop where
  isRead : ∀ f ∈ r.fields, ∀ {v s t}, f.read v s = .ok t → f.isRead t
  apart : r.fields.Pairwise fun f g => f.Apart g ∧ g.Apart f

/-- **Values fill fields of a record** one after another: each field is new to its value, which can be
read into it. -/
inductive Filled (r : RecordType ν ε σ α) : List (Field ν ε σ × ν) → σ → σ → Prop
  | nil (s : σ) : Filled r [] s s
  | cons {f : Field ν ε σ} {v : ν} {ps : List (Field ν ε σ × ν)} {s t u : σ} (hf : f ∈ r.fields)
    (hnew : f.isRead s = false) (hread : f.read v s = .ok t) (h : Filled r ps t u) :
    Filled r ((f, v) :: ps) s u

/-- The field that a name means, with the value under the name; nothing if it means no field. -/
def meant (r : RecordType ν ε σ α) (name : String) (v : ν) : List (Field ν ε σ × ν) :=
  (r.fieldNamed? name).toList.map (·, v)

variable {r : RecordType ν ε σ α} {f g : Field ν ε σ} {p q : Field ν ε σ × ν}
  {ps qs : List (Field ν ε σ × ν)} {s u : σ} {name : String} {v : ν} {fault : ε}

theorem meant_of_some (h : r.fieldNamed? name = some f) : r.meant name v = [(f, v)] := by
  rw [meant, h]
  rfl

theorem meant_of_none (h : r.fieldNamed? name = none) : r.meant name v = [] := by
  rw [meant, h]
  rfl

theorem filled_nil_iff : r.Filled [] s u ↔ u = s := by
  constructor
  · rintro ⟨⟩
    rfl
  · rintro rfl
    exact .nil u

theorem filled_cons_iff : r.Filled (p :: ps) s u ↔
    p.1 ∈ r.fields ∧ p.1.isRead s = false ∧ ∃ t, p.1.read p.2 s = .ok t ∧ r.Filled ps t u := by
  constructor
  · rintro ⟨⟩
    exact ⟨‹_›, ‹_›, _, ‹_›, ‹_›⟩
  · rintro ⟨hf, hnew, t, hread, h⟩
    exact .cons hf hnew hread h

/-- A field is filled, unless it was before. -/
theorem filled_singleton_iff (hf : f ∈ r.fields) :
    r.Filled [(f, v)] s u ↔ (if f.isRead s then .error fault else f.read v s) = .ok u := by
  rw [filled_cons_iff]
  cases f.isRead s <;> simp [hf, filled_nil_iff]

theorem filled_append_iff : r.Filled (ps ++ qs) s u ↔ ∃ t, r.Filled ps s t ∧ r.Filled qs t u := by
  induction ps generalizing s with
  | nil => simp [filled_nil_iff]
  | cons p ps ih =>
    simp only [List.cons_append, filled_cons_iff, ih]
    grind

/-- A value that fills a field is read. -/
theorem Filled.exists_read (h : r.Filled ps s u) (hp : p ∈ ps) :
    p.1 ∈ r.fields ∧ ∃ t t', p.1.read p.2 t = .ok t' := by
  obtain ⟨front, back, rfl⟩ := List.append_of_mem hp
  obtain ⟨t, -, hback⟩ := filled_append_iff.1 h
  obtain ⟨hf, -, t', hread, -⟩ := filled_cons_iff.1 hback
  exact ⟨hf, t, t', hread⟩

theorem Lawful.apart_of_ne (hr : r.Lawful) (hf : f ∈ r.fields) (hg : g ∈ r.fields) (hne : f ≠ g) :
    f.Apart g ∧ g.Apart f := by
  have hsymm : Std.Symm fun f g : Field ν ε σ => f.Apart g ∧ g.Apart f := ⟨fun _ _ h => h.symm⟩
  exact hr.apart.forall hf hg hne

/-- Two values that fill fields one after the other do so the other way round. -/
theorem Filled.swap (hr : r.Lawful) (h : r.Filled (p :: q :: ps) s u) :
    r.Filled (q :: p :: ps) s u := by
  obtain ⟨hp, hpnew, t, hpread, hrest⟩ := filled_cons_iff.1 h
  obtain ⟨hq, hqnew, t', hqread, hrest⟩ := filled_cons_iff.1 hrest
  have hdone : p.1.isRead t = true := hr.isRead p.1 hp hpread
  -- one field cannot be new both times, so there are two of them
  have hne : p.1 ≠ q.1 := by
    intro heq
    rw [← heq, hdone] at hqnew
    cases hqnew
  obtain ⟨hpq, hqp⟩ := hr.apart_of_ne hp hq hne
  obtain ⟨m, hqfirst, hplast⟩ := hpq.swap hpread hqread
  have hqs : q.1.isRead s = false := by rw [← hpq.isRead hpread, hqnew]
  have hpm : p.1.isRead m = false := by rw [hqp.isRead hqfirst, hpnew]
  exact .cons hq hqs hqfirst (.cons hp hpm hplast hrest)

/-- **In another order, values fill the same fields.** -/
theorem Filled.perm (hr : r.Lawful) (hperm : ps.Perm qs) (h : r.Filled ps s u) :
    r.Filled qs s u := by
  induction hperm generalizing s with
  | nil => exact h
  | cons p _ ih =>
    obtain ⟨hf, hnew, t, hread, hrest⟩ := filled_cons_iff.1 h
    exact .cons hf hnew hread (ih hrest)
  | swap => exact h.swap hr
  | trans _ _ ih₁ ih₂ => exact ih₂ (ih₁ h)

end RecordType

/-! ## Fields with a place -/

namespace Field.Puts

variable {f g : Field ν ε σ} {read₁ : ν → Except ε β} {put₁ : β → σ → σ} {read₂ : ν → Except ε γ}
  {put₂ : γ → σ → σ}

theorem read_eq_ok_iff (hf : f.Puts read₁ put₁) {v : ν} {s t : σ} :
    f.read v s = .ok t ↔ ∃ b, read₁ v = .ok b ∧ put₁ b s = t := by
  rw [hf v s, map_eq_ok_iff]

/-- A field is apart from one with another place, if that one does not mind the first. -/
theorem apart (hf : f.Puts read₁ put₁) (hg : g.Puts read₂ put₂)
    (hcomm : ∀ b c s, put₂ c (put₁ b s) = put₁ b (put₂ c s))
    (hkeep : ∀ b s, g.isRead (put₁ b s) = g.isRead s) : f.Apart g where
  isRead h := by
    obtain ⟨b, -, rfl⟩ := hf.read_eq_ok_iff.1 h
    exact hkeep b _
  swap {v w s t u} hv hw := by
    obtain ⟨b, hb, rfl⟩ := hf.read_eq_ok_iff.1 hv
    obtain ⟨c, hc, rfl⟩ := hg.read_eq_ok_iff.1 hw
    exact ⟨put₂ c s, hg.read_eq_ok_iff.2 ⟨c, hc, rfl⟩,
      hf.read_eq_ok_iff.2 ⟨b, hb, (hcomm b c s).symm⟩⟩

theorem apart_symm (hf : f.Puts read₁ put₁) (hg : g.Puts read₂ put₂)
    (hcomm : ∀ b c s, put₂ c (put₁ b s) = put₁ b (put₂ c s))
    (hkeep₁ : ∀ b s, g.isRead (put₁ b s) = g.isRead s)
    (hkeep₂ : ∀ c s, f.isRead (put₂ c s) = f.isRead s) : f.Apart g ∧ g.Apart f :=
  ⟨hf.apart hg hcomm hkeep₁, hg.apart hf (fun c b s => (hcomm b c s).symm) hkeep₂⟩

theorem isRead (hf : f.Puts read₁ put₁) (hdone : ∀ b s, f.isRead (put₁ b s)) {v : ν} {s t : σ}
    (h : f.read v s = .ok t) : f.isRead t := by
  obtain ⟨b, -, rfl⟩ := hf.read_eq_ok_iff.1 h
  exact hdone b s

end Field.Puts

/-- **A record with two fields** that have places of their own. -/
theorem RecordType.Lawful.two {r : RecordType ν ε σ α} {f g : Field ν ε σ}
    {read₁ : ν → Except ε β} {put₁ : β → σ → σ} {read₂ : ν → Except ε γ} {put₂ : γ → σ → σ}
    (hfields : r.fields = [f, g]) (hf : f.Puts read₁ put₁) (hg : g.Puts read₂ put₂)
    (hfdone : ∀ b s, f.isRead (put₁ b s)) (hgdone : ∀ c s, g.isRead (put₂ c s))
    (hcomm : ∀ b c s, put₂ c (put₁ b s) = put₁ b (put₂ c s))
    (hkeep₁ : ∀ b s, g.isRead (put₁ b s) = g.isRead s)
    (hkeep₂ : ∀ c s, f.isRead (put₂ c s) = f.isRead s) : r.Lawful where
  isRead := by
    intro h hh
    rw [hfields, List.mem_cons, List.mem_singleton] at hh
    rcases hh with rfl | rfl
    · exact hf.isRead hfdone
    · exact hg.isRead hgdone
  apart := by
    rw [hfields]
    exact List.pairwise_pair.2 (hf.apart_symm hg hcomm hkeep₁ hkeep₂)

/-! ## The records of a project document -/

section

variable {text : ν → Except ε String} {type : ν → Except ε ObjectType}
  {texts : ν → Except ε (List String)} {optionalText : ν → Except ε (Option String)}
  {defaults : ν → Except ε ProjectDefaults} {objects : ν → Except ε (List ObjectRecord)}

theorem ObjectRecord.lawful : (ObjectRecord.recordType text type texts).Lawful where
  isRead := by
    refine List.forall_mem_cons.2 ⟨?_, List.forall_mem_cons.2 ⟨?_, List.forall_mem_singleton.2 ?_⟩⟩
    all_goals exact Field.Puts.isRead (fun _ _ => rfl) (fun _ _ => rfl)
  apart := by
    refine .cons (List.forall_mem_cons.2 ⟨?_, List.forall_mem_singleton.2 ?_⟩)
      (List.pairwise_pair.2 ?_)
    all_goals
      exact Field.Puts.apart_symm (fun _ _ => rfl) (fun _ _ => rfl) (fun _ _ _ => rfl)
        (fun _ _ => rfl) (fun _ _ => rfl)

theorem ProjectDefaults.lawful : (ProjectDefaults.recordType optionalText).Lawful where
  isRead := by
    intro f hf
    obtain rfl := List.mem_singleton.1 hf
    exact Field.Puts.isRead (fun _ _ => rfl) (fun _ _ => rfl)
  apart := List.pairwise_singleton _ _

theorem ProjectSnapshot.lawful : (ProjectSnapshot.recordType defaults objects).Lawful :=
  .two rfl (fun _ _ => rfl) (fun _ _ => rfl) (fun _ _ => rfl) (fun _ _ => rfl) (fun _ _ _ => rfl)
    (fun _ _ => rfl) (fun _ _ => rfl)

end

end DataLineage
