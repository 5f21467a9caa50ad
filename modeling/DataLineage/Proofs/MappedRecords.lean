import DataLineage.Proofs.FilledRecords
import DataLineage.Yaml.Decode

/-!
# Records as mappings

A mapping is written in parts: each part has a name, and is there with a value or is not there at
all. The entries can stand in any order, and an alias can stand for any node. A record is read from
the parts that are there.

* `Yaml.WritesAll`: a node has some parts written in it and no others.
* `Yaml.foldlM_readEntry_eq_ok_iff`: what it takes to read the entries of a mapping.
* `Yaml.ReadAs.record`: a record is read from its parts, whatever the order of the entries.
* `Yaml.EntriesWrite.filled_iff`: one part fills one field, if it is there.
-/

namespace DataLineage

namespace Yaml

variable {σ α β χ : Type}

/-- The node itself, or the one that an alias stands for. -/
def Document.resolve (d : Document) : Node → Option Node
  | .reference number => d.target? number
  | node => some node

/-- A part of a mapping: its name and, if it is there, the nodes that its value can be. -/
structure Part where
  name : String
  written? : Option (Node → Prop)

/-- Whether a node is the name of a part. -/
def IsKey (d : Document) (name : String) (key : Node) : Prop :=
  ∃ p style, d.resolve key = some (.scalar p style name)

/-- Whether a node has these entries; a node with nothing written has none. -/
def IsMapping (d : Document) (node : Node) (entries : List (Node × Node)) : Prop :=
  (∃ p, d.resolve node = some (.mapping p entries)) ∨
    ((∃ p, d.resolve node = some (.scalar p .plain "")) ∧ entries = [])

/-- **Entries as which some parts are written**, in the order of the parts. -/
inductive EntriesWrite (d : Document) : List Part → List (Node × Node) → Prop
  | nil : EntriesWrite d [] []
  | absent {name : String} {parts : List Part} {entries : List (Node × Node)}
    (h : EntriesWrite d parts entries) : EntriesWrite d (⟨name, none⟩ :: parts) entries
  | there {name : String} {written : Node → Prop} {parts : List Part} {key value : Node}
    {entries : List (Node × Node)} (hkey : IsKey d name key) (hvalue : written value)
    (h : EntriesWrite d parts entries) :
    EntriesWrite d (⟨name, some written⟩ :: parts) ((key, value) :: entries)

/-- **A node in which some parts are written**, in any order. -/
def WritesAll (d : Document) (parts : List Part) (node : Node) : Prop :=
  ∃ entries entries', IsMapping d node entries ∧ entries.Perm entries' ∧ EntriesWrite d parts entries'

/-- **What is read from a node in which something is written**: `b`, if `ok`. -/
def ReadAs (d : Document) (read : Placed → Read β) (written : Node → Prop) (ok : Prop) (b : β) : Prop :=
  ∀ ⦃v node a⦄, v.document = d → v.node = some node → written node → (read v = .ok a ↔ ok ∧ a = b)

variable {r : RecordType Placed Fault σ α} {v : Placed} {d : Document} {node key : Node}
  {entry : Node × Node} {entries entries' : List (Node × Node)} {name : String} {s t : σ} {a : α}
  {parts : List Part}

theorem resolved_eq (hd : v.document = d) (hnode : v.node = some node) :
    v.resolved = d.resolve node := by
  subst hd
  unfold Placed.resolved
  rw [hnode]
  cases node <;> rfl

/-! ## Entries -/

/-- The field that an entry means with its value, if it means one. -/
def meant (r : RecordType Placed Fault σ α) (v : Placed) (entry : Node × Node) :
    List (Field Placed Fault σ × Placed) :=
  match readKey v entry.1 with
  | .ok (name, step) => r.meant name (v.inner step entry.2)
  | .error _ => []

theorem exists_readKey (hd : v.document = d) (h : IsKey d name key) :
    ∃ step, readKey v key = .ok (name, step) := by
  subst hd
  obtain ⟨p, style, hkey⟩ := h
  cases key with
  | scalar =>
    cases hkey
    exact ⟨_, rfl⟩
  | reference number =>
    have htarget : v.document.target? number = some (.scalar p style name) := hkey
    exact ⟨.unknown, by simp [readKey, Placed.resolved, htarget]⟩
  | sequence => cases hkey
  | mapping => cases hkey

/-- **What it takes to read an entry** whose key is a name. -/
theorem readEntry_eq_ok_iff {step : Step} (hkey : readKey v entry.1 = .ok (name, step)) :
    readEntry r v s entry = .ok t ↔ r.Filled (meant r v entry) s t := by
  cases hfield : r.fieldNamed? name with
  | none =>
    have hmeant : meant r v entry = [] := by
      rw [meant, hkey, ← RecordType.meant_of_none hfield]
    rw [hmeant, RecordType.filled_nil_iff]
    simp [readEntry, hkey, bind, Except.bind, hfield, pure, Except.pure, eq_comm]
  | some f =>
    have hmeant : meant r v entry = [(f, v.inner step entry.2)] := by
      rw [meant, hkey, ← RecordType.meant_of_some hfield]
    rw [hmeant, RecordType.filled_singleton_iff (RecordType.fieldNamed?_mem hfield).1]
    simp only [readEntry, hkey, bind, Except.bind, hfield]
    rfl

/-- **What it takes to read the entries of a mapping** whose keys are names. -/
theorem foldlM_readEntry_eq_ok_iff (hkeys : ∀ e ∈ entries, ∃ x, readKey v e.1 = .ok x) :
    entries.foldlM (readEntry r v) s = .ok t ↔ r.Filled (entries.flatMap (meant r v)) s t := by
  induction entries generalizing s with
  | nil => simp [RecordType.filled_nil_iff, pure, Except.pure, eq_comm]
  | cons e entries ih =>
    obtain ⟨⟨⟨name, step⟩, hkey⟩, hkeys⟩ := List.forall_mem_cons.1 hkeys
    rw [List.foldlM_cons, bind_eq_ok_iff, List.flatMap_cons, RecordType.filled_append_iff]
    simp only [readEntry_eq_ok_iff hkey, ih hkeys]

theorem EntriesWrite.exists_readKey (h : EntriesWrite d parts entries) (hd : v.document = d) :
    ∀ e ∈ entries, ∃ x, readKey v e.1 = .ok x := by
  induction h with
  | nil => exact fun _ he => absurd he List.not_mem_nil
  | absent _ ih => exact ih
  | there hkey _ _ ih =>
    obtain ⟨step, hread⟩ := Yaml.exists_readKey hd hkey
    exact List.forall_mem_cons.2 ⟨⟨_, hread⟩, ih⟩

/-! ## Records -/

theorem readRecord_eq_ok_iff (hd : v.document = d) (hnode : v.node = some node)
    (h : IsMapping d node entries) : readRecord r v = .ok a ↔
      ∃ s, entries.foldlM (readEntry r v) r.start = .ok s ∧ r.ofFields s = .ok a := by
  have hresolved := resolved_eq hd hnode
  unfold readRecord
  rcases h with ⟨p, h⟩ | ⟨⟨p, h⟩, rfl⟩
  · rw [hresolved, h]
    simp only [pure, Except.pure, bind_eq_ok_iff, Except.ok.injEq, exists_eq_left']
    refine exists_congr fun s => and_congr_right fun _ => ?_
    cases r.ofFields s <;> simp [Placed.fail]
  · have hnothing : v.isNothing = true := by simp [Placed.isNothing, hresolved, h]
    rw [hresolved, h]
    simp only [if_pos hnothing, pure, Except.pure, bind_eq_ok_iff, Except.ok.injEq, exists_eq_left']
    refine exists_congr fun s => and_congr_right fun _ => ?_
    cases r.ofFields s <;> simp [Placed.fail]

/-- **A record is read from its parts**, whatever the order of the entries: as what its fields come
to, once they are filled from the parts in their own order. -/
theorem ReadAs.record (hr : r.Lawful) (filled : Prop) (s : σ) {ok : Prop} {b : α}
    (h : ∀ v entries, v.document = d → EntriesWrite d parts entries → ∀ u,
      r.Filled (entries.flatMap (meant r v)) r.start u ↔ filled ∧ u = s)
    (hfields : ∀ a, filled ∧ r.ofFields s = .ok a ↔ ok ∧ a = b) :
    ReadAs d (readRecord r) (WritesAll d parts) ok b := by
  rintro v node a hd hnode ⟨entries, entries', hmapping, hperm, hwritten⟩
  have hkeys : ∀ e ∈ entries, ∃ x, readKey v e.1 = .ok x :=
    fun e he => hwritten.exists_readKey hd e (hperm.mem_iff.1 he)
  have hmeant := hperm.flatMap_right (meant r v)
  -- the entries as they stand, then in the order of the parts
  have hfilled : ∀ u, entries.foldlM (readEntry r v) r.start = .ok u ↔ filled ∧ u = s := by
    intro u
    rw [foldlM_readEntry_eq_ok_iff hkeys, ← h v entries' hd hwritten u]
    exact ⟨fun h => h.perm hr hmeant, fun h => h.perm hr hmeant.symm⟩
  rw [readRecord_eq_ok_iff hd hnode hmapping, ← hfields]
  simp only [hfilled]
  constructor
  · rintro ⟨u, ⟨hok, rfl⟩, hrecord⟩
    exact ⟨hok, hrecord⟩
  · rintro ⟨hok, hrecord⟩
    exact ⟨s, ⟨hok, rfl⟩, hrecord⟩

/-- **One part fills one field**, if it is there. -/
theorem EntriesWrite.filled_iff {f : Field Placed Fault σ} {read : Placed → Read β} {put : β → σ → σ}
    {written : χ → Node → Prop} {ok : χ → Prop} {value : χ → β} {x : Option χ}
    (h : EntriesWrite d (⟨name, x.map written⟩ :: parts) entries) (hfield : r.fieldNamed? name = some f)
    (hf : f.Puts read put) (hread : ∀ x, ReadAs d read (written x) (ok x) (value x))
    (hd : v.document = d) : ∃ rest, EntriesWrite d parts rest ∧ ∀ s u,
      r.Filled (entries.flatMap (meant r v)) s u ↔ (∀ y ∈ x, f.isRead s = false ∧ ok y) ∧
        r.Filled (rest.flatMap (meant r v)) (x.elim s fun y => put (value y) s) u := by
  cases x with
  | none =>
    cases h with
    | absent h => exact ⟨entries, h, by simp⟩
  | some y =>
    cases h with
    | @there _ _ _ key node entries hkey hvalue h =>
      refine ⟨entries, h, fun s u => ?_⟩
      obtain ⟨step, hname⟩ := Yaml.exists_readKey hd hkey
      have hmeant : meant r v (key, node) = [(f, v.inner step node)] := by
        rw [meant, hname, ← RecordType.meant_of_some hfield]
      have hmem : f ∈ r.fields := (RecordType.fieldNamed?_mem hfield).1
      have hvalueRead : ∀ b, read (v.inner step node) = .ok b ↔ ok y ∧ b = value y :=
        fun b => hread y hd rfl hvalue
      rw [List.flatMap_cons, hmeant, List.singleton_append, RecordType.filled_cons_iff]
      simp [hmem, hf.read_eq_ok_iff, hvalueRead, and_assoc]

end Yaml

end DataLineage
