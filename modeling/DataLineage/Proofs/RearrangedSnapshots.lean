import DataLineage.Project.SnapshotJson
import DataLineage.Proofs.RearrangedMembers

/-!
# Snapshots with their members in another order

The JSON text of a snapshot can spell its value in any way, have the members of each object that is
read as a snapshot, as defaults or as a record in another order, have `dependency_names` for
`depends_on` or the other way round, and have further members with any values: it is read as the
same snapshot.

* `ProjectSnapshot.ofJson_eq_ok_iff`: an accepted text spells one value, which is read.
* `ProjectSnapshot.ofJson_rearranged`: the statement.
-/

namespace DataLineage

namespace Json

/-! ## The fields of snapshots -/

/-- The fields of a record. Its dependency names stand under either of two names. -/
def recordForms : List FieldForm :=
  [⟨["name"], Eq⟩, ⟨["type"], Eq⟩, ⟨["depends_on", "dependency_names"], Eq⟩]

def defaultsForms : List FieldForm := [⟨["source_name"], Eq⟩]

/-- The fields of a snapshot, in which the defaults and each record can be rearranged. -/
def snapshotForms : List FieldForm :=
  [⟨["defaults"], RecordAlike defaultsForms⟩, ⟨["objects"], ListAlike (RecordAlike recordForms)⟩]

/-- **Rearrangements of a snapshot.** -/
def SnapshotAlike : Value → Value → Prop := RecordAlike snapshotForms

theorem Keeps.eq {α : Type} (read : Value → Read α) : Keeps read Eq := by
  rintro v _ a rfl h
  exact h

theorem hasForms_objectRecord :
    HasForms (ObjectRecord.recordType readText readType (readList readText)) recordForms where
  inOrder := by
    refine .cons ⟨rfl, ?_⟩ (.cons ⟨rfl, ?_⟩ (.cons ⟨rfl, ?_⟩ .nil))
    all_goals exact .of_puts (fun _ _ => rfl) (.eq _)
  distinct := by simp [recordForms]

theorem hasForms_defaults :
    HasForms (ProjectDefaults.recordType (readOption readText)) defaultsForms where
  inOrder := .cons ⟨rfl, .of_puts (fun _ _ => rfl) (.eq _)⟩ .nil
  distinct := List.pairwise_singleton _ _

theorem hasForms_snapshot :
    HasForms (ProjectSnapshot.recordType readDefaults (readList readObjectRecord))
      snapshotForms where
  inOrder := by
    refine .cons ⟨rfl, ?_⟩ (.cons ⟨rfl, ?_⟩ .nil)
    · exact .of_puts (fun _ _ => rfl) (.record ProjectDefaults.lawful hasForms_defaults)
    · exact .of_puts (fun _ _ => rfl)
        (.list (.record ObjectRecord.lawful hasForms_objectRecord))
  distinct := by simp [snapshotForms]

/-! ## Reading snapshots -/

/-- **A snapshot is read the same from a rearranged value.** -/
theorem keeps_snapshot : Keeps readSnapshot SnapshotAlike :=
  .record ProjectSnapshot.lawful hasForms_snapshot

theorem whole_objectRecord : Whole readObjectRecord := by
  refine .record fun f hf => ?_
  simp only [ObjectRecord.recordType, List.mem_cons, List.not_mem_nil, or_false] at hf
  rcases hf with rfl | rfl | rfl
  · exact .of_puts (fun _ _ => rfl) .text
  · exact .of_puts (fun _ _ => rfl) (.variant _ _)
  · exact .of_puts (fun _ _ => rfl) (.list .text)

theorem whole_defaults : Whole readDefaults := by
  refine .record fun f hf => ?_
  obtain rfl := List.mem_singleton.1 hf
  exact .of_puts (fun _ _ => rfl) (.option .text)

theorem whole_snapshot : Whole readSnapshot := by
  refine .record fun f hf => ?_
  simp only [ProjectSnapshot.recordType, List.mem_cons, List.not_mem_nil, or_false] at hf
  rcases hf with rfl | rfl
  · exact .of_puts (fun _ _ => rfl) whole_defaults
  · exact .of_puts (fun _ _ => rfl) (.list whole_objectRecord)

theorem Value.Spelled.unique {v w : Value} {cs : List Char} (hv : v.Spelled cs)
    (hw : w.Spelled cs) : v = w := by
  have hread := (ofChars_eq_iff.2 hv).1
  rw [(ofChars_eq_iff.2 hw).1] at hread
  exact (congrArg Document.value hread).symm

end Json

namespace ProjectSnapshot

variable {text : String} {s : ProjectSnapshot}

/-- **What it takes to read a snapshot**: the text spells a value, which is read. -/
theorem ofJson_eq_ok_iff : ofJson text = .ok s ↔
    ∃ v : Json.Value, v.Spelled text.toList ∧ Json.readSnapshot v = .ok s := by
  rw [ofJson, Json.Document.read, bind_eq_ok_iff]
  constructor
  · rintro ⟨s', hread, hend⟩
    cases htrailing : (Json.Document.ofChars text.toList).trailing with
    | true =>
      rw [htrailing] at hend
      cases hend
    | false =>
      rw [htrailing] at hend
      cases hend
      refine ⟨_, Json.ofChars_eq_iff.1 ⟨?_, Json.whole_snapshot hread⟩, hread⟩
      rw [← htrailing]
  · rintro ⟨v, hv, hread⟩
    refine ⟨s, ?_, ?_⟩
    · rw [(Json.ofChars_eq_iff.2 hv).1]
      exact hread
    · rw [(Json.ofChars_eq_iff.2 hv).1]
      rfl

/-- **Order and spelling of members do not matter.** A text that is read as a snapshot spells a value;
every text that spells a rearrangement of it is read as the same snapshot. -/
theorem ofJson_rearranged (h : ofJson text = .ok s) :
    (∃ v : Json.Value, v.Spelled text.toList) ∧
      ∀ (v v' : Json.Value) (text' : String), v.Spelled text.toList → Json.SnapshotAlike v v' →
        v'.Spelled text'.toList → ofJson text' = .ok s := by
  obtain ⟨v, hv, hread⟩ := ofJson_eq_ok_iff.1 h
  refine ⟨⟨v, hv⟩, fun w w' text' hw halike hw' => ?_⟩
  obtain rfl := hv.unique hw
  exact ofJson_eq_ok_iff.2 ⟨w', hw', Json.keeps_snapshot halike hread⟩

/-- A record the other way round, with the other name for its dependencies and one more member. -/
theorem ofJson_reversed_record :
    ofJson ("\x7b\"objects\": [\x7b\"name\": \"a\", \"type\": \"model\", " ++
        "\"depends_on\": [\"b\"]\x7d]\x7d") = .ok ⟨{}, [⟨"a", .model, ["b"]⟩]⟩ ∧
      ofJson ("\x7b\"objects\":[\x7b\"tags\":[\x7b\x7d,null],\"dependency_names\":[\"b\"]," ++
        "\"type\":\"model\",\"name\":\"a\"\x7d]\x7d") = .ok ⟨{}, [⟨"a", .model, ["b"]⟩]⟩ := by
  have hv : Json.Value.Spelled
      (Json.Tree.object [("objects", .array [.object [("name", .text "a"), ("type", .text "model"),
        ("depends_on", .array [.text "b"])]])]).value
      ("\x7b\"objects\": [\x7b\"name\": \"a\", \"type\": \"model\", " ++
        "\"depends_on\": [\"b\"]\x7d]\x7d").toList :=
    (Json.spelled_iff_tokens rfl).2 (by decide +kernel)
  have hv' : Json.Value.Spelled
      (Json.Tree.object [("objects", .array [.object [("tags", .array [.object [], .null]),
        ("dependency_names", .array [.text "b"]), ("type", .text "model"),
        ("name", .text "a")]])]).value
      ("\x7b\"objects\":[\x7b\"tags\":[\x7b\x7d,null],\"dependency_names\":[\"b\"]," ++
        "\"type\":\"model\",\"name\":\"a\"\x7d]\x7d").toList :=
    (Json.spelled_iff_tokens rfl).2 (by decide +kernel)
  have hread := ofJson_eq_ok_iff.2 ⟨_, hv, rfl⟩
  have hkey : ∀ key, (Json.Text.ofString key).decode = .ok key := Json.Text.decode_ofString
  refine ⟨hread, (ofJson_rearranged hread).2 _ _ _ hv ?_ hv'⟩
  refine .object (.field (List.mem_of_getElem? (i := 1) rfl) (hkey "objects") (by decide)
    (hkey "objects") (by decide) (.array (.cons (.object ?_) .nil)) .nil)
  refine .perm ?_ (List.reverse_perm _)
  refine .same _ (.same _ (.field (List.mem_of_getElem? (i := 2) rfl) (hkey "depends_on")
    (by decide) (hkey "dependency_names") (by decide) rfl ?_))
  exact .added (hkey "tags") (by simp [Json.recordForms]) rfl .nil

end ProjectSnapshot

end DataLineage
