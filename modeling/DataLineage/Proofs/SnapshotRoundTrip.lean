import DataLineage.Project.SnapshotJson
import DataLineage.Proofs.WrittenTrees

/-!
# Snapshots as they are written

The JSON text of a snapshot is read back as the snapshot: whatever stands in its names, with a
default source or without one, and for every list of objects. Each part of a snapshot has a tree
that it is written as and a reader of its own, and each reader gives its part back from the value
that the tree comes back as.

* `Json.readsBack_list`: a list is read back when its items are.
* `Json.readMember_ofString`: a member is read into the field that its name means.
* `Json.readsBack_objectRecord`, `Json.readsBack_defaults`, `Json.readsBack_snapshot`: the records.
* `ProjectSnapshot.ofJson_toJson`: the statement.
-/

namespace DataLineage

namespace Json

variable {α σ : Type} {read : Value → Read α} {tree : α → Tree}

/-- **A reader gives back what was written**, from the value that its tree comes back as. -/
def ReadsBack (read : Value → Read α) (tree : α → Tree) : Prop := ∀ x, read (tree x).value = .ok x

theorem readsBack_text : ReadsBack readText .text := Text.decode_ofString

/-- A text that is missing is written as `null`, and no text is. -/
theorem readsBack_optionalText :
    ReadsBack (readOption readText) fun x => (x.map Tree.text).getD .null := by
  intro x
  cases x with
  | none => rfl
  | some text =>
    have hread : readText (Tree.text text).value = .ok text := readsBack_text text
    exact congrArg (Except.map some) hread

theorem readsBack_type : ReadsBack readType fun t => .text t.tag := by
  intro t
  rw [Tree.value, readType, readVariant]
  simp only [Text.decode_ofString, bind, Except.bind, ObjectType.ofTag?_tag]

/-- A list is read back when its items are. -/
theorem readsBack_list (h : ReadsBack read tree) :
    ReadsBack (readList read) fun xs => .array (xs.map tree) := by
  intro xs
  have hitems : (itemValues (xs.map tree)).mapM read = Except.ok xs := by
    induction xs with
    | nil => rfl
    | cons x xs ih =>
      rw [List.map_cons, itemValues, List.mapM_cons, h, ih]
      rfl
  rw [Tree.value, readList, hitems]
  rfl

/-! ## Records -/

/-- A member is read into the field that its name means, if that has not been read. -/
theorem readMember_ofString {r : RecordType Value Fault σ α} {key : String} {v : Value}
    {f : Field Value Fault σ} {s s' : σ} (hfield : r.fieldNamed? key = some f)
    (hnew : f.isRead s = false) (hread : f.read v s = .ok s') :
    readMember r s (.ofString key, v) = .ok s' := by
  have hmember : readMember r s (.ofString key, v) =
      if f.isRead s then throw (.shape (.duplicateField f.name)) else f.read v s := by
    rw [readMember, Text.decode_ofString]
    simp only [bind, Except.bind, hfield]
  rw [hmember, hnew, hread]
  rfl

/-- Members are read one after another into fields, each of which is new. -/
theorem foldlM_readMember {r : RecordType Value Fault σ α} {key : String} {v : Value}
    {f : Field Value Fault σ} {s s' t : σ} {rest : List (Text × Value)}
    (hfield : r.fieldNamed? key = some f) (hnew : f.isRead s = false)
    (hread : f.read v s = .ok s') (hrest : rest.foldlM (readMember r) s' = .ok t) :
    ((.ofString key, v) :: rest).foldlM (readMember r) s = .ok t := by
  rw [List.foldlM_cons, readMember_ofString hfield hnew hread]
  exact hrest

/-- A record is what the fields of an object come to. -/
theorem readRecord_object {r : RecordType Value Fault σ α} {members : List (Text × Value)} {s : σ}
    {a : α} (hmembers : members.foldlM (readMember r) r.start = .ok s)
    (hrecord : r.ofFields s = .ok a) : readRecord r (.object members none) = .ok a := by
  rw [readRecord, hmembers]
  simp only [bind, Except.bind, closed, hrecord]
  rfl

theorem readsBack_objectRecord : ReadsBack readObjectRecord ObjectRecord.tree := by
  intro r
  have hname : readText (Tree.text r.name).value = .ok r.name := readsBack_text _
  have htype : readType (Tree.text r.type.tag).value = .ok r.type := readsBack_type _
  have hnames : readList readText (Tree.array (r.dependsOn.map .text)).value = .ok r.dependsOn :=
    readsBack_list readsBack_text _
  -- each member has the name of a field that none before it had
  refine readRecord_object (s := ⟨some r.name, some r.type, some r.dependsOn⟩) ?_ rfl
  refine foldlM_readMember rfl rfl (congrArg (Except.map _) hname) ?_
  refine foldlM_readMember rfl rfl (congrArg (Except.map _) htype) ?_
  exact foldlM_readMember rfl rfl (congrArg (Except.map _) hnames) rfl

theorem readsBack_defaults : ReadsBack readDefaults fun d =>
    .object [("source_name", (d.sourceName.map Tree.text).getD .null)] := by
  intro d
  have hsource : readOption readText ((d.sourceName.map Tree.text).getD .null).value =
      .ok d.sourceName := readsBack_optionalText _
  exact readRecord_object (s := ⟨some d.sourceName⟩)
    (foldlM_readMember rfl rfl (congrArg (Except.map _) hsource) rfl) rfl

theorem readsBack_snapshot : ReadsBack readSnapshot ProjectSnapshot.tree := by
  intro s
  have hdefaults := readsBack_defaults s.defaults
  have hobjects := readsBack_list readsBack_objectRecord s.objects
  refine readRecord_object (s := ⟨some s.defaults, some s.objects⟩) ?_ rfl
  refine foldlM_readMember rfl rfl (congrArg (Except.map _) hdefaults) ?_
  exact foldlM_readMember rfl rfl (congrArg (Except.map _) hobjects) rfl

end Json

/-- **Round trip of snapshots.** The JSON text of a snapshot is read, and as that snapshot. -/
theorem ProjectSnapshot.ofJson_toJson (s : ProjectSnapshot) :
    ProjectSnapshot.ofJson s.toJson = .ok s := by
  have hdocument : Json.Document.ofChars s.toJson.toList = ⟨s.tree.value, false⟩ := by
    rw [toJson, String.toList_ofList, Json.ofChars_write]
  rw [ofJson, hdocument, Json.Document.read, Json.readsBack_snapshot s]
  rfl

/-- Marks and control characters do not stand in a text as they are. -/
example :
    ProjectSnapshot.toJson ⟨{}, [⟨"\"é\u0001", .chart, ["\n"]⟩]⟩ =
      "\x7b\"defaults\":\x7b\"source_name\":null\x7d,\"objects\":[\x7b\"name\":\"\\\"é\\u0001\"," ++
        "\"type\":\"chart\",\"depends_on\":[\"\\n\"]\x7d]\x7d" := by decide +kernel

end DataLineage
