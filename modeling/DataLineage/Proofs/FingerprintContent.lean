import DataLineage.Project.Fingerprint
import DataLineage.Text.Digit
import Mathlib.Data.List.Basic
import Mathlib.Tactic.SplitIfs

/-!
# What a fingerprint tells of a registry

The records of a registry are written one after the other, and each part of a record ends with a
mark, a byte that is a character wherever it stands in a text. From the bytes, a name is what comes
before the first mark of its kind, and a record has no more dependencies where the mark that ends
records stands in place of one. So the bytes tell the records as long as no text holds the mark that
ends it and no dependency begins with the mark that ends records (`ObjectRecord.Delimited`). A
project may hold other texts too, and then two registries can have the same bytes, so the same
fingerprint whatever the digest is like.

* `Sha256.hexDigest_eq_iff`: the text of a digest tells the digest.
* `mem_of_mem_utf8`: a mark in the bytes of a text is a character of the text.
* `Registry.encode_eq_iff`: the bytes tell the records.
* `Registry.fingerprint_eq_iff`: fingerprints tell the records, if the digest tells their bytes.
-/

namespace DataLineage

/-! ### The text of a digest -/

namespace Sha256

theorem hexWord_injective : Function.Injective hexWord := by
  intro v w h
  have hdigit : ∀ i ∈ List.range 8,
      v.toNat / Nat.pow 16 (7 - i) % 16 = w.toNat / Nat.pow 16 (7 - i) % 16 := by
    intro i hi
    have hchar := congrArg hexValue? (List.map_inj_left.1 h i hi)
    rwa [hexValue?_digitChar _ (Nat.mod_lt _ (by decide)),
      hexValue?_digitChar _ (Nat.mod_lt _ (by decide)), Option.some.injEq] at hchar
  have hv : v.toNat < 16 ^ 8 := v.toNat_lt
  have hw : w.toNat < 16 ^ 8 := w.toNat_lt
  -- a number below 16 ^ 8 has no other digits
  simp only [List.range_succ, List.range_zero, List.nil_append, List.cons_append, List.mem_cons,
    List.not_mem_nil, or_false, forall_eq_or_imp, forall_eq, Nat.pow_eq, Nat.sub_zero,
    Nat.sub_self, Nat.reduceSub, Nat.pow_zero, Nat.pow_one, Nat.reducePow, Nat.div_one] at hdigit
  apply UInt32.toNat_inj.1
  omega

/-- The text of a digest tells the digest. -/
theorem hexDigest_eq_iff {m n : List UInt8} : hexDigest m = hexDigest n ↔ digest m = digest n := by
  -- each of the eight words takes eight digits
  have hlength : ∀ m, ((digest m).map hexWord).map List.length = List.replicate 8 8 := fun _ => rfl
  have hflat : ((digest m).map hexWord).flatten = ((digest n).map hexWord).flatten ↔
      (digest m).map hexWord = (digest n).map hexWord := by
    rw [List.eq_iff_flatten_eq, hlength m, hlength n]
    exact (and_iff_left rfl).symm
  rw [hexDigest, hexDigest, String.ofList_inj, List.flatMap_def, List.flatMap_def, hflat,
    hexWord_injective.list_map.eq_iff]

end Sha256

/-! ### Texts as bytes -/

theorem toList_eq_data_toList (bytes : ByteArray) : bytes.toList = bytes.data.toList := by
  have hloop : ∀ i r, ByteArray.toList.loop bytes i r = r.reverse ++ bytes.data.toList.drop i := by
    intro i r
    fun_induction ByteArray.toList.loop bytes i r with
    | case1 i r hlt ih =>
      have hget : bytes.data.toList.drop i = bytes.get! i :: bytes.data.toList.drop (i + 1) := by
        have hlt : i < bytes.data.size := hlt
        rw [List.drop_eq_getElem_cons (by simpa using hlt), ByteArray.get!,
          getElem!_pos bytes.data i hlt]
        rfl
      rw [ih, hget, List.reverse_cons, List.append_assoc, List.singleton_append]
    | case2 i r hge =>
      rw [List.drop_eq_nil_of_le (by simpa using Nat.le_of_not_lt hge), List.append_nil]
  rw [ByteArray.toList, hloop, List.reverse_nil, List.nil_append, List.drop_zero]

theorem utf8_eq_flatMap (s : String) : utf8 s = s.toList.flatMap String.utf8EncodeChar := by
  rw [utf8, String.toUTF8_eq_toByteArray, toList_eq_data_toList, ← String.utf8Encode_toList,
    List.utf8Encode, List.toList_data_toByteArray]

theorem utf8_injective : Function.Injective utf8 := by
  intro s t h
  rw [utf8, utf8, toList_eq_data_toList, toList_eq_data_toList, Array.toList_inj] at h
  exact String.toByteArray_inj.1 (ByteArray.ext h)

section Marks

variable {b : UInt8} {s : String}

/-- A byte below 128 stands for itself. -/
theorem eq_of_mem_utf8EncodeChar {c : Char} (hb : b.toNat < 128) (h : b ∈ String.utf8EncodeChar c) :
    c = .ofUInt8 b := by
  apply Char.toNat_inj.1
  have hmax := c.val.toNat_lt
  have hc : c.toNat = c.val.toNat := rfl
  have hchar : (Char.ofUInt8 b).toNat = b.toNat := rfl
  simp only [String.utf8EncodeChar] at h
  split_ifs at h with h1 h2 h3 <;>
    simp only [List.mem_cons, List.not_mem_nil, or_false, ← UInt8.toNat_inj,
      UInt8.toNat_ofNat'] at h <;>
    omega

/-- A mark in the bytes of a text is a character of the text. -/
theorem mem_of_mem_utf8 (hb : b.toNat < 128) (h : b ∈ utf8 s) : .ofUInt8 b ∈ s.toList := by
  rw [utf8_eq_flatMap] at h
  obtain ⟨c, hc, hbc⟩ := List.mem_flatMap.1 h
  rwa [← eq_of_mem_utf8EncodeChar hb hbc]

theorem head?_of_head?_utf8 (hb : b.toNat < 128) (h : (utf8 s).head? = some b) :
    s.toList.head? = some (.ofUInt8 b) := by
  rw [utf8_eq_flatMap] at h
  cases hs : s.toList with
  | nil =>
    rw [hs] at h
    cases h
  | cons c cs =>
    rw [hs, List.flatMap_cons, List.head?_append_of_ne_nil _ String.utf8EncodeChar_ne_nil] at h
    rw [List.head?_cons, eq_of_mem_utf8EncodeChar hb (List.mem_of_head? h)]

end Marks

/-! ### Records as bytes -/

/-- A dependency that can be told from its record's bytes. -/
structure DelimitedDependency (name : String) : Prop where
  whole : .ofUInt8 dependencyEnd ∉ name.toList
  start : name.toList.head? ≠ some (.ofUInt8 recordEnd)

instance (name : String) : Decidable (DelimitedDependency name) :=
  decidable_of_iff (.ofUInt8 dependencyEnd ∉ name.toList ∧
    name.toList.head? ≠ some (.ofUInt8 recordEnd)) ⟨fun h => ⟨h.1, h.2⟩, fun h => ⟨h.1, h.2⟩⟩

/-- A record whose parts can be told from its bytes. -/
structure ObjectRecord.Delimited (record : ObjectRecord) : Prop where
  name : .ofUInt8 fieldEnd ∉ record.name.toList
  dependsOn : ∀ d ∈ record.dependsOn, DelimitedDependency d

instance (record : ObjectRecord) : Decidable record.Delimited :=
  decidable_of_iff (.ofUInt8 fieldEnd ∉ record.name.toList ∧
    ∀ d ∈ record.dependsOn, DelimitedDependency d) ⟨fun h => ⟨h.1, h.2⟩, fun h => ⟨h.1, h.2⟩⟩

theorem ObjectType.fieldEnd_notMem_tag (t : ObjectType) : .ofUInt8 fieldEnd ∉ t.tag.toList := by
  cases t <;> decide

theorem ObjectType.tag_injective : Function.Injective tag := by
  intro t u h
  have htype := congrArg ofTag? h
  rwa [ofTag?_tag, ofTag?_tag, Option.some.injEq] at htype

section Parts

variable {us vs : List UInt8}

/-- A text before a mark that it does not hold can be told from what follows the mark. -/
theorem utf8_append_inj {b : UInt8} {s t : String} (hb : b.toNat < 128)
    (hs : .ofUInt8 b ∉ s.toList) (ht : .ofUInt8 b ∉ t.toList)
    (h : utf8 s ++ b :: us = utf8 t ++ b :: vs) : s = t ∧ us = vs := by
  have hsb : b ∉ utf8 s := fun hmem => hs (mem_of_mem_utf8 hb hmem)
  have htb : b ∉ utf8 t := fun hmem => ht (mem_of_mem_utf8 hb hmem)
  -- both texts are as long as what comes before the first mark
  have hlength : (utf8 s).length = (utf8 t).length := by
    have hfirst := congrArg (List.idxOf b) h
    rwa [List.idxOf_append_of_notMem hsb, List.idxOf_append_of_notMem htb, List.idxOf_cons_self,
      List.idxOf_cons_self] at hfirst
  obtain ⟨htext, hrest⟩ := List.append_inj h hlength
  exact ⟨utf8_injective htext, (List.cons.inj hrest).2⟩

/-- No dependency is taken for the end of the record. -/
theorem DelimitedDependency.utf8_append_ne {name : String} (h : DelimitedDependency name) :
    utf8 name ++ dependencyEnd :: us ≠ recordEnd :: vs := by
  intro heq
  have hhead := congrArg List.head? heq
  cases hname : utf8 name with
  | nil =>
    rw [hname] at hhead
    exact absurd (Option.some.inj hhead) (by decide)
  | cons b bs =>
    rw [hname] at hhead
    exact h.start (head?_of_head?_utf8 (by decide) (hname ▸ hhead))

/-- The dependencies of a record can be told from what follows the record. -/
theorem dependsOn_inj {ds es : List String} (hd : ∀ d ∈ ds, DelimitedDependency d)
    (he : ∀ e ∈ es, DelimitedDependency e)
    (h : ds.flatMap (fun d => utf8 d ++ [dependencyEnd]) ++ recordEnd :: us =
      es.flatMap (fun e => utf8 e ++ [dependencyEnd]) ++ recordEnd :: vs) : ds = es ∧ us = vs := by
  induction ds generalizing es with
  | nil =>
    cases es with
    | nil => exact ⟨rfl, (List.cons.inj h).2⟩
    | cons e es =>
      simp only [List.flatMap_cons, List.append_assoc, List.singleton_append] at h
      exact absurd h.symm (he e List.mem_cons_self).utf8_append_ne
  | cons d ds ih =>
    have hds := fun x hx => hd x (List.mem_cons_of_mem d hx)
    simp only [List.flatMap_cons, List.append_assoc, List.singleton_append] at h
    cases es with
    | nil => exact absurd h (hd d List.mem_cons_self).utf8_append_ne
    | cons e es =>
      have hes := fun x hx => he x (List.mem_cons_of_mem e hx)
      simp only [List.flatMap_cons, List.append_assoc, List.singleton_append] at h
      obtain ⟨rfl, htail⟩ := utf8_append_inj (by decide) (hd d List.mem_cons_self).whole
        (he e List.mem_cons_self).whole h
      obtain ⟨hrest, hend⟩ := ih hds hes htail
      exact ⟨by rw [hrest], hend⟩

namespace ObjectRecord

/-- A record can be told from what follows it. -/
theorem Delimited.encode_append_inj {p q : ObjectRecord} (hp : p.Delimited) (hq : q.Delimited)
    (h : p.encode ++ us = q.encode ++ vs) : p = q ∧ us = vs := by
  simp only [encode, List.append_assoc, List.cons_append] at h
  obtain ⟨hname, h⟩ := utf8_append_inj (by decide) hp.name hq.name h
  obtain ⟨htag, h⟩ := utf8_append_inj (by decide) p.type.fieldEnd_notMem_tag
    q.type.fieldEnd_notMem_tag h
  obtain ⟨hdependsOn, h⟩ := dependsOn_inj hp.dependsOn hq.dependsOn h
  exact ⟨ext_iff.2 ⟨hname, ObjectType.tag_injective htag, hdependsOn⟩, h⟩

theorem encode_ne_nil (p : ObjectRecord) : p.encode ≠ [] := by simp [encode]

theorem flatMap_encode_inj {ps qs : List ObjectRecord} (hp : ∀ p ∈ ps, p.Delimited)
    (hq : ∀ q ∈ qs, q.Delimited) (h : ps.flatMap encode = qs.flatMap encode) : ps = qs := by
  induction ps generalizing qs with
  | nil =>
    cases qs with
    | nil => rfl
    | cons q qs => exact absurd (List.append_eq_nil_iff.1 h.symm).1 q.encode_ne_nil
  | cons p ps ih =>
    cases qs with
    | nil => exact absurd (List.append_eq_nil_iff.1 h).1 p.encode_ne_nil
    | cons q qs =>
      obtain ⟨rfl, hrest⟩ :=
        (hp p List.mem_cons_self).encode_append_inj (hq q List.mem_cons_self) h
      rw [ih (fun x hx => hp x (List.mem_cons_of_mem p hx))
        (fun x hx => hq x (List.mem_cons_of_mem p hx)) hrest]

end ObjectRecord

end Parts

/-! ### Fingerprints -/

namespace Registry

variable {r s : Registry}

/-- The bytes tell the records. -/
theorem encode_eq_iff (hr : ∀ record ∈ r.toList, record.Delimited)
    (hs : ∀ record ∈ s.toList, record.Delimited) : r.encode = s.encode ↔ r.toList = s.toList :=
  ⟨ObjectRecord.flatMap_encode_inj hr hs, fun h => by rw [encode, encode, h]⟩

/-- **Fingerprints tell the records.** If the digest does not take the bytes of one of the two for
the other's, the registries have one fingerprint exactly when they hold the same records in the same
order. -/
theorem fingerprint_eq_iff (hr : ∀ record ∈ r.toList, record.Delimited)
    (hs : ∀ record ∈ s.toList, record.Delimited)
    (hdigest : Sha256.digest r.encode = Sha256.digest s.encode → r.encode = s.encode) :
    r.fingerprint = s.fingerprint ↔ r.toList = s.toList := by
  rw [← encode_eq_iff hr hs, fingerprint, fingerprint, Fingerprint.mk.injEq,
    Sha256.hexDigest_eq_iff]
  exact ⟨hdigest, fun h => by rw [h]⟩

/-- A dependency on two names has another fingerprint than a dependency on the joined name. -/
theorem fingerprint_ne_of_joined :
    (ofList [⟨"a", .model, ["b", "c"]⟩]).fingerprint ≠
      (ofList [⟨"a", .model, ["bc"]⟩]).fingerprint := by
  have hr : ∀ record ∈ (ofList [⟨"a", .model, ["b", "c"]⟩]).toList, record.Delimited := by decide
  have hs : ∀ record ∈ (ofList [⟨"a", .model, ["bc"]⟩]).toList, record.Delimited := by decide
  have hdigest : Sha256.digest (ofList [⟨"a", .model, ["b", "c"]⟩]).encode ≠
      Sha256.digest (ofList [⟨"a", .model, ["bc"]⟩]).encode := by
    decide +kernel
  rw [Ne, fingerprint_eq_iff hr hs fun h => absurd h hdigest]
  decide

/-- One dependency whose name holds the mark that ends dependencies, and the two that come of taking
it apart there, are written with the same bytes. -/
theorem fingerprint_eq_of_mark :
    (ofList [⟨"a", .model, ["b", "c"]⟩]).toList ≠ (ofList [⟨"a", .model, ["b\x1ec"]⟩]).toList ∧
    (ofList [⟨"a", .model, ["b", "c"]⟩]).encode = (ofList [⟨"a", .model, ["b\x1ec"]⟩]).encode ∧
    (ofList [⟨"a", .model, ["b", "c"]⟩]).fingerprint =
      (ofList [⟨"a", .model, ["b\x1ec"]⟩]).fingerprint := by
  have hencode : (ofList [⟨"a", .model, ["b", "c"]⟩]).encode =
      (ofList [⟨"a", .model, ["b\x1ec"]⟩]).encode := by
    decide +kernel
  refine ⟨by decide, hencode, ?_⟩
  rw [fingerprint, fingerprint, hencode]

/-- A name that holds the mark that ends names. -/
example : (ofList [⟨"a\x1fmodel\x1f\x1dc", .model, []⟩]).encode =
    (ofList [⟨"a", .model, []⟩, ⟨"c", .model, []⟩]).encode := by
  decide +kernel

/-- A dependency that begins with the mark that ends records. -/
example : (ofList [⟨"a", .model, ["\x1dc\x1fmodel\x1f"]⟩]).encode =
    (ofList [⟨"a", .model, []⟩, ⟨"c", .model, [""]⟩]).encode := by
  decide +kernel

end Registry

end DataLineage
