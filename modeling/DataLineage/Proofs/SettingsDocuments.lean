import DataLineage.Proofs.MappedRecords
import DataLineage.Settings.Yaml

/-!
# What settings documents say

A settings document writes some of the seven settings, each in its section, and leaves the others
out. Read back, it gives what is written and the defaults for the rest, with one exception: the two
numbers of a node size come together, and so do those of a spacing. A section that has one of its two
numbers, or is there with none, makes the document unreadable.

* `Settings.Written`: some of the settings.
* `Settings.Written.IsWrittenIn`: the texts that write them.
* `Settings.ofYaml_eq_ok_iff_complete`: **when such a text is read, and as what.**
-/

namespace DataLineage

/-! ## Written settings -/

namespace Settings

/-- The numbers of a node size or a spacing that are written. -/
structure WrittenPair where
  first : Option Float := none
  second : Option Float := none

structure WrittenBuild where
  idScheme : Option IdScheme := none
  defaultSource : Option (Option String) := none

structure WrittenLayout where
  nodeSize : Option WrittenPair := none
  spacing : Option WrittenPair := none
  maxSweeps : Option Nat := none

/-- **Some of the settings**, in the sections that are written. -/
structure Written where
  build : Option WrittenBuild := none
  layout : Option WrittenLayout := none

/-- Both numbers are written. -/
def WrittenPair.Complete (p : WrittenPair) : Prop := p.first.isSome ∧ p.second.isSome

namespace Written

def idScheme (w : Written) : Option IdScheme := w.build.bind (·.idScheme)

def defaultSource (w : Written) : Option (Option String) := w.build.bind (·.defaultSource)

def nodeSize (w : Written) : Option WrittenPair := w.layout.bind (·.nodeSize)

def spacing (w : Written) : Option WrittenPair := w.layout.bind (·.spacing)

def width (w : Written) : Option Float := w.nodeSize.bind (·.first)

def height (w : Written) : Option Float := w.nodeSize.bind (·.second)

def rankGap (w : Written) : Option Float := w.spacing.bind (·.first)

def orderGap (w : Written) : Option Float := w.spacing.bind (·.second)

def maxSweeps (w : Written) : Option Nat := w.layout.bind (·.maxSweeps)

/-- **The written settings, and the default for each that is not written.** -/
def settings (w : Written) : Settings where
  build := ⟨w.idScheme.getD .name, w.defaultSource.getD none⟩
  layout := ⟨⟨w.width.getD 200, w.height.getD 60⟩, ⟨w.rankGap.getD 80, w.orderGap.getD 30⟩,
    w.maxSweeps.getD 4⟩

/-- Each measure that is written can be one. -/
def InRange (w : Written) : Prop :=
  ∀ x, some x ∈ [w.width, w.height, w.rankGap, w.orderGap] → isMeasure x

/-- Where a node size or a spacing is written, both of its numbers are. -/
def Complete (w : Written) : Prop :=
  (∀ p ∈ w.nodeSize, p.Complete) ∧ ∀ p ∈ w.spacing, p.Complete

end Written

/-! ### Section by section -/

def WrittenBuild.options (w : WrittenBuild) : BuildOptions :=
  ⟨w.idScheme.getD .name, w.defaultSource.getD none⟩

def WrittenLayout.settings (w : WrittenLayout) : LayoutSettings :=
  ⟨⟨(w.nodeSize.bind (·.first)).getD 200, (w.nodeSize.bind (·.second)).getD 60⟩,
    ⟨(w.spacing.bind (·.first)).getD 80, (w.spacing.bind (·.second)).getD 30⟩, w.maxSweeps.getD 4⟩

def WrittenLayout.Complete (w : WrittenLayout) : Prop :=
  (∀ p ∈ w.nodeSize, p.Complete) ∧ ∀ p ∈ w.spacing, p.Complete

theorem Written.settings_eq (w : Written) : w.settings =
    ⟨(w.build.map (·.options)).getD {}, (w.layout.map (·.settings)).getD {}⟩ := by
  obtain ⟨build, layout⟩ := w
  cases build <;> cases layout <;> rfl

/-- A layout that is not written is complete. -/
theorem Written.complete_iff (w : Written) : w.Complete ↔ ∀ l ∈ w.layout, l.Complete := by
  obtain ⟨build, layout⟩ := w
  cases layout with
  | none => exact ⟨fun _ => nofun, fun _ => ⟨nofun, nofun⟩⟩
  | some l => exact ⟨fun h l' hl => Option.some.inj hl ▸ h, fun h => h l rfl⟩

end Settings

/-! ## What nodes say -/

namespace Yaml

section writing

variable (d : Document)

/-- A double is a plain scalar. -/
def WritesDouble (x : Float) (node : Node) : Prop :=
  ∃ p text, d.resolve node = some (.scalar p .plain text) ∧ double? text = some x

/-- A natural number of 64 bits is a plain scalar. -/
def WritesSize (n : Nat) (node : Node) : Prop :=
  ∃ p text, d.resolve node = some (.scalar p .plain text) ∧
    unsigned? (Nat.pow 2 64) text.toList = some n

/-- A scheme is a scalar with its tag as the text. -/
def WritesScheme (scheme : IdScheme) (node : Node) : Prop :=
  ∃ p style, d.resolve node = some (.scalar p style scheme.tag) ∧ ownName? p.tag = none

/-- No source is a plain null, or nothing; any other scalar is the name of a source. -/
def WritesSource : Option String → Node → Prop
  | none, node => ∃ p text, d.resolve node = some (.scalar p .plain text) ∧ p.tag = none ∧
      (text.isEmpty || isNull text)
  | some name, node => ∃ p style, d.resolve node = some (.scalar p style name) ∧
      (style = .plain → p.tag ≠ some (coreTag "null") ∧
        (p.tag = none → (name.isEmpty || isNull name) = false))

def WritesPair (first second : String) (w : Settings.WrittenPair) : Node → Prop :=
  WritesAll d [⟨first, w.first.map (WritesDouble d)⟩, ⟨second, w.second.map (WritesDouble d)⟩]

def WritesBuild (w : Settings.WrittenBuild) : Node → Prop :=
  WritesAll d [⟨"id_scheme", w.idScheme.map (WritesScheme d)⟩,
    ⟨"default_source", w.defaultSource.map (WritesSource d)⟩]

def WritesLayout (w : Settings.WrittenLayout) : Node → Prop :=
  WritesAll d [⟨"node_size", w.nodeSize.map (WritesPair d "width" "height")⟩,
    ⟨"spacing", w.spacing.map (WritesPair d "rank_gap" "order_gap")⟩,
    ⟨"max_sweeps", w.maxSweeps.map (WritesSize d)⟩]

/-- **A node that writes some settings**, at their places and in any order. -/
def WritesSettings (w : Settings.Written) : Node → Prop :=
  WritesAll d [⟨"build", w.build.map (WritesBuild d)⟩, ⟨"layout", w.layout.map (WritesLayout d)⟩]

end writing

end Yaml

/-- **A text that writes some settings** and nothing else. -/
def Settings.Written.IsWrittenIn (w : Settings.Written) (text : String) : Prop :=
  if isBlankText text then w = {}
  else ∃ d, Yaml.Document.ofText? text = some d ∧
    match d.root with
    | none => w = {}
    | some node => Yaml.WritesSettings d w node

/-! ## Reading them -/

namespace Yaml

open Settings

variable {d : Document}

/-! ### Scalars -/

theorem readAs_double (x : Float) : ReadAs d readDouble (WritesDouble d x) True x := by
  rintro v node a hd hnode ⟨p, text, hnode', hx⟩
  have hresolved := (resolved_eq hd hnode).trans hnode'
  simp [readDouble, hresolved, hx, eq_comm]

theorem readAs_size (n : Nat) : ReadAs d readSize (WritesSize d n) True n := by
  rintro v node a hd hnode ⟨p, text, hnode', hn⟩
  have hresolved := (resolved_eq hd hnode).trans hnode'
  simp [readSize, hresolved, hn, eq_comm]

theorem readAs_scheme (scheme : IdScheme) :
    ReadAs d readIdScheme (WritesScheme d scheme) True scheme := by
  rintro v node a hd hnode ⟨p, style, hnode', htag⟩
  have hresolved := (resolved_eq hd hnode).trans hnode'
  have hscheme : IdScheme.ofTag? scheme.tag = some scheme := by cases scheme <;> rfl
  simp [readIdScheme, readVariant, hresolved, htag, hscheme, eq_comm]

theorem readAs_source (source : Option String) :
    ReadAs d (readOption readText) (WritesSource d source) True source := by
  intro v node a hd hnode hwritten
  cases source with
  | none =>
    obtain ⟨p, text, hnode', htag, hnull⟩ := hwritten
    have hresolved := (resolved_eq hd hnode).trans hnode'
    simp [readOption, hresolved, htag, hnull, eq_comm]
  | some name =>
    obtain ⟨p, style, hnode', hplain⟩ := hwritten
    have hresolved := (resolved_eq hd hnode).trans hnode'
    have hread : readText v = .ok name := by simp [readText, hresolved]
    by_cases hstyle : style = .plain
    · obtain ⟨htag, hnull⟩ := hplain hstyle
      cases hp : p.tag with
      | none => simp [readOption, hresolved, hstyle, hp, hnull hp, hread, Except.map, eq_comm]
      | some tag =>
        rw [hp] at htag
        simp [readOption, hresolved, hstyle, hp, htag, hread, Except.map, eq_comm]
    · simp [readOption, hresolved, hstyle, hread, Except.map, eq_comm]

/-! ### Records -/

theorem lawful_pair {α : Type} {name first second : String} {make : Float → Float → α} :
    (pairType name first second make).Lawful :=
  .two rfl (fun _ _ => rfl) (fun _ _ => rfl) (fun _ _ => rfl) (fun _ _ => rfl) (fun _ _ _ => rfl)
    (fun _ _ => rfl) (fun _ _ => rfl)

theorem fieldNamed?_first {α : Type} (name first second : String) (make : Float → Float → α) :
    (pairType name first second make).fieldNamed? first =
      (pairType name first second make).fields[0]? := by
  simp [RecordType.fieldNamed?, pairType, Field.answersTo]

theorem fieldNamed?_second {α : Type} {first second : String} (hne : first ≠ second) (name : String)
    (make : Float → Float → α) : (pairType name first second make).fieldNamed? second =
      (pairType name first second make).fields[1]? := by
  simp [RecordType.fieldNamed?, pairType, Field.answersTo, hne]

/-- A node size or a spacing is read if both of its numbers are written. -/
theorem readAs_pair {α : Type} {name first second : String} {make : Float → Float → α}
    (hne : first ≠ second) (w : WrittenPair) (x y : Float) :
    ReadAs d (readRecord (pairType name first second make)) (WritesPair d first second w) w.Complete
      (make (w.first.getD x) (w.second.getD y)) := by
  refine .record lawful_pair True ⟨w.first, w.second⟩ ?_ ?_
  · intro v entries hd hentries u
    obtain ⟨rest, hrest, hfirst⟩ := hentries.filled_iff
      ((fieldNamed?_first name first second make).trans rfl) (fun _ _ => rfl) readAs_double hd
    obtain ⟨rest', hnil, hsecond⟩ := hrest.filled_iff
      ((fieldNamed?_second hne name make).trans rfl) (fun _ _ => rfl) readAs_double hd
    cases hnil
    rw [hfirst, hsecond, List.flatMap_nil, RecordType.filled_nil_iff]
    cases w.first <;> cases w.second <;> simp [pairType]
  · intro a
    obtain ⟨first, second⟩ := w
    cases first <;> cases second <;> simp [pairType, WrittenPair.Complete, eq_comm]

theorem lawful_build : buildType.Lawful :=
  .two rfl (fun _ _ => rfl) (fun _ _ => rfl) (fun _ _ => rfl) (fun _ _ => rfl) (fun _ _ _ => rfl)
    (fun _ _ => rfl) (fun _ _ => rfl)

theorem readAs_build (w : WrittenBuild) :
    ReadAs d (readRecord buildType) (WritesBuild d w) True w.options := by
  refine .record lawful_build True ⟨w.idScheme, w.defaultSource⟩ ?_ ?_
  · intro v entries hd hentries u
    obtain ⟨rest, hrest, hscheme⟩ := hentries.filled_iff (r := buildType) rfl (fun _ _ => rfl)
      readAs_scheme hd
    obtain ⟨rest', hnil, hsource⟩ := hrest.filled_iff (r := buildType) rfl (fun _ _ => rfl)
      readAs_source hd
    cases hnil
    rw [hscheme, hsource, List.flatMap_nil, RecordType.filled_nil_iff]
    cases w.idScheme <;> cases w.defaultSource <;> simp [buildType]
  · simp [buildType, BuildFields.options, WrittenBuild.options, eq_comm]

theorem lawful_layout : layoutType.Lawful where
  isRead := by
    refine List.forall_mem_cons.2 ⟨?_, List.forall_mem_cons.2 ⟨?_, List.forall_mem_singleton.2 ?_⟩⟩
    all_goals exact Field.Puts.isRead (fun _ _ => rfl) (fun _ _ => rfl)
  apart := by
    refine .cons (List.forall_mem_cons.2 ⟨?_, List.forall_mem_singleton.2 ?_⟩)
      (List.pairwise_pair.2 ?_)
    all_goals
      exact Field.Puts.apart_symm (fun _ _ => rfl) (fun _ _ => rfl) (fun _ _ _ => rfl)
        (fun _ _ => rfl) (fun _ _ => rfl)

theorem readAs_nodeSize (w : WrittenPair) : ReadAs d (readRecord nodeSizeType)
    (WritesPair d "width" "height" w) w.Complete ⟨w.first.getD 200, w.second.getD 60⟩ :=
  readAs_pair (by decide) w 200 60

theorem readAs_spacing (w : WrittenPair) : ReadAs d (readRecord spacingType)
    (WritesPair d "rank_gap" "order_gap" w) w.Complete ⟨w.first.getD 80, w.second.getD 30⟩ :=
  readAs_pair (by decide) w 80 30

theorem readAs_layout (w : WrittenLayout) :
    ReadAs d (readRecord layoutType) (WritesLayout d w) w.Complete w.settings := by
  refine .record lawful_layout _ ⟨w.nodeSize.map fun p => ⟨p.first.getD 200, p.second.getD 60⟩,
    w.spacing.map fun p => ⟨p.first.getD 80, p.second.getD 30⟩, w.maxSweeps⟩ ?_
    fun a => and_congr_right fun _ => ?_
  · intro v entries hd hentries u
    obtain ⟨rest, hrest, hsize⟩ := hentries.filled_iff (r := layoutType) rfl (fun _ _ => rfl)
      readAs_nodeSize hd
    obtain ⟨rest', hrest', hspacing⟩ := hrest.filled_iff (r := layoutType) rfl (fun _ _ => rfl)
      readAs_spacing hd
    obtain ⟨rest'', hnil, hsweeps⟩ := hrest'.filled_iff (r := layoutType) rfl (fun _ _ => rfl)
      readAs_size hd
    cases hnil
    rw [hsize, hspacing, hsweeps, List.flatMap_nil, RecordType.filled_nil_iff,
      WrittenLayout.Complete]
    cases w.nodeSize <;> cases w.spacing <;> cases w.maxSweeps <;> simp [layoutType, and_assoc]
  · rw [WrittenLayout.settings]
    cases w.nodeSize <;> cases w.spacing <;>
      simp [layoutType, LayoutFields.settings, DataLineage.maxSweeps, eq_comm]

theorem lawful_settings : settingsType.Lawful :=
  .two rfl (fun _ _ => rfl) (fun _ _ => rfl) (fun _ _ => rfl) (fun _ _ => rfl) (fun _ _ _ => rfl)
    (fun _ _ => rfl) (fun _ _ => rfl)

theorem readAs_settings (w : Written) :
    ReadAs d (readRecord settingsType) (WritesSettings d w) w.Complete w.settings := by
  refine .record lawful_settings _ ⟨w.build.map (·.options), w.layout.map (·.settings)⟩ ?_
    fun a => and_congr_right fun _ => ?_
  · intro v entries hd hentries u
    obtain ⟨rest, hrest, hbuild⟩ := hentries.filled_iff (r := settingsType) rfl (fun _ _ => rfl)
      readAs_build hd
    obtain ⟨rest', hnil, hlayout⟩ := hrest.filled_iff (r := settingsType) rfl (fun _ _ => rfl)
      readAs_layout hd
    cases hnil
    rw [hbuild, hlayout, List.flatMap_nil, RecordType.filled_nil_iff, w.complete_iff]
    cases w.build <;> cases w.layout <;> simp [settingsType]
  · rw [w.settings_eq]
    simp [settingsType, SettingsFields.settings, eq_comm]

end Yaml

namespace Settings

open Written

variable {w : Written} {text : String}

theorem isMeasure_getD {x? : Option Float} {x : Float} (h : ∀ y, x? = some y → isMeasure y)
    (hx : isMeasure x) : isMeasure (x?.getD x) := by
  cases x? with
  | none => exact hx
  | some y => exact h y rfl

/-- The defaults are valid, so settings are if what is written is. -/
theorem checked_settings (h : w.InRange) : w.settings.checked = .ok w.settings := by
  have hfault : w.settings.layout.fault? = none := by
    rw [LayoutSettings.fault?_eq_none_iff]
    intro m hm
    simp only [LayoutSettings.measures, List.mem_cons, List.not_mem_nil, or_false] at hm
    rcases hm with rfl | rfl | rfl | rfl
    · exact isMeasure_getD (fun y hy => h y (by simp [hy])) (by decide +kernel)
    · exact isMeasure_getD (fun y hy => h y (by simp [hy])) (by decide +kernel)
    · exact isMeasure_getD (fun y hy => h y (by simp [hy])) (by decide +kernel)
    · exact isMeasure_getD (fun y hy => h y (by simp [hy])) (by decide +kernel)
  rw [checked, hfault]

/-- Where nothing is written, all settings keep their defaults. -/
theorem settings_nothing : ({} : Written).Complete ∧ ({} : Written).settings = {} :=
  ⟨⟨nofun, nofun⟩, rfl⟩

/-- **What a settings document is read as.** A text that writes some settings, with measures in range,
is read if and only if each node size and each spacing in it has both of its numbers; it then gives
the written settings and the default of each other setting. -/
theorem ofYaml_eq_ok_iff_complete (hwritten : w.IsWrittenIn text) (hrange : w.InRange)
    (s : Settings) : ofYaml text = .ok s ↔ w.Complete ∧ s = w.settings := by
  obtain ⟨hcomplete, hdefaults⟩ := settings_nothing
  unfold IsWrittenIn at hwritten
  split at hwritten
  next hblank =>
    rw [hwritten, ofYaml_blank hblank, hdefaults]
    simp [hcomplete, eq_comm]
  next hblank =>
    obtain ⟨d, hd, hroot⟩ := hwritten
    have hread : ofYaml text = ofDocument d := by
      rw [ofYaml, if_neg hblank, hd]
    rw [hread, ofDocument]
    cases hnode : d.root with
    | none =>
      rw [hnode] at hroot
      have hnothing : Yaml.readRecord Yaml.settingsType ⟨d, [], [], none⟩ = .ok {} := rfl
      have hchecked : checked {} = .ok {} := hdefaults ▸ checked_settings (hroot ▸ hrange)
      rw [hnothing, hroot, hdefaults]
      simp [hchecked, hcomplete, eq_comm]
    | some node =>
      rw [hnode] at hroot
      have hsettings : ∀ a, Yaml.readRecord Yaml.settingsType ⟨d, [], [], some node⟩ = .ok a ↔
          w.Complete ∧ a = w.settings := fun a => Yaml.readAs_settings w rfl rfl hroot
      -- what is read is in range, so the check after reading passes
      cases hrecord : Yaml.readRecord Yaml.settingsType ⟨d, [], [], some node⟩ with
      | error e =>
        have hincomplete : ¬ w.Complete := by
          intro hcomplete
          have hok := (hsettings w.settings).2 ⟨hcomplete, rfl⟩
          rw [hrecord] at hok
          cases hok
        simp [hincomplete]
      | ok a =>
        obtain ⟨hcomplete, rfl⟩ := (hsettings a).1 hrecord
        simp [checked_settings hrange, hcomplete, eq_comm]

/-- The sections and their settings in another order, and other settings left out. -/
theorem ofYaml_some_settings :
    ofYaml ("layout: \x7bmax_sweeps: 2, spacing: \x7border_gap: 5, rank_gap: 10\x7d\x7d\n" ++
      "build: \x7bid_scheme: typed\x7d") = .ok ⟨⟨.typed, none⟩, ⟨⟨200, 60⟩, ⟨10, 5⟩, 2⟩⟩ := by
  have htokens : Yaml.tokens? ("layout: \x7bmax_sweeps: 2, spacing: \x7border_gap: 5, " ++
      "rank_gap: 10\x7d\x7d\nbuild: \x7bid_scheme: typed\x7d").toList = some [
        .blockMappingStart, .key, .scalar .plain "layout", .value, .flowMappingStart,
        .key, .scalar .plain "max_sweeps", .value, .scalar .plain "2", .flowEntry,
        .key, .scalar .plain "spacing", .value, .flowMappingStart,
        .key, .scalar .plain "order_gap", .value, .scalar .plain "5", .flowEntry,
        .key, .scalar .plain "rank_gap", .value, .scalar .plain "10",
        .flowMappingEnd, .flowMappingEnd, .key, .scalar .plain "build", .value, .flowMappingStart,
        .key, .scalar .plain "id_scheme", .value, .scalar .plain "typed",
        .flowMappingEnd, .blockEnd] := by decide +kernel
  have hdocument : Yaml.Document.ofText? ("layout: \x7bmax_sweeps: 2, spacing: \x7border_gap: 5, " ++
      "rank_gap: 10\x7d\x7d\nbuild: \x7bid_scheme: typed\x7d") =
      some ⟨some (.mapping {} [
        (.scalar {} .plain "layout", .mapping {} [
          (.scalar {} .plain "max_sweeps", .scalar {} .plain "2"),
          (.scalar {} .plain "spacing", .mapping {} [
            (.scalar {} .plain "order_gap", .scalar {} .plain "5"),
            (.scalar {} .plain "rank_gap", .scalar {} .plain "10")])]),
        (.scalar {} .plain "build", .mapping {} [
          (.scalar {} .plain "id_scheme", .scalar {} .plain "typed")])])⟩ := by
    rw [Yaml.Document.ofText?, htokens]
    rfl
  have hrankGap : Yaml.double? "10" = some 10 := by decide +kernel
  have horderGap : Yaml.double? "5" = some 5 := by decide +kernel
  refine (ofYaml_eq_ok_iff_complete (w := ⟨some ⟨some .typed, none⟩,
    some ⟨none, some ⟨some 10, some 5⟩, some 2⟩⟩) ?_ ?_ _).2 ⟨?_, rfl⟩
  · rw [IsWrittenIn, if_neg (by decide)]
    refine ⟨_, hdocument, ⟨_, _, .inl ⟨_, rfl⟩, .swap _ _ _, .there ⟨_, _, rfl⟩ ?_
      (.there ⟨_, _, rfl⟩ ?_ .nil)⟩⟩
    · exact ⟨_, _, .inl ⟨_, rfl⟩, .refl _, .there ⟨_, _, rfl⟩ ⟨_, _, rfl, rfl⟩ (.absent .nil)⟩
    · refine ⟨_, _, .inl ⟨_, rfl⟩, .swap _ _ _, .absent (.there ⟨_, _, rfl⟩ ?_
        (.there ⟨_, _, rfl⟩ ⟨_, _, rfl, by decide⟩ .nil))⟩
      exact ⟨_, _, .inl ⟨_, rfl⟩, .swap _ _ _, .there ⟨_, _, rfl⟩ ⟨_, _, rfl, hrankGap⟩
        (.there ⟨_, _, rfl⟩ ⟨_, _, rfl, horderGap⟩ .nil)⟩
  · intro x hx
    have hx : x = 10 ∨ x = 5 := by
      simpa [Written.width, height, rankGap, orderGap, nodeSize, spacing] using hx
    rcases hx with rfl | rfl <;> decide +kernel
  · constructor
    · exact nofun
    · rintro p ⟨⟩
      exact ⟨rfl, rfl⟩

/-- **A width alone makes a document unreadable**, though the height has a default. -/
theorem ofYaml_width_alone : ∃ w : Written,
    w.IsWrittenIn "layout: \x7bnode_size: \x7bwidth: 100\x7d\x7d" ∧ w.InRange ∧
      ofYaml "layout: \x7bnode_size: \x7bwidth: 100\x7d\x7d" =
        .error (.yaml (.shape [.field "layout", .field "node_size"] (.missingField "height"))) := by
  have htokens : Yaml.tokens? "layout: \x7bnode_size: \x7bwidth: 100\x7d\x7d".toList = some [
      .blockMappingStart, .key, .scalar .plain "layout", .value, .flowMappingStart,
      .key, .scalar .plain "node_size", .value, .flowMappingStart,
      .key, .scalar .plain "width", .value, .scalar .plain "100",
      .flowMappingEnd, .flowMappingEnd, .blockEnd] := by decide +kernel
  have hdocument : Yaml.Document.ofText? "layout: \x7bnode_size: \x7bwidth: 100\x7d\x7d" =
      some ⟨some (.mapping {} [(.scalar {} .plain "layout", .mapping {}
        [(.scalar {} .plain "node_size", .mapping {}
          [(.scalar {} .plain "width", .scalar {} .plain "100")])])])⟩ := by
    rw [Yaml.Document.ofText?, htokens]
    rfl
  have hblank : isBlankText "layout: \x7bnode_size: \x7bwidth: 100\x7d\x7d" = false := by decide
  have hwidth : Yaml.double? "100" = some 100 := by decide +kernel
  refine ⟨⟨none, some ⟨some ⟨some 100, none⟩, none, none⟩⟩, ?_, ?_, ?_⟩
  · rw [IsWrittenIn, if_neg (by simp [hblank])]
    refine ⟨_, hdocument, ⟨_, _, .inl ⟨_, rfl⟩, .refl _, .absent (.there ⟨_, _, rfl⟩ ?_ .nil)⟩⟩
    refine ⟨_, _, .inl ⟨_, rfl⟩, .refl _, .there ⟨_, _, rfl⟩ ?_ (.absent (.absent .nil))⟩
    exact ⟨_, _, .inl ⟨_, rfl⟩, .refl _, .there ⟨_, _, rfl⟩ ⟨_, _, rfl, hwidth⟩ (.absent .nil)⟩
  · intro x hx
    obtain rfl : x = 100 := by
      simpa [Written.width, height, rankGap, orderGap, nodeSize, spacing] using hx
    decide +kernel
  · rw [ofYaml, hblank, if_neg Bool.false_ne_true, hdocument]
    simp [ofDocument, Yaml.readRecord, Yaml.Placed.resolved, Yaml.Placed.inner, Yaml.settingsType,
      Yaml.layoutType, Yaml.nodeSizeType, Yaml.pairType, Yaml.readEntry, Yaml.readKey,
      RecordType.fieldNamed?, Field.answersTo, bind, Except.bind, Yaml.readDouble, hwidth, Except.map,
      pure, Except.pure, Yaml.Placed.fail]

end Settings

end DataLineage
