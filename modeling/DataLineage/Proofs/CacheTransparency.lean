import DataLineage.Proofs.RegistryTables
import DataLineage.View.Cache

/-!
# A cache answers as if it remembered nothing

A cache keeps a lineage and a drawing, each under a fingerprint of its own, and the calls of a run
replace them at different times. What is kept was always computed from a registry of the run, so as
long as fingerprints tell the registries of the run apart, no answer is stale.

* `Cache.Current.call`: one call answers afresh and keeps the cache current.
* `Cache.Current.answers`: so do all the calls of a run.
* `Cache.answers_eq_afresh`: the statement for a new cache.
-/

namespace DataLineage

theorem Lineage.ofRegistry_congr {r s : Registry} (settings : Settings) (hr : r.Built)
    (hs : s.Built) (h : r.toList = s.toList) : ofRegistry settings r = ofRegistry settings s := by
  rw [ofRegistry, ofRegistry, Graph.ofRegistry_congr settings.build hr hs h,
    Registry.fingerprint_congr h]

namespace Cache

/-- A call of a cache. -/
inductive Call where
  | lineage (registry : Registry)
  | view (registry : Registry) (selector : String)
  | clear

/-- What a call answers. -/
inductive Answer where
  | lineage (lineage : Lineage)
  | view (drawing : Drawing)
  | cleared

namespace Call

/-- The registry that a call is about. -/
def registry? : Call → Option Registry
  | lineage registry => some registry
  | view registry _ => some registry
  | clear => none

/-- The answer that goes the whole way from the registry: the graph is built and laid out, and for
a view the selector is read, searched for and the graph filtered and drawn. -/
def afresh (settings : Settings) : Call → Answer
  | lineage registry =>
    let g := Graph.ofRegistry settings.build registry
    .lineage ⟨registry.fingerprint, g, .ofGraph settings.layout g⟩
  | view registry selector =>
    let g := Graph.ofRegistry settings.build registry
    let ids := (Selector.parse selector).select g
    .view (.ofGraph (g.restrict ids.contains) (.ofGraph settings.layout g))
  | clear => .cleared

end Call

/-- The registries that a run is about. -/
def registries (calls : List Call) : List Registry := calls.filterMap Call.registry?

variable {settings : Settings} {R : Registry → Prop} {c : Cache} {r : Registry}

/-- The answer to a call, and the cache after it. -/
def call (c : Cache) : Call → Answer × Cache
  | .lineage registry => (.lineage (c.lineage registry).lineage, (c.lineage registry).cache)
  | .view registry selector =>
    (.view (c.view registry selector).drawing, (c.view registry selector).cache)
  | .clear => (.cleared, c.clear)

/-- The answers to the calls of a run, in order. -/
def answers (c : Cache) : List Call → List Answer
  | [] => []
  | call :: calls => (c.call call).1 :: (c.call call).2.answers calls

/-- Registries that edits built and that fingerprints tell apart. -/
structure Distinct (R : Registry → Prop) : Prop where
  built : ∀ r, R r → r.Built
  records : ∀ r s, R r → R s → r.fingerprint = s.fingerprint → r.toList = s.toList

/-- **All that a cache holds was computed from registries of the run.** The two slots may stem from
different registries. -/
structure Current (settings : Settings) (R : Registry → Prop) (c : Cache) : Prop where
  settings_eq : c.settings = settings
  lineage : ∀ l, c.lineage? = some l → ∃ r, R r ∧ l = .ofRegistry settings r
  view : ∀ v, c.view? = some v → ∃ r, R r ∧
    v = ⟨v.selector, r.fingerprint, (Lineage.ofRegistry settings r).view v.selector⟩

theorem current_empty (settings : Settings) (R : Registry → Prop) :
    Current settings R (empty settings) := by
  refine ⟨rfl, ?_, ?_⟩
  · intro l hl
    cases hl
  · intro v hv
    cases hv

theorem Distinct.ofRegistry_congr (hR : Distinct R) {r s : Registry} (hr : R r) (hs : R s)
    (h : r.fingerprint = s.fingerprint) :
    Lineage.ofRegistry settings r = Lineage.ofRegistry settings s :=
  Lineage.ofRegistry_congr settings (hR.built r hr) (hR.built s hs) (hR.records r s hr hs h)

/-- **The lineage found is the registry's own.** -/
theorem Current.lookUpLineage (hc : Current settings R c) (hR : Distinct R) (hr : R r) :
    (c.lookUpLineage r).1 = .ofRegistry settings r := by
  rcases c.lookUpLineage_cases r with ⟨l, hl, hfp, h⟩ | ⟨-, h⟩
  · obtain ⟨s, hs, rfl⟩ := hc.lineage l hl
    rw [h]
    exact hR.ofRegistry_congr hs hr hfp
  · rw [h, hc.settings_eq]

/-- **The view found is the registry's own**, under its own selector. -/
theorem Current.lookUpView (hc : Current settings R c) (hR : Distinct R) (hr : R r)
    {l : Lineage × Lookup} (hl : l.1 = .ofRegistry settings r) (selector : String) :
    (c.lookUpView l r.fingerprint selector).1 =
      ⟨selector, r.fingerprint, (Lineage.ofRegistry settings r).view selector⟩ := by
  rcases c.lookUpView_cases l r.fingerprint selector with ⟨v, hv, -, hkey, h⟩ | ⟨-, h⟩
  · obtain ⟨s, hs, heq⟩ := hc.view v hv
    obtain ⟨hselector, hfp⟩ := Prod.mk.inj hkey
    -- the view may be older than the lineage, but it was made for the same fingerprint
    have hsr : s.fingerprint = r.fingerprint := by rw [← hfp, heq]
    rw [h, heq, hselector, hsr, hR.ofRegistry_congr hs hr hsr]
  · rw [h, hl]

/-- **One call answers afresh and keeps the cache current.** -/
theorem Current.call (hc : Current settings R c) (hR : Distinct R) (k : Call)
    (hk : ∀ r, k.registry? = some r → R r) :
    (c.call k).1 = k.afresh settings ∧ Current settings R (c.call k).2 := by
  cases k with
  | lineage r =>
    have hr : R r := hk r rfl
    have hl := hc.lookUpLineage hR hr
    refine ⟨congrArg Answer.lineage hl, hc.settings_eq, ?_, hc.view⟩
    intro l hsome
    exact ⟨r, hr, (Option.some.inj hsome).symm.trans hl⟩
  | view r selector =>
    have hr : R r := hk r rfl
    have hl := hc.lookUpLineage hR hr
    have hv := hc.lookUpView hR hr hl selector
    refine ⟨congrArg (fun v : StoredView => Answer.view v.drawing) hv, hc.settings_eq, ?_, ?_⟩
    · intro l hsome
      exact ⟨r, hr, (Option.some.inj hsome).symm.trans hl⟩
    · intro v hsome
      obtain rfl := (Option.some.inj hsome).symm.trans hv
      exact ⟨r, hr, rfl⟩
  | clear =>
    have hclear : (c.call .clear).2 = empty settings := congrArg empty hc.settings_eq
    rw [hclear]
    exact ⟨rfl, current_empty settings R⟩

/-- All the calls of a run answer afresh. -/
theorem Current.answers (hc : Current settings R c) (hR : Distinct R) (calls : List Call)
    (hcalls : ∀ r ∈ registries calls, R r) :
    c.answers calls = calls.map (Call.afresh settings) := by
  induction calls generalizing c with
  | nil => rfl
  | cons k calls ih =>
    have hk : ∀ r, k.registry? = some r → R r := fun r hr =>
      hcalls r (List.mem_filterMap.2 ⟨k, by simp, hr⟩)
    have hrest : ∀ r ∈ registries calls, R r := by
      intro r hr
      obtain ⟨k', hk', hr'⟩ := List.mem_filterMap.1 hr
      exact hcalls r (List.mem_filterMap.2 ⟨k', List.mem_cons_of_mem k hk', hr'⟩)
    obtain ⟨hanswer, hnext⟩ := hc.call hR k hk
    rw [Cache.answers, List.map_cons, hanswer, ih hnext hrest]

/-- **A cache is transparent.** Whatever the settings, and in whatever order lineages and views of
any registries are asked for and the cache is cleared, every answer is the one computed afresh from
the registry and the selector of its own call, provided that registries of the run with different
records have different fingerprints. -/
theorem answers_eq_afresh (settings : Settings) (calls : List Call)
    (hbuilt : ∀ r ∈ registries calls, r.Built)
    (hfp : ∀ r ∈ registries calls, ∀ s ∈ registries calls,
      r.toList ≠ s.toList → r.fingerprint ≠ s.fingerprint) :
    (empty settings).answers calls = calls.map (Call.afresh settings) := by
  have hR : Distinct (· ∈ registries calls) := by
    refine ⟨hbuilt, ?_⟩
    intro r s hr hs hrs
    by_contra hne
    exact hfp r hr s hs hne hrs
  exact (current_empty settings _).answers hR calls fun r hr => hr

/-- A registry, its edited copy and back, with a clear on the way. -/
theorem answers_eq_afresh_of_edited :
    let a := Registry.ofList [⟨"a", .source, []⟩]
    let b := Registry.ofList [⟨"a", .source, []⟩, ⟨"b", .model, ["a"]⟩]
    let calls := [.view a "a+", .lineage b, .view a "a+", .clear, .view b "+b"]
    (∀ r ∈ registries calls, r.Built) ∧
    (∀ r ∈ registries calls, ∀ s ∈ registries calls,
      r.toList ≠ s.toList → r.fingerprint ≠ s.fingerprint) ∧
    (empty {}).answers calls = calls.map (Call.afresh {}) := by
  intro a b calls
  have hmem : ∀ r ∈ registries calls, r = a ∨ r = b := by
    intro r hr
    simp only [registries, calls, List.filterMap_cons, List.filterMap_nil, Call.registry?,
      List.mem_cons, List.not_mem_nil, or_false] at hr
    tauto
  have hbuilt : ∀ r ∈ registries calls, r.Built := by
    intro r hr
    rcases hmem r hr with rfl | rfl
    · exact Registry.Built.ofList _
    · exact Registry.Built.ofList _
  have hab : a.fingerprint ≠ b.fingerprint := by decide +kernel
  have hfp : ∀ r ∈ registries calls, ∀ s ∈ registries calls,
      r.toList ≠ s.toList → r.fingerprint ≠ s.fingerprint := by
    intro r hr s hs hne
    rcases hmem r hr with rfl | rfl <;> rcases hmem s hs with rfl | rfl
    · exact absurd rfl hne
    · exact hab
    · exact hab.symm
    · exact absurd rfl hne
  exact ⟨hbuilt, hfp, answers_eq_afresh {} calls hbuilt hfp⟩

end Cache

end DataLineage
