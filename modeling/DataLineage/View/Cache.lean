import DataLineage.Graph.OfRegistry
import DataLineage.Project.Fingerprint
import DataLineage.Selection.Selector
import DataLineage.View.Render

/-!
# Remembered lineage

A registry's graph and layout are kept under the registry's fingerprint, and the last drawing under
its selector and fingerprint. So a new selector costs a search and a filter, and an edit of the
registry renews both.

* `Cache.lookUpLineage_cases`, `Cache.lookUpView_cases`: what a look-up answers, and when.
-/

namespace DataLineage

/-- A registry's graph with its layout. -/
structure Lineage where
  fingerprint : Fingerprint
  graph : Graph
  layout : Layout
  deriving Inhabited

namespace Lineage

def ofRegistry (settings : Settings) (registry : Registry) : Lineage :=
  let graph := Graph.ofRegistry settings.build registry
  ⟨registry.fingerprint, graph, .ofGraph settings.layout graph⟩

/-- The drawing of what a selector selects, with the places of the whole graph. -/
def view (l : Lineage) (selector : String) : Drawing := .ofGraph (l.graph.selected selector) l.layout

end Lineage

/-- Whether an answer was at hand. -/
inductive Lookup where
  | hit
  | miss
  deriving DecidableEq, Repr, Inhabited

/-- A drawing with what it was made for. -/
structure StoredView where
  selector : String
  fingerprint : Fingerprint
  drawing : Drawing
  deriving Inhabited

/-- What a drawing was stored for. -/
def StoredView.key (v : StoredView) : String × Fingerprint := (v.selector, v.fingerprint)

/-- The settings and what was computed last under them. -/
structure Cache where
  settings : Settings
  lineage? : Option Lineage := none
  view? : Option StoredView := none
  deriving Inhabited

namespace Cache

def empty (settings : Settings) : Cache := { settings }

/-- The lineage of a registry: the stored one when its fingerprint is the registry's. -/
def lookUpLineage (c : Cache) (registry : Registry) : Lineage × Lookup :=
  match c.lineage? with
  | some l =>
    if l.fingerprint = registry.fingerprint then (l, .hit)
    else (.ofRegistry c.settings registry, .miss)
  | none => (.ofRegistry c.settings registry, .miss)

/-- The stored view, when it is of this selector and fingerprint and the lineage is not new. -/
def lookUpView (c : Cache) (lineage : Lineage × Lookup) (fingerprint : Fingerprint)
    (selector : String) : StoredView × Lookup :=
  let fresh : StoredView := ⟨selector, fingerprint, lineage.1.view selector⟩
  match c.view? with
  | some v =>
    if lineage.2 = .hit ∧ v.selector = selector ∧ v.fingerprint = fingerprint then (v, .hit)
    else (fresh, .miss)
  | none => (fresh, .miss)

/-- **A look-up for a lineage** takes the stored one if that is of the registry's fingerprint, and
else goes the whole way from the registry. -/
theorem lookUpLineage_cases (c : Cache) (r : Registry) :
    (∃ l, c.lineage? = some l ∧ l.fingerprint = r.fingerprint ∧
      c.lookUpLineage r = (l, .hit)) ∨
    (c.lineage?.map Lineage.fingerprint ≠ some r.fingerprint ∧
      c.lookUpLineage r = (.ofRegistry c.settings r, .miss)) := by
  unfold lookUpLineage
  cases hslot : c.lineage? with
  | none => exact .inr ⟨by simp, rfl⟩
  | some l =>
    by_cases hfp : l.fingerprint = r.fingerprint
    · exact .inl ⟨l, rfl, hfp, if_pos hfp⟩
    · exact .inr ⟨by simpa using hfp, if_neg hfp⟩

/-- **A look-up for a view** takes the stored one if the lineage was at hand and the view is what is
asked for, and else draws it from the lineage. -/
theorem lookUpView_cases (c : Cache) (l : Lineage × Lookup) (fingerprint : Fingerprint)
    (selector : String) :
    (∃ v, c.view? = some v ∧ l.2 = .hit ∧ v.key = (selector, fingerprint) ∧
      c.lookUpView l fingerprint selector = (v, .hit)) ∨
    (¬ (l.2 = .hit ∧ c.view?.map StoredView.key = some (selector, fingerprint)) ∧
      c.lookUpView l fingerprint selector =
        (⟨selector, fingerprint, l.1.view selector⟩, .miss)) := by
  unfold lookUpView
  cases hslot : c.view? with
  | none => exact .inr ⟨by simp, rfl⟩
  | some v =>
    by_cases hkey : l.2 = .hit ∧ v.selector = selector ∧ v.fingerprint = fingerprint
    · exact .inl ⟨v, rfl, hkey.1, Prod.ext hkey.2.1 hkey.2.2, if_pos hkey⟩
    · refine .inr ⟨?_, if_neg hkey⟩
      rintro ⟨hhit, hsome⟩
      obtain ⟨hselector, hfp⟩ := Prod.mk.inj (Option.some.inj hsome)
      exact hkey ⟨hhit, hselector, hfp⟩

/-- A lineage answer, how it was found, and the cache after it. -/
structure LineageAnswer where
  lineage : Lineage
  lookup : Lookup
  cache : Cache

/-- A view answer, how both its parts were found, and the cache after it. -/
structure ViewAnswer where
  drawing : Drawing
  lineageLookup : Lookup
  viewLookup : Lookup
  cache : Cache

/-- The lineage of a registry; a stored view stays. -/
def lineage (c : Cache) (registry : Registry) : LineageAnswer :=
  let (l, lookup) := c.lookUpLineage registry
  ⟨l, lookup, { c with lineage? := some l }⟩

/-- The drawing of a registry's lineage under a selector. -/
def view (c : Cache) (registry : Registry) (selector : String) : ViewAnswer :=
  let l := c.lookUpLineage registry
  let v := c.lookUpView l registry.fingerprint selector
  ⟨v.1.drawing, l.2, v.2, { c with lineage? := some l.1, view? := some v.1 }⟩

/-- Forgets what was computed. -/
def clear (c : Cache) : Cache := empty c.settings

end Cache

end DataLineage
