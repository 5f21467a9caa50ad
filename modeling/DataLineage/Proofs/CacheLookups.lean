import DataLineage.Proofs.CacheTransparency
import Mathlib.Data.List.Induction

/-!
# When a cache computes anew

Whether a call finds its answer at hand depends on the calls before it, back to the last clear. The
graph and the layout are those of the last call, a lineage or a view. The drawing is that of the last
view, however many lineages were asked for since. The slots of a cache tell that much of its history
and no more.

* `Cache.lookUpLineage_hit_iff`, `Cache.lookUpView_hit_iff`: when a look-up takes what a slot holds.
* `Cache.Remembers.call`: what a call leaves in the slots.
* `Cache.remembers_after`: what the slots tell of a whole run.
* `Cache.lookups_follow_history`: the statement.
-/

namespace DataLineage

theorem Lookup.eq_miss_iff {l : Lookup} : l = .miss ↔ l ≠ .hit := by cases l <;> decide

namespace Cache

variable {settings : Settings} {c : Cache} {r : Registry} {fingerprint : Fingerprint}
  {selector : String} {l : Lineage × Lookup} {before : List Call}

/-! ## The history of a run -/

/-- The cache after some calls. -/
def after (c : Cache) (calls : List Call) : Cache := calls.foldl (fun c k => (c.call k).2) c

/-- The calls since the last clear, or all of them, the last one first. -/
def sinceClear (calls : List Call) : List Call :=
  calls.reverse.takeWhile fun k => k.registry?.isSome

/-- The registry that the last call was about, unless that was a clear. -/
def lastSubject? (calls : List Call) : Option Registry :=
  (sinceClear calls).head?.bind Call.registry?

/-- What a view is asked for. -/
def Call.view? : Call → Option (Registry × String)
  | lineage _ => none
  | view registry selector => some (registry, selector)
  | clear => none

/-- The registry and the selector of the last view since the last clear. -/
def lastView? (calls : List Call) : Option (Registry × String) :=
  (sinceClear calls).findSome? Call.view?

theorem sinceClear_concat (before : List Call) (k : Call) :
    sinceClear (before ++ [k]) = if k.registry?.isSome then k :: sinceClear before else [] := by
  rw [sinceClear, List.reverse_append, List.reverse_singleton, List.singleton_append,
    List.takeWhile_cons]
  rfl

theorem lastSubject?_concat (before : List Call) (k : Call) :
    lastSubject? (before ++ [k]) = k.registry? := by
  rw [lastSubject?, sinceClear_concat]
  cases k <;> rfl

theorem lastView?_concat (before : List Call) (k : Call) :
    lastView? (before ++ [k]) =
      if k.registry?.isSome then k.view?.or (lastView? before) else none := by
  rw [lastView?, sinceClear_concat]
  cases k <;> rfl

theorem after_concat (c : Cache) (before : List Call) (k : Call) :
    c.after (before ++ [k]) = ((c.after before).call k).2 := by
  rw [after, List.foldl_append]
  rfl

/-! ## What look-ups take from the slots -/

theorem lookUpLineage_hit_iff : (c.lookUpLineage r).2 = .hit ↔
    c.lineage?.map Lineage.fingerprint = some r.fingerprint := by
  rcases c.lookUpLineage_cases r with ⟨l, hslot, hfp, h⟩ | ⟨hslot, h⟩
  · simp [h, hslot, hfp]
  · simp [h, hslot]

theorem lookUpView_hit_iff : (c.lookUpView l fingerprint selector).2 = .hit ↔
    l.2 = .hit ∧ c.view?.map StoredView.key = some (selector, fingerprint) := by
  rcases c.lookUpView_cases l fingerprint selector with ⟨v, hslot, hhit, hkey, h⟩ | ⟨hslot, h⟩
  · simp [h, hslot, hhit, hkey]
  · exact iff_of_false (by simp [h]) hslot

/-- Found or new, a lineage is of the fingerprint asked for. -/
theorem fingerprint_lookUpLineage (c : Cache) (r : Registry) :
    (c.lookUpLineage r).1.fingerprint = r.fingerprint := by
  rcases c.lookUpLineage_cases r with ⟨l, -, hfp, h⟩ | ⟨-, h⟩
  · rw [h, hfp]
  · rw [h]
    rfl

/-- Found or new, a view is what is asked for. -/
theorem key_lookUpView (c : Cache) (l : Lineage × Lookup) (fingerprint : Fingerprint)
    (selector : String) :
    (c.lookUpView l fingerprint selector).1.key = (selector, fingerprint) := by
  rcases c.lookUpView_cases l fingerprint selector with ⟨v, -, -, hkey, h⟩ | ⟨-, h⟩
  · rw [h, hkey]
  · rw [h]
    rfl

/-- A lineage found is the one that was stored, any other comes from the registry. -/
theorem lookUpLineage_fst (c : Cache) (r : Registry) :
    ((c.lookUpLineage r).2 = .hit → c.lineage? = some (c.lookUpLineage r).1) ∧
    ((c.lookUpLineage r).2 = .miss → (c.lookUpLineage r).1 = .ofRegistry c.settings r) := by
  rcases c.lookUpLineage_cases r with ⟨l, hslot, -, h⟩ | ⟨-, h⟩
  · simp [h, hslot]
  · simp [h]

/-- A view found is the one that was stored, any other is drawn from the lineage. -/
theorem lookUpView_fst (c : Cache) (l : Lineage × Lookup) (fingerprint : Fingerprint)
    (selector : String) :
    ((c.lookUpView l fingerprint selector).2 = .hit →
      c.view? = some (c.lookUpView l fingerprint selector).1) ∧
    ((c.lookUpView l fingerprint selector).2 = .miss →
      (c.lookUpView l fingerprint selector).1.drawing = l.1.view selector) := by
  rcases c.lookUpView_cases l fingerprint selector with ⟨v, hslot, -, -, h⟩ | ⟨-, h⟩
  · simp [h, hslot]
  · simp [h]

/-! ## What the slots tell -/

/-- **The slots tell the history**: the lineage is of the last registry, the view is the last one. -/
structure Remembers (settings : Settings) (before : List Call) (c : Cache) : Prop where
  settings_eq : c.settings = settings
  lineage : c.lineage?.map Lineage.fingerprint = (lastSubject? before).map Registry.fingerprint
  view : c.view?.map StoredView.key = (lastView? before).map fun x => (x.2, x.1.fingerprint)

theorem remembers_empty (settings : Settings) : Remembers settings [] (empty settings) :=
  ⟨rfl, rfl, rfl⟩

/-- **A call leaves its mark**: a lineage in one slot, a view in both, and a clear in none. -/
theorem Remembers.call (h : Remembers settings before c) (k : Call) :
    Remembers settings (before ++ [k]) (c.call k).2 := by
  refine ⟨?settings, ?lineage, ?view⟩
  case settings =>
    cases k <;> exact h.settings_eq
  case lineage =>
    rw [lastSubject?_concat]
    cases k with
    | lineage r => exact congrArg some (c.fingerprint_lookUpLineage r)
    | view r selector => exact congrArg some (c.fingerprint_lookUpLineage r)
    | clear => rfl
  case view =>
    rw [lastView?_concat]
    cases k with
    | lineage r => exact h.view
    | view r selector =>
      exact congrArg some (c.key_lookUpView (c.lookUpLineage r) r.fingerprint selector)
    | clear => rfl

/-- **The slots tell the history of every run.** -/
theorem remembers_after (settings : Settings) (before : List Call) :
    Remembers settings before ((empty settings).after before) := by
  induction before using List.reverseRecOn with
  | nil => exact remembers_empty settings
  | append_singleton before k ih =>
    rw [after_concat]
    exact ih.call k

/-- The lineage is new when there was no call since the last clear or one for another registry. -/
theorem Remembers.lookUpLineage_miss_iff (h : Remembers settings before c) :
    (c.lookUpLineage r).2 = .miss ↔ lastSubject? before = none ∨
      ∃ s, lastSubject? before = some s ∧ s.fingerprint ≠ r.fingerprint := by
  rw [Lookup.eq_miss_iff, ne_eq, lookUpLineage_hit_iff, h.lineage]
  cases lastSubject? before <;> simp

/-- The view is at hand when the lineage is and the last view was of the same. -/
theorem Remembers.lookUpView_hit_iff (h : Remembers settings before c) :
    (c.lookUpView l r.fingerprint selector).2 = .hit ↔ l.2 = .hit ∧
      ∃ s, lastView? before = some (s, selector) ∧ s.fingerprint = r.fingerprint := by
  rw [Cache.lookUpView_hit_iff, h.view]
  cases lastView? before <;> simp [Prod.ext_iff]

/-- **What is computed anew is told by the history.** Whatever was asked for before, a call for a
lineage or a view builds graph and layout exactly when no such call came since the last clear, or
since the start, or the last one was for a registry of another fingerprint. A view finds its drawing
exactly when graph and layout are at hand and the last view since the last clear was for the same
selector and fingerprint. What is found is what the cache held, and what is not is computed from the
registry. -/
theorem lookups_follow_history (settings : Settings) (before : List Call) (r : Registry)
    (selector : String) :
    let c := (empty settings).after before
    let asked := c.lineage r
    let viewed := c.view r selector
    let renewed := lastSubject? before = none ∨
      ∃ s, lastSubject? before = some s ∧ s.fingerprint ≠ r.fingerprint
    (asked.lookup = .miss ↔ renewed) ∧ (viewed.lineageLookup = .miss ↔ renewed) ∧
    (viewed.viewLookup = .hit ↔ viewed.lineageLookup = .hit ∧
      ∃ s, lastView? before = some (s, selector) ∧ s.fingerprint = r.fingerprint) ∧
    (asked.lookup = .hit → c.lineage? = some asked.lineage) ∧
    (asked.lookup = .miss → asked.lineage = .ofRegistry settings r) ∧
    (viewed.viewLookup = .hit → c.view?.map StoredView.drawing = some viewed.drawing) ∧
    (viewed.viewLookup = .miss → viewed.drawing = asked.lineage.view selector) := by
  intro c asked viewed renewed
  have h : Remembers settings before c := remembers_after settings before
  have hlineage : (c.lookUpLineage r).2 = .miss ↔ renewed := h.lookUpLineage_miss_iff
  obtain ⟨hstored, hnew⟩ := c.lookUpLineage_fst r
  obtain ⟨hdrawn, hdraw⟩ := c.lookUpView_fst (c.lookUpLineage r) r.fingerprint selector
  rw [h.settings_eq] at hnew
  refine ⟨hlineage, hlineage, h.lookUpView_hit_iff, hstored, hnew, ?_, hdraw⟩
  intro hhit
  rw [hdrawn hhit, Option.map_some]
  rfl

/-- A lineage of another registry in between costs a view its drawing, unless the lineage of its own
registry is at hand again by then. -/
example :
    let a := Registry.ofList [⟨"a", .source, []⟩]
    let b := Registry.ofList [⟨"b", .source, []⟩]
    (((empty {}).after [.view a "a", .lineage b]).view a "a").viewLookup = .miss ∧
    (((empty {}).after [.view a "a", .lineage b, .lineage a]).view a "a").viewLookup = .hit := by
  decide +kernel

end Cache

end DataLineage
