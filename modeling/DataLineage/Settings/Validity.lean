import DataLineage.Settings.Basic
import DataLineage.Decimal.Notation

/-!
# Valid settings

The four measures of the layout must be finite and not negative. The first that is not is reported.

* `LayoutSettings.fault?_eq_none_iff`: settings are valid exactly when each measure is acceptable.
-/

namespace DataLineage

/-- A measure that cannot be used, under its name. -/
structure MeasureFault where
  field : String
  value : Float

def MeasureFault.message (f : MeasureFault) : String :=
  f.field ++ " must be a finite, non-negative number (got " ++ FloatFormat.plain.render f.value ++
    ")"

/-- Whether a number can be a measure. Negative zero can. -/
def isMeasure (x : Float) : Bool := x.isFinite && !(x < 0)

namespace LayoutSettings

/-- The first measure that cannot be used. -/
def fault? (s : LayoutSettings) : Option MeasureFault :=
  (s.measures.find? fun m => !isMeasure m.2).map fun (field, value) => ⟨field, value⟩

/-- Settings are valid exactly when each measure is acceptable. -/
theorem fault?_eq_none_iff (s : LayoutSettings) :
    s.fault? = none ↔ ∀ m ∈ s.measures, isMeasure m.2 := by
  simp [fault?]

end LayoutSettings

end DataLineage
