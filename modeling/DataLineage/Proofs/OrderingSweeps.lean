import DataLineage.Placement.Layout
import DataLineage.Proofs.RankColumns
import Mathlib.Logic.Function.Iterate

/-!
# Stopping early

The ordering stops after a sweep that moved nothing, though sweeps may be left. Nothing is lost by
that: columns and places stay in step, so a column that was sorted and did not change has its places
unchanged as well, and a sweep that moved nothing left the whole arrangement as it was. All sweeps
after it would do the same again.

* `Arrangement.InStep.reorder_eq_self`: sorting that moves nothing changes nothing.
* `Arrangement.InStep.sweep_eq_self`: nor does a sweep that moves nothing.
* `Arranged.arrangement_improve`: the result is that of all sweeps allowed.
* `Arranged.improve_of_sweeps_lt`: once the ordering stops by itself, further sweeps allowed change
  nothing.
* `Arranged.stopping_early_is_exact`: the statement.
-/

namespace DataLineage

namespace Arrangement

variable {input : OrderInput} {a : Arrangement} {neighbours : ℕ → List ℕ} {r beside : ℕ}

/-! ## Sorting that moves nothing -/

/-- Places that are there already are written in vain. -/
theorem writePlaces_eq_self {places : Array ℕ} {column : List ℕ}
    (h : ∀ i v, column[i]? = some v → v < places.size → places[v]? = some i) :
    writePlaces places column = places := by
  induction column using List.reverseRecOn with
  | nil => rfl
  | append_singleton column u ih =>
    have hfront : ∀ i v, column[i]? = some v → v < places.size → places[v]? = some i := by
      intro i v hi
      refine h i v ?_
      rw [List.getElem?_append_left (List.getElem?_eq_some_iff.1 hi).1, hi]
    rw [writePlaces_append, ih hfront]
    refine Array.ext_getElem? fun v => ?_
    rw [Array.getElem?_setIfInBounds]
    split_ifs with huv hu
    · exact (huv ▸ h column.length u (by simp) hu).symm
    · rw [← huv, Array.getElem?_eq_none (Nat.le_of_not_lt hu)]
    · rfl

theorem setIfInBounds_column (a : Arrangement) (r : ℕ) :
    a.columns.setIfInBounds r (a.column r) = a.columns := by
  refine Array.ext_getElem? fun r' => ?_
  rw [Array.getElem?_setIfInBounds]
  split_ifs with hr hlt
  · rw [← hr, column, Array.getElem?_eq_getElem hlt, Option.getD_some]
  · rw [← hr, Array.getElem?_eq_none (Nat.le_of_not_lt hlt)]
  · rfl

/-- **Sorting that moves nothing changes nothing.** -/
theorem InStep.reorder_eq_self (h : InStep input a)
    (hmoved : (Arrangement.reorder input neighbours r beside a).2 = false) :
    (Arrangement.reorder input neighbours r beside a).1 = a := by
  have hsorted : sortedColumn input a neighbours r beside = a.column r := by
    simpa [Arrangement.reorder, sortedColumn] using hmoved
  have hplaces : writePlaces a.places (a.column r) = a.places := by
    refine writePlaces_eq_self fun i v hi hv => ?_
    have hplace := h.place r i v hi
    rw [placeOf, Array.getElem?_eq_getElem hv, Option.getD_some] at hplace
    rw [Array.getElem?_eq_getElem hv, hplace]
  rw [reorder_eq, hsorted, setIfInBounds_column, hplaces]

/-! ## Sweeps that move nothing -/

section

variable {f : ℕ → Arrangement → Arrangement × Bool}

/-- One reordering, in a run that tells whether anything moved so far. -/
def reorderNext (f : ℕ → Arrangement → Arrangement × Bool) (s : Arrangement × Bool) (r : ℕ) :
    Arrangement × Bool :=
  ((f r s.1).1, s.2 || (f r s.1).2)

/-- What moved is not forgotten. -/
theorem moved_foldl {s : Arrangement × Bool} (ranks : List ℕ) (hs : s.2 = true) :
    (ranks.foldl (reorderNext f) s).2 = true := by
  induction ranks generalizing s with
  | nil => exact hs
  | cons r ranks ih =>
    refine ih ?_
    rw [reorderNext, hs, Bool.true_or]

/-- A run over some ranks that moves nothing changes nothing, if this is so for each of them. -/
theorem reorderAll_eq_self (hf : ∀ r, (f r a).2 = false → (f r a).1 = a) (ranks : List ℕ)
    (hmoved : (a.reorderAll f ranks).2 = false) : (a.reorderAll f ranks).1 = a := by
  have hfold : ∀ ranks, a.reorderAll f ranks = ranks.foldl (reorderNext f) (a, false) :=
    fun _ => rfl
  induction ranks with
  | nil => rfl
  | cons r ranks ih =>
    rw [hfold, List.foldl_cons] at hmoved ⊢
    cases hr : (f r a).2 with
    | true =>
      rw [moved_foldl ranks (by rw [reorderNext, hr, Bool.or_true])] at hmoved
      cases hmoved
    | false =>
      have hstay : reorderNext f (a, false) r = (a, false) := by
        rw [reorderNext, hr, hf r hr, Bool.or_false]
      rw [hstay] at hmoved ⊢
      exact ih hmoved

end

/-- The first half of a sweep: each rank by the predecessors in the rank before. -/
def forth (input : OrderInput) (a : Arrangement) : Arrangement × Bool :=
  a.reorderAll (fun r => Arrangement.reorder input input.adjacency.before r (r - 1))
    (List.range' 1 (input.rankCount - 1))

/-- The second half of a sweep: each rank by the successors in the rank after. -/
def back (input : OrderInput) (a : Arrangement) : Arrangement × Bool :=
  a.reorderAll (fun r => Arrangement.reorder input input.adjacency.after r (r + 1))
    (List.range (input.rankCount - 1)).reverse

theorem sweep_eq (input : OrderInput) (a : Arrangement) :
    a.sweep input = ((back input (forth input a).1).1,
      (forth input a).2 || (back input (forth input a).1).2) := rfl

/-- The arrangement after one full sweep. -/
def swept (input : OrderInput) (a : Arrangement) : Arrangement := (a.sweep input).1

/-- **A sweep that moves nothing changes nothing.** -/
theorem InStep.sweep_eq_self (h : InStep input a) (hmoved : (a.sweep input).2 = false) :
    swept input a = a := by
  rw [sweep_eq, Bool.or_eq_false_iff] at hmoved
  obtain ⟨hforth, hback⟩ := hmoved
  have hstay : (forth input a).1 = a := reorderAll_eq_self (fun _ => h.reorder_eq_self) _ hforth
  rw [hstay] at hback
  rw [swept, sweep_eq, hstay]
  exact reorderAll_eq_self (fun _ => h.reorder_eq_self) _ hback

end Arrangement

namespace Arranged

open Arrangement

variable {input : OrderInput} {a : Arrangement}

/-! ## Runs -/

/-- **Stopping early gives what all sweeps give.** -/
theorem arrangement_improve (h : InStep input a) (budget : ℕ) :
    (improve input budget a).arrangement = (swept input)^[budget] a := by
  induction budget generalizing a with
  | zero => rfl
  | succ budget ih =>
    unfold improve
    split
    next a' ha' =>
      -- nothing moved, so no sweep after this one changes anything
      have hstay : swept input a = a := h.sweep_eq_self (by rw [ha'])
      rw [Function.iterate_fixed hstay]
      rw [swept, ha'] at hstay
      exact hstay
    next a' ha' =>
      have hnext : swept input a = a' := by rw [swept, ha']
      have hstep : InStep input a' := hnext ▸ h.sweep
      rw [Function.iterate_succ_apply, hnext]
      exact ih hstep

/-- **Once the ordering stops by itself**, it does so whatever number of sweeps is allowed, as long
as it is allowed those it made. -/
theorem improve_of_sweeps_lt {budget budget' : ℕ} (hlt : (improve input budget a).sweeps < budget)
    (hle : (improve input budget a).sweeps ≤ budget') :
    improve input budget' a = improve input budget a := by
  induction budget generalizing a budget' with
  | zero => exact absurd hlt (Nat.not_lt_zero _)
  | succ budget ih =>
    rw [improve] at hlt hle ⊢
    split at hlt
    next a' ha' =>
      simp only [ha'] at hle ⊢
      obtain ⟨k, rfl⟩ := Nat.exists_eq_add_of_le' hle
      simp only [improve, ha']
    next a' ha' =>
      simp only [ha'] at hle ⊢
      obtain ⟨k, rfl⟩ := Nat.exists_eq_add_of_le' (Nat.le_of_add_left_le hle)
      have hrest := ih (Nat.lt_of_succ_lt_succ hlt) (Nat.le_of_succ_le_succ hle)
      simp only [improve, ha', hrest]

/-- A graph without nodes has nothing to sweep. -/
theorem initial_of_isEmpty (hempty : input.ranks.isEmpty) :
    initial input = ⟨#[], #[]⟩ ∧ swept input ⟨#[], #[]⟩ = ⟨#[], #[]⟩ := by
  have hranks : input.ranks = #[] := Array.isEmpty_iff.1 hempty
  have hcount : input.rankCount = 0 := by rw [OrderInput.rankCount, if_pos hempty]
  constructor
  · rw [initial, hranks, hcount]
    rfl
  · rw [swept, Arrangement.sweep, hcount]
    rfl

theorem sweeps_ofInput_le (input : OrderInput) (budget : ℕ) :
    (ofInput input budget).sweeps ≤ budget := by
  unfold ofInput
  split
  · exact Nat.zero_le budget
  · exact sweeps_le input budget _

/-- **Stopping early is exact.** Whatever the input and the number of sweeps allowed, the ordering
gives the arrangement that all sweeps allowed give from the initial one, and makes no more sweeps
than allowed. If it makes fewer, it gives the same arrangement after the same number of sweeps
wherever as many are allowed. A layout makes no more sweeps than its settings say, and no more than
four. -/
theorem stopping_early_is_exact (input : OrderInput) (budget : ℕ) :
    let run := ofInput input budget
    run.arrangement = (swept input)^[budget] (initial input) ∧
    run.sweeps ≤ budget ∧
    (run.sweeps < budget → ∀ budget', run.sweeps ≤ budget' → ofInput input budget' = run) ∧
    ∀ settings g, (Layout.ofGraph settings g).sweeps ≤ min settings.maxSweeps 4 := by
  intro run
  have hlayout : ∀ settings g, (Layout.ofGraph settings g).sweeps ≤ min settings.maxSweeps 4 := by
    intro settings g
    exact sweeps_ofInput_le _ settings.sweepBudget
  refine ⟨?_, sweeps_ofInput_le input budget, ?_, hlayout⟩
  · by_cases hempty : input.ranks.isEmpty
    · obtain ⟨hinitial, hstay⟩ := initial_of_isEmpty hempty
      rw [hinitial, Function.iterate_fixed hstay]
      simp only [run, ofInput, if_pos hempty]
    · simp only [run, ofInput, if_neg hempty]
      exact arrangement_improve (inStep_initial input) budget
  · intro hlt budget' hle
    by_cases hempty : input.ranks.isEmpty
    · simp only [run, ofInput, if_pos hempty]
    · simp only [run, ofInput, if_neg hempty] at hlt hle ⊢
      exact improve_of_sweeps_lt hlt hle

end Arranged

end DataLineage
