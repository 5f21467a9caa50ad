import Std.Data.TreeMap
import Mathlib.Data.Nat.Notation
import Mathlib.Order.Basic
import Mathlib.Data.List.Nodup
import Mathlib.Data.List.Induction

/-!
# Tables of positions

A table that finds each key of a list at its place in the list, and nothing else. Registries, graphs
and layouts hold one each, beside the list of their names or ids. A layout also has tables of rows,
with one row for each position.

* `Indexes.push`, `Indexes.eraseIdx`: a table that is changed in step with its list.
* `Indexes.getElem?_congr`: what a table answers depends on its list alone.
* `getElem?_foldl_modify`: the rows of a table that is filled entry by entry.
-/

namespace DataLineage

/-- **The table finds each key of the list at its place**, and no other key. -/
def Indexes (table : Std.TreeMap String ℕ) (keys : List String) : Prop :=
  ∀ (key : String) (i : ℕ), table[key]? = some i ↔ keys[i]? = some key

namespace Indexes

variable {table table' : Std.TreeMap String ℕ} {keys : List String} {key : String} {i : ℕ}

theorem empty : Indexes ∅ [] := by intro key i; simp

/-- The keys of a table are pairwise distinct. -/
theorem nodup (h : Indexes table keys) : keys.Nodup := by
  rw [List.nodup_iff_getElem?_ne_getElem?]
  intro i j hij hj he
  have hkey := List.getElem?_eq_getElem hj
  have h₁ := (h _ i).2 (he.trans hkey)
  have h₂ := (h _ j).2 hkey
  rw [h₁] at h₂
  cases h₂
  exact absurd hij (Nat.lt_irrefl _)

theorem exists_iff_mem (h : Indexes table keys) : (∃ i, table[key]? = some i) ↔ key ∈ keys := by
  rw [List.mem_iff_getElem?]
  exact exists_congr fun i => h key i

theorem contains_iff_mem (h : Indexes table keys) : table.contains key ↔ key ∈ keys := by
  rw [← h.exists_iff_mem, Std.TreeMap.contains_eq_isSome_getElem?, Option.isSome_iff_exists]

theorem eq_none_iff (h : Indexes table keys) : table[key]? = none ↔ key ∉ keys := by
  rw [← h.exists_iff_mem, Option.eq_none_iff_forall_ne_some]
  push Not
  rfl

theorem lt_length (h : Indexes table keys) (hi : table[key]? = some i) : i < keys.length :=
  (List.getElem?_eq_some_iff.1 ((h key i).1 hi)).1

/-- A table answers as a search through the list would. -/
theorem getElem?_eq_findIdx? (h : Indexes table keys) (key : String) :
    table[key]? = keys.findIdx? (· == key) := by
  refine Option.ext fun i => ?_
  rw [h key i, List.findIdx?_eq_some_iff_getElem]
  simp only [beq_iff_eq]
  constructor
  · intro hi
    obtain ⟨hlt, hkey⟩ := List.getElem?_eq_some_iff.1 hi
    refine ⟨hlt, hkey, ?_⟩
    intro j hji hj
    -- the key would have two places
    have hi' := (h key i).2 hi
    have hj' := (h key j).2 (List.getElem?_eq_some_iff.2 ⟨by omega, hj⟩)
    rw [hi'] at hj'
    cases hj'
    exact absurd hji (Nat.lt_irrefl i)
  · rintro ⟨hlt, hkey, -⟩
    exact List.getElem?_eq_some_iff.2 ⟨hlt, hkey⟩

/-- Tables of one list give the same answers. -/
theorem getElem?_congr (h : Indexes table keys) (h' : Indexes table' keys) (key : String) :
    table[key]? = table'[key]? :=
  Option.ext fun i => (h key i).trans (h' key i).symm

/-- **A new key goes to the end.** -/
theorem push (h : Indexes table keys) (hnew : key ∉ keys) :
    Indexes (table.insert key keys.length) (keys ++ [key]) := by
  intro k i
  simp only [Std.TreeMap.getElem?_insert, Std.LawfulEqCmp.compare_eq_iff_eq]
  -- by where the place lies: in the list, at its new end or beyond
  rcases Nat.lt_trichotomy i keys.length with hi | rfl | hi
  · rw [List.getElem?_append_left hi]
    by_cases hk : key = k
    · subst hk
      rw [if_pos rfl]
      constructor
      · intro he; cases he; exact absurd hi (Nat.lt_irrefl _)
      · exact fun he => absurd (List.mem_of_getElem? he) hnew
    · rw [if_neg hk, h k i]
  · by_cases hk : key = k
    · simp [hk]
    · have hout : table[k]? ≠ some keys.length := fun he => Nat.lt_irrefl _ (h.lt_length he)
      simp [hk, hout]
  · rw [List.getElem?_eq_none (by simp; omega)]
    by_cases hk : key = k
    · simp [hk, Nat.ne_of_lt hi]
    · have hout : table[k]? ≠ some i := fun he => by have := h.lt_length he; omega
      simp [hk, hout]

/-- **A key is taken out** and the later ones move up by one. -/
theorem eraseIdx (h : Indexes table keys) (hi : table[key]? = some i) :
    Indexes ((table.erase key).map fun _ j => if i < j then j - 1 else j) (keys.eraseIdx i) := by
  intro k j
  simp only [Std.TreeMap.getElem?_map, Std.TreeMap.getElem?_erase,
    Std.LawfulEqCmp.compare_eq_iff_eq, List.getElem?_eraseIdx]
  have hkey := (h key i).1 hi
  constructor
  · intro he
    split at he
    next => cases he
    next hk =>
      obtain ⟨m, hm, hj⟩ := Option.map_eq_some_iff.1 he
      have hkm := (h k m).1 hm
      -- the place that falls away is that of the key taken out
      have hmi : m ≠ i := by
        rintro rfl
        rw [hkey] at hkm
        exact hk (Option.some.inj hkm)
      split at hj
      next => rw [if_neg (by omega), show j + 1 = m by omega, hkm]
      next => rw [if_pos (by omega), ← hj, hkm]
  · intro he
    have hk : ∀ m, m ≠ i → keys[m]? = some k → key ≠ k := by
      rintro m hmi hm rfl
      have := (h key m).2 hm
      rw [hi] at this
      exact hmi (Option.some.inj this).symm
    split at he
    next hlt =>
      rw [if_neg (hk j (by omega) he), (h k j).2 he, Option.map_some, if_neg (by omega)]
    next hge =>
      rw [if_neg (hk (j + 1) (by omega) he), (h k (j + 1)).2 he, Option.map_some,
        if_pos (by omega)]
      rfl

end Indexes

/-- **A table filled entry by entry** has in each row the entries for it, in order. -/
theorem getElem?_foldl_modify {α β : Type*} (row : α → ℕ) (entry : α → β) (xs : List α)
    (count r : ℕ) :
    (xs.foldl (fun rows x => rows.modify (row x) (· ++ [entry x])) (Array.replicate count []))[r]? =
      if r < count then some ((xs.filter fun x => row x = r).map entry) else none := by
  induction xs using List.reverseRecOn with
  | nil => simp [Array.getElem?_replicate]
  | append_singleton xs x ih =>
    rw [List.foldl_append, List.foldl_cons, List.foldl_nil, Array.getElem?_modify, ih,
      List.filter_append, List.map_append]
    by_cases hr : r < count <;> by_cases hx : row x = r <;> simp [hr, hx]

end DataLineage
