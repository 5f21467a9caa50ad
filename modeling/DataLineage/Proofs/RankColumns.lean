import DataLineage.Proofs.NaturalFloats
import DataLineage.Proofs.PositionTable
import Mathlib.Data.Set.Card

/-!
# The columns of an arrangement

An arrangement keeps the nodes of each rank in a column and the place of each node beside them. A
sweep sorts one column after another and writes the places anew, so the two stay in step. Isolated
nodes stay at the end of their column in the order of the graph: they are sorted by their own
places, and these are in that order already.

* `SortKey.le_iff`: the order of keys, first by isolation, then by place and then by node.
* `Arrangement.InStep.reorder`: sorting a column keeps columns and places in step.
* `Arrangement.Sound.reorder`: for a graph's own input it keeps isolated nodes last too.
* `Arranged.sound_ofInput`: both hold after any number of sweeps.
* `Arrangement.Sound.bijOn`: the places in a rank are those from zero on, each taken once.
-/

namespace DataLineage

/-! ## Ranks -/

/-- The ranks in use are below their number. -/
theorem OrderInput.rankOf_lt {input : OrderInput} {v : ℕ} (hv : v < input.ranks.size) :
    input.rankOf v < input.rankCount := by
  have hne : ¬ input.ranks.isEmpty := by
    rw [Array.isEmpty_iff_size_eq_zero]
    omega
  have hmem : input.ranks[v] ∈ input.ranks.toList := Array.mem_toList_iff.2 (Array.getElem_mem hv)
  have hle : input.ranks[v] ≤ input.ranks.foldl max 0 := by
    rw [← Array.foldl_toList, List.foldl_max]
    exact (List.le_max?_getD_of_mem hmem).trans (Nat.le_max_right _ _)
  rw [rankOf, Array.getElem?_eq_getElem hv, Option.getD_some, rankCount, if_neg hne]
  omega

/-! ## Keys -/

namespace SortKey

/-- The order of keys. -/
theorem le_iff (a b : SortKey) : a.le b ↔
    (a.isolated = false ∧ b.isolated = true) ∨
    (a.isolated = b.isolated ∧
      (totalOrderKey a.mean < totalOrderKey b.mean ∨
        totalOrderKey a.mean = totalOrderKey b.mean ∧ a.node ≤ b.node)) := by
  unfold le
  cases a.isolated <;> cases b.isolated <;> simp <;> split <;> simp_all

theorem le_trans (a b c : SortKey) (hab : a.le b) (hbc : b.le c) : a.le c := by
  rw [le_iff] at hab hbc ⊢
  rcases hab with ⟨ha, hb⟩ | ⟨hab, hle⟩ <;> rcases hbc with ⟨hb', hc⟩ | ⟨hbc, hle'⟩
  · simp [hb] at hb'
  · exact Or.inl ⟨ha, hbc ▸ hb⟩
  · exact Or.inl ⟨hab ▸ hb', hc⟩
  · exact Or.inr ⟨hab.trans hbc, by omega⟩

theorem le_total (a b : SortKey) : (a.le b || b.le a) = true := by
  rw [Bool.or_eq_true, le_iff, le_iff]
  cases a.isolated <;> cases b.isolated <;> simp <;> omega

end SortKey

namespace Arrangement

variable {input : OrderInput} {a : Arrangement} {places : Array ℕ} {column : List ℕ}
  {i r u v n : ℕ}

/-! ## Places -/

theorem writePlaces_append (places : Array ℕ) (column : List ℕ) (v : ℕ) :
    writePlaces places (column ++ [v]) =
      (writePlaces places column).setIfInBounds v column.length := by
  simp [writePlaces, List.zipIdx_append]

theorem size_writePlaces (places : Array ℕ) (column : List ℕ) :
    (writePlaces places column).size = places.size := by
  induction column using List.reverseRecOn with
  | nil => rfl
  | append_singleton column v ih => rw [writePlaces_append, Array.size_setIfInBounds, ih]

theorem getElem?_writePlaces_of_notMem (hv : v ∉ column) :
    (writePlaces places column)[v]? = places[v]? := by
  induction column using List.reverseRecOn with
  | nil => rfl
  | append_singleton column u ih =>
    rw [List.mem_append, List.mem_singleton, not_or] at hv
    rw [writePlaces_append, Array.getElem?_setIfInBounds_ne (Ne.symm hv.2), ih hv.1]

/-- Each node of a column gets its place in it. -/
theorem getElem?_writePlaces (hnodup : column.Nodup) (hi : column[i]? = some v)
    (hv : v < places.size) : (writePlaces places column)[v]? = some i := by
  induction column using List.reverseRecOn with
  | nil => simp at hi
  | append_singleton column u ih =>
    rw [List.nodup_append'] at hnodup
    obtain ⟨hnodup, -, hdisjoint⟩ := hnodup
    rw [writePlaces_append]
    rcases Nat.lt_trichotomy i column.length with hlt | rfl | hgt
    · rw [List.getElem?_append_left hlt] at hi
      have hne : u ≠ v := by
        rintro rfl
        exact hdisjoint (List.mem_of_getElem? hi) (List.mem_singleton_self u)
      rw [Array.getElem?_setIfInBounds_ne hne, ih hnodup hi]
    · obtain rfl : u = v := by simpa using hi
      rw [Array.getElem?_setIfInBounds_self_of_lt]
      rwa [size_writePlaces]
    · rw [List.getElem?_eq_none (by simp; omega)] at hi
      cases hi

theorem size_foldl_writePlaces (columns : List (List ℕ)) (places : Array ℕ) :
    (columns.foldl writePlaces places).size = places.size := by
  induction columns generalizing places with
  | nil => rfl
  | cons column columns ih => rw [List.foldl_cons, ih, size_writePlaces]

/-- Columns of different nodes do not get in each other's way. -/
theorem getElem?_foldl_writePlaces {columns : List (List ℕ)} (rank : ℕ → ℕ)
    (hrank : ∀ (r : ℕ) column, columns[r]? = some column → ∀ v ∈ column, rank v = r)
    (hnodup : ∀ column ∈ columns, column.Nodup) (hr : columns[r]? = some column)
    (hi : column[i]? = some v) (hv : v < places.size) :
    (columns.foldl writePlaces places)[v]? = some i := by
  induction columns using List.reverseRecOn with
  | nil => simp at hr
  | append_singleton columns last ih =>
    rw [List.foldl_append, List.foldl_cons, List.foldl_nil]
    have hvr : rank v = r := hrank r column hr v (List.mem_of_getElem? hi)
    rcases Nat.lt_trichotomy r columns.length with hlt | rfl | hgt
    · rw [List.getElem?_append_left hlt] at hr
      have hnot : v ∉ last := by
        intro hmem
        have := hrank columns.length last (by simp) v hmem
        omega
      rw [getElem?_writePlaces_of_notMem hnot]
      refine ih ?_ ?_ hr
      · intro r column hr
        refine hrank r column ?_
        rw [List.getElem?_append_left (List.getElem?_eq_some_iff.1 hr).1, hr]
      · exact fun column hcolumn => hnodup column (List.mem_append_left _ hcolumn)
    · obtain rfl : last = column := by simpa using hr
      refine getElem?_writePlaces (hnodup last (by simp)) hi ?_
      rwa [size_foldl_writePlaces]
    · rw [List.getElem?_eq_none (by simp; omega)] at hr
      cases hr

/-! ## The invariant -/

/-- **An arrangement in step with its input**: the columns hold the nodes of the ranks, and places
follow the columns. -/
structure InStep (input : OrderInput) (a : Arrangement) : Prop where
  size : a.places.size = input.ranks.size
  mem : ∀ r v, v ∈ a.column r ↔ v < input.ranks.size ∧ input.rankOf v = r
  nodup : ∀ r, (a.column r).Nodup
  place : ∀ r i v, (a.column r)[i]? = some v → a.placeOf v = i

/-- **An arrangement with isolated nodes last**: it is in step with its input, and after an isolated
node only isolated ones stand, in the order of the graph. -/
structure Sound (input : OrderInput) (a : Arrangement) : Prop extends InStep input a where
  last : ∀ r, (a.column r).Pairwise fun u v => input.isIsolated u → input.isIsolated v ∧ u < v

/-- Nodes of one column have different places. -/
theorem Sound.eq_of_placeOf (h : Sound input a) (hu : u ∈ a.column r) (hv : v ∈ a.column r)
    (heq : a.placeOf u = a.placeOf v) : u = v := by
  obtain ⟨i, hi⟩ := List.getElem?_of_mem hu
  obtain ⟨j, hj⟩ := List.getElem?_of_mem hv
  rw [h.place r i u hi, h.place r j v hj] at heq
  rw [heq, hj] at hi
  exact (Option.some.inj hi).symm

/-- What comes after an isolated node is isolated and comes after it in the graph. -/
theorem Sound.last_of_placeOf (h : Sound input a) (hu : u ∈ a.column r) (hv : v ∈ a.column r)
    (hlt : a.placeOf u < a.placeOf v) (hiso : input.isIsolated u) :
    input.isIsolated v ∧ u < v := by
  obtain ⟨i, hi⟩ := List.getElem?_of_mem hu
  obtain ⟨j, hj⟩ := List.getElem?_of_mem hv
  rw [h.place r i u hi, h.place r j v hj] at hlt
  obtain ⟨hilt, rfl⟩ := List.getElem?_eq_some_iff.1 hi
  obtain ⟨hjlt, rfl⟩ := List.getElem?_eq_some_iff.1 hj
  exact List.pairwise_iff_getElem.1 (h.last r) i j hilt hjlt hlt hiso

/-- **The places in a rank are those from zero on**, each taken once. -/
theorem Sound.bijOn (h : Sound input a) (r : ℕ) :
    Set.BijOn a.placeOf {v | v < input.ranks.size ∧ input.rankOf v = r}
      (Set.Iio {v | v < input.ranks.size ∧ input.rankOf v = r}.ncard) := by
  have hset : {v | v < input.ranks.size ∧ input.rankOf v = r} = ↑(a.column r).toFinset := by
    ext v
    simp [h.mem r v]
  have hcard : {v | v < input.ranks.size ∧ input.rankOf v = r}.ncard = (a.column r).length := by
    rw [hset, Set.ncard_coe_finset, List.toFinset_card_of_nodup (h.nodup r)]
  rw [hcard]
  refine ⟨?_, ?_, ?_⟩
  · intro v hv
    obtain ⟨i, hi⟩ := List.getElem?_of_mem ((h.mem r v).2 hv)
    rw [Set.mem_Iio, h.place r i v hi]
    exact (List.getElem?_eq_some_iff.1 hi).1
  · intro u hu v hv heq
    exact h.eq_of_placeOf ((h.mem r u).2 hu) ((h.mem r v).2 hv) heq
  · intro i hi
    have hget := List.getElem?_eq_getElem (Set.mem_Iio.1 hi)
    exact ⟨_, (h.mem r _).1 (List.mem_of_getElem? hget), h.place r i _ hget⟩

/-! ## The start -/

/-- The nodes in the order in which they first come to their columns. -/
def startOrder (input : OrderInput) : List ℕ :=
  (List.range input.ranks.size).filter (fun v => !input.isIsolated v) ++
    (List.range input.ranks.size).filter input.isIsolated

theorem mem_startOrder : v ∈ startOrder input ↔ v < input.ranks.size := by
  rw [startOrder, List.mem_append, List.mem_filter, List.mem_filter, List.mem_range]
  cases input.isIsolated v <;> simp

theorem nodup_startOrder (input : OrderInput) : (startOrder input).Nodup := by
  refine List.nodup_append'.2 ⟨List.nodup_range.filter _, List.nodup_range.filter _, ?_⟩
  intro v hv hv'
  have := (List.mem_filter.1 hv).2
  simp [(List.mem_filter.1 hv').2] at this

theorem pairwise_startOrder (input : OrderInput) :
    (startOrder input).Pairwise fun u v => input.isIsolated u → input.isIsolated v ∧ u < v := by
  rw [startOrder, List.pairwise_append]
  refine ⟨?_, ?_, ?_⟩
  · refine List.Pairwise.imp_of_mem ?_ (List.pairwise_lt_range.filter _)
    intro u v hu _ _ hiso
    simp [hiso] at hu
  · refine List.Pairwise.imp_of_mem ?_ (List.pairwise_lt_range.filter _)
    intro u v _ hv huv _
    exact ⟨(List.mem_filter.1 hv).2, huv⟩
  · intro u hu v _ hiso
    simp [hiso] at hu

/-- Each column starts with the nodes of its rank. -/
theorem column_initial (input : OrderInput) (r : ℕ) :
    (initial input).column r = (startOrder input).filter fun v => input.rankOf v = r := by
  have hget := getElem?_foldl_modify input.rankOf id (startOrder input) input.rankCount r
  rw [List.map_id] at hget
  rw [column, show (initial input).columns[r]? = _ from hget]
  split_ifs with hr
  · rfl
  · -- no node has a rank that is not in use
    refine (List.filter_eq_nil_iff.2 ?_).symm
    intro v hv hvr
    have := OrderInput.rankOf_lt (mem_startOrder.1 hv)
    rw [of_decide_eq_true hvr] at this
    exact hr this

theorem places_initial (input : OrderInput) :
    (initial input).places =
      (initial input).columns.toList.foldl writePlaces (Array.replicate input.ranks.size 0) := by
  rw [Array.foldl_toList]
  rfl

theorem mem_column_initial :
    v ∈ (initial input).column r ↔ v < input.ranks.size ∧ input.rankOf v = r := by
  rw [column_initial, List.mem_filter, mem_startOrder, decide_eq_true_eq]

theorem nodup_column_initial (input : OrderInput) (r : ℕ) : ((initial input).column r).Nodup := by
  rw [column_initial]
  exact (nodup_startOrder input).filter _

theorem column_of_getElem? (hr : a.columns[r]? = some column) : a.column r = column := by
  rw [Arrangement.column, hr, Option.getD_some]

/-- A column that holds a node is there. -/
theorem getElem?_columns_of_mem (hv : v ∈ a.column r) : a.columns[r]? = some (a.column r) := by
  cases hr : a.columns[r]? with
  | none =>
    rw [Arrangement.column, hr] at hv
    cases hv
  | some column => rw [column_of_getElem? hr]

/-- Each node starts with its place in its column. -/
theorem placeOf_initial (hi : ((initial input).column r)[i]? = some v) :
    (initial input).placeOf v = i := by
  have hmem := List.mem_of_getElem? hi
  have hr := getElem?_columns_of_mem hmem
  have hv : v < (Array.replicate input.ranks.size 0).size := by
    rw [Array.size_replicate]
    exact (mem_column_initial.1 hmem).1
  rw [← Array.getElem?_toList] at hr
  have hplace : (initial input).places[v]? = some i := by
    rw [places_initial]
    refine getElem?_foldl_writePlaces input.rankOf ?_ ?_ hr hi hv
    · intro r column hr v hv
      rw [Array.getElem?_toList] at hr
      rw [← column_of_getElem? hr, mem_column_initial] at hv
      exact hv.2
    · intro column hc
      obtain ⟨r, hr⟩ := List.getElem?_of_mem hc
      rw [Array.getElem?_toList] at hr
      rw [← column_of_getElem? hr]
      exact nodup_column_initial input r
  rw [placeOf, hplace, Option.getD_some]

theorem inStep_initial (input : OrderInput) : InStep input (initial input) := by
  refine ⟨?_, fun _ _ => mem_column_initial, nodup_column_initial input, fun _ _ _ => placeOf_initial⟩
  rw [places_initial, size_foldl_writePlaces, Array.size_replicate]

theorem sound_initial (input : OrderInput) : Sound input (initial input) := by
  refine ⟨inStep_initial input, ?_⟩
  intro r
  rw [column_initial]
  exact (pairwise_startOrder input).filter _

/-! ## Sweeps -/

variable {neighbours : ℕ → List ℕ} {beside : ℕ}

/-- The nodes of a column in their new order. -/
def sortedColumn (input : OrderInput) (a : Arrangement) (neighbours : ℕ → List ℕ)
    (r beside : ℕ) : List ℕ :=
  ((a.sortKeys input neighbours r beside).mergeSort SortKey.le).map (·.node)

/-- Sorting a column keeps its nodes. -/
theorem sortedColumn_perm (input : OrderInput) (a : Arrangement) (neighbours : ℕ → List ℕ)
    (r beside : ℕ) : (sortedColumn input a neighbours r beside).Perm (a.column r) := by
  have hmap : (a.sortKeys input neighbours r beside).map (·.node) = a.column r := by
    rw [sortKeys, List.map_map]
    exact List.map_id _
  rw [← hmap]
  exact (List.mergeSort_perm _ _).map _

/-- Isolated nodes are sorted by their own places. -/
theorem totalOrderKey_mean (hnone : ∀ v, input.isIsolated v → neighbours v = []) {k : SortKey}
    (hk : k ∈ a.sortKeys input neighbours r beside) (hiso : k.isolated) :
    k.node ∈ a.column r ∧ input.isIsolated k.node ∧
      k.mean = Float.ofNat (a.placeOf k.node) := by
  obtain ⟨v, hv, rfl⟩ := List.mem_map.1 hk
  refine ⟨hv, hiso, ?_⟩
  simp only [meanPlace, hnone v hiso]
  rfl

/-- **Sorting keeps isolated nodes at the end**, in the order of the graph. -/
theorem Sound.pairwise_sortedColumn (h : Sound input a)
    (hnone : ∀ v, input.isIsolated v → neighbours v = []) (r beside : ℕ) :
    (sortedColumn input a neighbours r beside).Pairwise
      fun u v => input.isIsolated u → input.isIsolated v ∧ u < v := by
  set keys := (a.sortKeys input neighbours r beside).mergeSort SortKey.le with hkeys
  have hle : keys.Pairwise fun k k' => k.le k' :=
    List.pairwise_mergeSort SortKey.le_trans SortKey.le_total _
  have hne : keys.Pairwise fun k k' => k.node ≠ k'.node :=
    List.pairwise_map.1 ((sortedColumn_perm input a neighbours r beside).nodup_iff.2 (h.nodup r))
  refine List.pairwise_map.2 ((hle.and hne).imp_of_mem ?_)
  rintro k k' hk hk' ⟨hle, hne⟩ hiso
  rw [hkeys, List.mem_mergeSort] at hk hk'
  have hkiso : k.isolated := by
    obtain ⟨v, -, rfl⟩ := List.mem_map.1 hk
    exact hiso
  rcases (SortKey.le_iff k k').1 hle with ⟨hfalse, -⟩ | ⟨heq, hle⟩
  · simp [hkiso] at hfalse
  · obtain ⟨hu, -, hmean⟩ := totalOrderKey_mean hnone hk hkiso
    obtain ⟨hv, hiso', hmean'⟩ := totalOrderKey_mean hnone hk' (heq ▸ hkiso)
    refine ⟨hiso', ?_⟩
    by_contra hlt
    -- the later one stood first, so its place has no greater key
    have hplace : a.placeOf k'.node ≤ a.placeOf k.node := by
      by_contra hplace
      exact hlt (h.last_of_placeOf hu hv (Nat.lt_of_not_le hplace) hiso).2
    have hkey := totalOrderKey_ofNat_mono hplace
    rw [hmean, hmean'] at hle
    omega

theorem reorder_eq (input : OrderInput) (neighbours : ℕ → List ℕ) (r beside : ℕ)
    (a : Arrangement) : (reorder input neighbours r beside a).1 =
      ⟨a.columns.setIfInBounds r (sortedColumn input a neighbours r beside),
        writePlaces a.places (sortedColumn input a neighbours r beside)⟩ := rfl

/-- One column is sorted and the others stay. -/
theorem column_reorder (input : OrderInput) (neighbours : ℕ → List ℕ) (r beside : ℕ)
    (a : Arrangement) (r' : ℕ) : (reorder input neighbours r beside a).1.column r' =
      if r = r' then sortedColumn input a neighbours r beside else a.column r' := by
  rw [reorder_eq, column, Array.getElem?_setIfInBounds]
  split_ifs with hr hsize
  · rfl
  · -- there is no such column, so there is nothing to sort
    have hnil : a.column r = [] := by
      rw [column, Array.getElem?_eq_none (Nat.le_of_not_lt hsize), Option.getD_none]
    have hperm := sortedColumn_perm input a neighbours r beside
    rw [hnil] at hperm
    exact hperm.eq_nil.symm
  · rfl

/-- **Sorting a column keeps columns and places in step.** -/
theorem InStep.reorder (h : InStep input a) (neighbours : ℕ → List ℕ) (r beside : ℕ) :
    InStep input (reorder input neighbours r beside a).1 := by
  have hperm := sortedColumn_perm input a neighbours r beside
  have hcolumn := column_reorder input neighbours r beside a
  have hplaces : (Arrangement.reorder input neighbours r beside a).1.places =
      writePlaces a.places (sortedColumn input a neighbours r beside) := rfl
  refine ⟨?_, ?_, ?_, ?_⟩
  · rw [hplaces, size_writePlaces, h.size]
  · intro r' v
    rw [hcolumn]
    split_ifs with hr
    · rw [hperm.mem_iff, h.mem, hr]
    · exact h.mem r' v
  · intro r'
    rw [hcolumn]
    split_ifs with hr
    · exact hperm.nodup_iff.2 (h.nodup r)
    · exact h.nodup r'
  · intro r' i v hi
    rw [hcolumn] at hi
    rw [placeOf, hplaces]
    split_ifs at hi with hr
    · have hv := (h.mem r v).1 (hperm.mem_iff.1 (List.mem_of_getElem? hi))
      rw [getElem?_writePlaces (hperm.nodup_iff.2 (h.nodup r)) hi (h.size ▸ hv.1),
        Option.getD_some]
    · -- a node of another rank keeps its place
      have hnot : v ∉ sortedColumn input a neighbours r beside := by
        intro hv
        have hv := (h.mem r v).1 (hperm.mem_iff.1 hv)
        have hv' := (h.mem r' v).1 (List.mem_of_getElem? hi)
        exact hr (hv.2.symm.trans hv'.2)
      rw [getElem?_writePlaces_of_notMem hnot]
      exact h.place r' i v hi

/-- **Sorting a column keeps isolated nodes last.** -/
theorem Sound.reorder (h : Sound input a)
    (hnone : ∀ v, input.isIsolated v → neighbours v = []) (r beside : ℕ) :
    Sound input (reorder input neighbours r beside a).1 := by
  refine ⟨h.toInStep.reorder neighbours r beside, ?_⟩
  intro r'
  rw [column_reorder]
  split_ifs with hr
  · exact h.pairwise_sortedColumn hnone r beside
  · exact h.last r'

/-- What each reordering keeps, a run over some ranks keeps. -/
theorem reorderAll_of {P : Arrangement → Prop} {f : ℕ → Arrangement → Arrangement × Bool}
    (hf : ∀ r a, P a → P (f r a).1) (ranks : List ℕ) (h : P a) : P (reorderAll f ranks a).1 := by
  have key : ∀ s : Arrangement × Bool, P s.1 →
      P (ranks.foldl (fun s r => ((f r s.1).1, s.2 || (f r s.1).2)) s).1 := by
    induction ranks with
    | nil => exact fun _ hs => hs
    | cons r ranks ih => exact fun s hs => ih _ (hf r s.1 hs)
  exact key (a, false) h

/-- **What sorting a column keeps, a sweep keeps**, whichever neighbours a column is sorted by. -/
theorem sweep_of {P : Arrangement → Prop}
    (hbefore : ∀ r a, P a → P (reorder input input.adjacency.before r (r - 1) a).1)
    (hafter : ∀ r a, P a → P (reorder input input.adjacency.after r (r + 1) a).1) (h : P a) :
    P (a.sweep input).1 :=
  reorderAll_of hafter _ (reorderAll_of hbefore _ h)

theorem InStep.sweep (h : InStep input a) : InStep input (a.sweep input).1 :=
  sweep_of (fun r _ ha => ha.reorder _ r (r - 1)) (fun r _ ha => ha.reorder _ r (r + 1)) h

theorem Sound.sweep (h : Sound input a)
    (hbefore : ∀ v, input.isIsolated v → input.adjacency.before v = [])
    (hafter : ∀ v, input.isIsolated v → input.adjacency.after v = []) :
    Sound input (a.sweep input).1 :=
  sweep_of (fun r _ ha => ha.reorder hbefore r (r - 1))
    (fun r _ ha => ha.reorder hafter r (r + 1)) h

end Arrangement

namespace Arranged

variable {input : OrderInput}

theorem sound_improve (hbefore : ∀ v, input.isIsolated v → input.adjacency.before v = [])
    (hafter : ∀ v, input.isIsolated v → input.adjacency.after v = []) (budget : ℕ)
    {a : Arrangement} (h : a.Sound input) : (improve input budget a).arrangement.Sound input := by
  induction budget generalizing a with
  | zero => exact h
  | succ budget ih =>
    have hsweep := h.sweep hbefore hafter
    unfold improve
    split
    next a' ha' => rwa [ha'] at hsweep
    next a' ha' =>
      rw [ha'] at hsweep
      exact ih hsweep

/-- **Isolated nodes are last after any number of sweeps.** -/
theorem sound_ofInput (hbefore : ∀ v, input.isIsolated v → input.adjacency.before v = [])
    (hafter : ∀ v, input.isIsolated v → input.adjacency.after v = []) (budget : ℕ) :
    (ofInput input budget).arrangement.Sound input := by
  unfold ofInput
  split
  next hempty =>
    have hsize : input.ranks.size = 0 := Array.isEmpty_iff_size_eq_zero.1 hempty
    have hcolumn : ∀ r, Arrangement.column ⟨#[], #[]⟩ r = [] := fun _ => rfl
    refine ⟨⟨hsize.symm, ?_, ?_, ?_⟩, ?_⟩ <;> simp [hcolumn, hsize]
  next => exact sound_improve hbefore hafter budget (Arrangement.sound_initial input)

end Arranged

end DataLineage
