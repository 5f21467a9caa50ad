import DataLineage.Proofs.Reachability

/-!
# Searches up to a number of generations

A bounded search does what the unbounded one does up to the first node at the bound. From then on it
only empties its queue, while the unbounded one lets in nodes beyond the bound alone. So the bounded
search finds a front part of what the unbounded one finds, and all of it once the bound is as great
as any distance in the graph.

* `Reach.search_unbounded_level`: what is left of the unbounded search at the bound.
* `Reach.search_bounded`: a bounded search by the unbounded one.
* `Graph.Mirrored.depth_lt`: no node is found as deep as the graph has nodes.
* `Graph.Mirrored.bounded_mono`: with a greater bound more is found, at the end.
* `Graph.reachable_bounded`: the statement.
-/

namespace DataLineage

/-- Where values do not fall, those up to a bound come first. -/
theorem filter_le_front {α : Type*} {f : α → ℕ} {xs : List α} (k : ℕ)
    (h : xs.Pairwise fun x y => f x ≤ f y) : xs.filter (f · ≤ k) <+: xs := by
  induction xs with
  | nil => exact List.nil_prefix
  | cons x xs ih =>
    obtain ⟨hx, hxs⟩ := List.pairwise_cons.1 h
    by_cases hk : f x ≤ k
    · rw [List.filter_cons_of_pos (by simpa using hk)]
      exact List.cons_prefix_cons.2 ⟨rfl, ih hxs⟩
    · have hnone : (x :: xs).filter (f · ≤ k) = [] := by
        refine List.filter_eq_nil_iff.2 fun y hy hyk => hk ?_
        have hyk : f y ≤ k := of_decide_eq_true hyk
        rcases List.mem_cons.1 hy with rfl | hy
        · exact hyk
        · exact (hx y hy).trans hyk
      rw [hnone]
      exact List.nil_prefix

namespace Reach

variable {next : ℕ → List ℕ} {seen : Array Bool} {queue level later : List (ℕ × ℕ)} {k : ℕ}

/-- A search finds nothing less deep than what it starts with. -/
theorem lt_of_mem_search (generations : Generations) (hqueue : ∀ p ∈ queue, k < p.2) :
    ∀ p ∈ search next generations seen queue, k < p.2 := by
  induction seen, queue using search.induct next generations with
  | case1 seen => simp [search]
  | case2 seen v d queue hd ih =>
    rw [search, if_pos hd, List.forall_mem_cons]
    obtain ⟨hv, hrest⟩ := List.forall_mem_cons.1 hqueue
    refine ⟨hv, ih ?_⟩
    intro p hp
    rcases List.mem_append.1 hp with hp | hp
    · exact hrest p hp
    · obtain ⟨w, -, rfl⟩ := List.mem_map.1 hp
      exact Nat.lt_succ_of_lt hv
  | case3 seen v d queue hd ih =>
    rw [search, if_neg hd, List.forall_mem_cons]
    obtain ⟨hv, hrest⟩ := List.forall_mem_cons.1 hqueue
    exact ⟨hv, ih hrest⟩

theorem search_unbounded_cons (next : ℕ → List ℕ) (seen : Array Bool) (p : ℕ × ℕ)
    (queue : List (ℕ × ℕ)) : search next .unbounded seen (p :: queue) =
      p :: search next .unbounded (enqueue seen (next p.1)).1
        (queue ++ (enqueue seen (next p.1)).2.map (·, p.2 + 1)) := by
  have hgo : Generations.unbounded.allowsFrom p.2 = true := rfl
  rw [search, if_pos hgo]

/-- From the bound on, a bounded search only empties its queue. -/
theorem search_bounded_of_le (hqueue : ∀ p ∈ queue, k ≤ p.2) :
    search next (.bounded k) seen queue = queue := by
  induction queue with
  | nil => rw [search]
  | cons p queue ih =>
    obtain ⟨hp, hrest⟩ := List.forall_mem_cons.1 hqueue
    have hstop : ¬ (Generations.bounded k).allowsFrom p.2 := by
      rw [Generations.allowsFrom_iff]
      exact Nat.not_lt.2 hp
    rw [search, if_neg hstop, ih hrest]

/-- **What is left of the unbounded search at the bound**: the nodes of that depth which are in the
queue already. -/
theorem search_unbounded_level (hlevel : ∀ p ∈ level, p.2 = k) (hlater : ∀ p ∈ later, k < p.2) :
    (search next .unbounded seen (level ++ later)).filter (·.2 ≤ k) = level := by
  induction level generalizing seen later with
  | nil =>
    rw [List.filter_eq_nil_iff]
    intro p hp hpk
    have hlt := lt_of_mem_search .unbounded hlater p hp
    exact absurd (of_decide_eq_true hpk) (Nat.not_le.2 hlt)
  | cons p level ih =>
    obtain ⟨hp, hrest⟩ := List.forall_mem_cons.1 hlevel
    rw [List.cons_append, search_unbounded_cons, List.append_assoc,
      List.filter_cons_of_pos (by simpa using hp.le), ih hrest]
    -- the neighbours of a node at the bound are beyond it
    intro q hq
    rcases List.mem_append.1 hq with hq | hq
    · exact hlater q hq
    · obtain ⟨w, -, rfl⟩ := List.mem_map.1 hq
      exact Nat.lt_succ_of_le hp.ge

/-- A queue as it is in a search: depths do not fall along it, and differ by one at most. -/
def Ordered (queue : List (ℕ × ℕ)) : Prop :=
  queue.Pairwise fun p q => p.2 ≤ q.2 ∧ q.2 ≤ p.2 + 1

/-- The neighbours of the first in the queue can join its end. -/
theorem Ordered.expand {v d : ℕ} (h : Ordered ((v, d) :: queue)) (fresh : List ℕ) :
    Ordered (queue ++ fresh.map (·, d + 1)) := by
  obtain ⟨hfirst, hrest⟩ := List.pairwise_cons.1 h
  refine List.pairwise_append.2 ⟨hrest, ?_, ?_⟩
  · exact List.pairwise_map.2 (List.pairwise_of_forall fun _ _ => ⟨le_rfl, Nat.le_succ _⟩)
  · intro p hp q hq
    obtain ⟨w, -, rfl⟩ := List.mem_map.1 hq
    obtain ⟨hle, hle'⟩ := hfirst p hp
    exact ⟨hle', Nat.succ_le_succ hle⟩

/-- **A bounded search finds what the unbounded one finds up to the bound**, in the same order. -/
theorem search_bounded (h : Ordered queue) (hqueue : ∀ p ∈ queue, p.2 ≤ k) :
    search next (.bounded k) seen queue =
      (search next .unbounded seen queue).filter (·.2 ≤ k) := by
  induction seen, queue using search.induct next (.bounded k) with
  | case1 seen => simp [search]
  | case2 seen v d queue hd ih =>
    have hlt : d < k := (Generations.allowsFrom_iff k d).1 hd
    obtain ⟨-, hrest⟩ := List.forall_mem_cons.1 hqueue
    rw [search, if_pos hd, search_unbounded_cons, List.filter_cons_of_pos (by simpa using hlt.le),
      ih (h.expand _)]
    intro p hp
    rcases List.mem_append.1 hp with hp | hp
    · exact hrest p hp
    · obtain ⟨w, -, rfl⟩ := List.mem_map.1 hp
      exact hlt
  | case3 seen v d queue hd =>
    -- the first is at the bound, and so is all that waits behind it
    have hkd : k ≤ d := Nat.not_lt.1 fun hlt => hd ((Generations.allowsFrom_iff k d).2 hlt)
    have hlevel : ∀ p ∈ (v, d) :: queue, p.2 = k := by
      intro p hp
      refine Nat.le_antisymm (hqueue p hp) ?_
      rcases List.mem_cons.1 hp with rfl | hp
      · exact hkd
      · exact hkd.trans (List.rel_of_pairwise_cons h hp).1
    have hunbounded : (search next .unbounded seen ((v, d) :: queue ++ [])).filter (·.2 ≤ k) =
        (v, d) :: queue := search_unbounded_level hlevel fun p hp => absurd hp List.not_mem_nil
    rw [List.append_nil] at hunbounded
    rw [hunbounded]
    exact search_bounded_of_le fun p hp => (hlevel p hp).ge

end Reach

namespace Graph

variable {g : Graph} {start : String} {direction : Direction}

/-- A bounded search from a node, by the unbounded one. -/
theorem Mirrored.reachable_bounded_eq (hg : g.Consistent) (h : g.Mirrored) (k : ℕ) :
    g.reachable start direction (.bounded k) =
      (g.reachable start direction .unbounded).filter (·.depth ≤ k) := by
  by_cases hstart : start ∈ g.nodeIds
  · obtain ⟨i, hi⟩ := hg.positions.exists_iff_mem.2 hstart
    have hfound : g.found i direction (.bounded k) =
        (g.found i direction .unbounded).filter (·.2 ≤ k) :=
      Reach.search_bounded (List.pairwise_singleton _ _) (by simp)
    rw [h.reachable_eq hg hi, h.reachable_eq hg hi, hfound, List.filter_map]
    rfl
  · rw [hg.reachable_of_notMem hstart, hg.reachable_of_notMem hstart, List.filter_nil]

/-- No node is found as deep as the graph has nodes. -/
theorem Mirrored.depth_lt (hg : g.Consistent) (h : g.Mirrored) {generations : Generations}
    {p : Reached} (hp : p ∈ g.reachable start direction generations) : p.depth < g.nodes.size := by
  by_cases hstart : start ∈ g.nodeIds
  · obtain ⟨⟨hw, hleast⟩, -⟩ := (h.mem_reachable_iff hg hstart p.id p.depth).1 hp
    obtain ⟨k, -, hk, hw'⟩ := hg.exists_path_lt hstart hw
    exact Nat.lt_of_le_of_lt (hleast hw') hk
  · rw [hg.reachable_of_notMem hstart] at hp
    cases hp

theorem Mirrored.sorted_depths (hg : g.Consistent) (h : g.Mirrored) (generations : Generations) :
    (g.reachable start direction generations).Pairwise fun p q => p.depth ≤ q.depth := by
  by_cases hstart : start ∈ g.nodeIds
  · obtain ⟨i, hi⟩ := hg.positions.exists_iff_mem.2 hstart
    exact h.sorted_reachable hg hi
  · rw [hg.reachable_of_notMem hstart]
    exact List.Pairwise.nil

/-- **What a bounded search finds comes first** in what the unbounded one finds. -/
theorem Mirrored.bounded_front (hg : g.Consistent) (h : g.Mirrored) (k : ℕ) :
    g.reachable start direction (.bounded k) <+: g.reachable start direction .unbounded := by
  rw [h.reachable_bounded_eq hg]
  exact filter_le_front k (h.sorted_depths hg _)

/-- **With a greater bound more is found**, at the end. -/
theorem Mirrored.bounded_mono (hg : g.Consistent) (h : g.Mirrored) {j k : ℕ} (hjk : j ≤ k) :
    g.reachable start direction (.bounded j) <+: g.reachable start direction (.bounded k) := by
  have hnested : g.reachable start direction (.bounded j) =
      (g.reachable start direction (.bounded k)).filter (·.depth ≤ j) := by
    rw [h.reachable_bounded_eq hg, h.reachable_bounded_eq hg, List.filter_filter]
    refine List.filter_congr fun p _ => ?_
    rw [← Bool.decide_and]
    exact decide_eq_decide.2 ⟨fun hp => ⟨hp, hp.trans hjk⟩, And.left⟩
  rw [hnested]
  exact filter_le_front j (h.sorted_depths hg _)

/-- What is found first is among what is found. -/
theorem mem_reachableIds_of_front {generations generations' : Generations} {v : String}
    (hfront : g.reachable start direction generations <+: g.reachable start direction generations')
    (hv : v ∈ g.reachableIds start direction generations) :
    v ∈ g.reachableIds start direction generations' := by
  rw [reachableIds, Std.TreeSet.mem_ofList, List.contains_iff_mem, List.mem_map] at hv ⊢
  obtain ⟨p, hp, rfl⟩ := hv
  exact ⟨p, hfront.subset hp, rfl⟩

/-- **Bounded searches are front parts of the unbounded one.** Whatever the start and the direction,
a search up to `k` generations finds just what the unbounded search finds at depths up to `k`, in
the same order, and this comes first there. So with the bound what is found grows, at its end, and
with a bound of one less than the number of nodes or more all is found. -/
theorem reachable_bounded (nodes : List Node) (edges : List Edge) (start : String)
    (direction : Direction) :
    let g := ofParts nodes edges
    let all := g.reachable start direction .unbounded
    let upTo := fun k => g.reachable start direction (.bounded k)
    (∀ k, upTo k = all.filter (·.depth ≤ k) ∧ upTo k <+: all) ∧
    (∀ j k, j ≤ k → upTo j <+: upTo k ∧
      ∀ v ∈ g.reachableIds start direction (.bounded j),
        v ∈ g.reachableIds start direction (.bounded k)) ∧
    ∀ k, g.nodes.size - 1 ≤ k → upTo k = all := by
  intro g all upTo
  have hg : g.Consistent := consistent_ofParts nodes edges
  have h : g.Mirrored := mirrored_ofParts nodes edges
  have hfilter : ∀ k, upTo k = all.filter (·.depth ≤ k) := h.reachable_bounded_eq hg
  refine ⟨?_, ?_, ?_⟩
  · intro k
    exact ⟨hfilter k, h.bounded_front hg k⟩
  · intro j k hjk
    have hfront : upTo j <+: upTo k := h.bounded_mono hg hjk
    exact ⟨hfront, fun _ hv => mem_reachableIds_of_front hfront hv⟩
  · intro k hk
    rw [hfilter, List.filter_eq_self]
    intro p hp
    have hlt := h.depth_lt hg hp
    rw [decide_eq_true_eq]
    omega

end Graph

end DataLineage
