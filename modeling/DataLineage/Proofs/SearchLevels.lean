import DataLineage.Proofs.BoundedSearches
import DataLineage.Proofs.DistinctElements

/-!
# The order of a search, level by level

A search takes nodes from a queue and marks a node when an edge first leads to it. Level by level the
same order comes out: through the nodes of a level in order, and at each through its edges from the
newest to the oldest, those are next that are on no level yet, each where it first comes.

* `Reach.enqueue_snd`, `Reach.enqueue_append`: what joins the queue, in closed form.
* `Reach.search_level`: a search that has a level before it takes the level, and has the next.
* `Graph.Queued.next`: the queue at the start of a level and the levels by id go on together.
* `Graph.reachable_level_by_level`: the statement.
-/

namespace DataLineage

namespace Reach

variable {next : ℕ → List ℕ} {generations : Generations} {seen : Array Bool} {vs ws : List ℕ}
  {d : ℕ}

/-- **What joins the queue** are the unseen ones, each where it first comes. -/
theorem enqueue_snd (seen : Array Bool) (vs : List ℕ) :
    (enqueue seen vs).2 = (vs.filter fun v => seen[v]? = some false).eraseDups := by
  induction vs generalizing seen with
  | nil => simp [enqueue]
  | cons v rest ih =>
    unfold enqueue
    split
    next hv =>
      have hmark : ∀ w, (seen.setIfInBounds v true)[w]? = some false ↔
          w ≠ v ∧ seen[w]? = some false := by
        intro w
        rw [getElem?_mark hv]
        by_cases hvw : v = w
        · simp [hvw]
        · simp [hvw, Ne.symm hvw]
      change v :: (enqueue (seen.setIfInBounds v true) rest).2 = _
      rw [ih, List.filter_cons_of_pos (by simpa using hv), List.eraseDups_cons, List.filter_filter]
      simp only [hmark, Bool.decide_and, decide_not]
      rfl
    next hv => rw [List.filter_cons_of_neg (by simpa using hv), ih]

/-- What a second list adds, it adds behind the first. -/
theorem enqueue_append (seen : Array Bool) (vs ws : List ℕ) :
    enqueue seen (vs ++ ws) = ((enqueue (enqueue seen vs).1 ws).1,
      (enqueue seen vs).2 ++ (enqueue (enqueue seen vs).1 ws).2) := by
  induction vs generalizing seen with
  | nil => rfl
  | cons v rest ih =>
    rw [List.cons_append, enqueue, enqueue]
    split
    next => rw [ih]; rfl
    next => exact ih seen

/-- A search takes the level before it. What is next joins behind those of the next level that wait
there already. -/
theorem search_level_append (hd : generations.allowsFrom d) (seen : Array Bool) (vs ws : List ℕ) :
    search next generations seen (vs.map (·, d) ++ ws.map (·, d + 1)) =
      vs.map (·, d) ++ search next generations (enqueue seen (vs.flatMap next)).1
        ((ws ++ (enqueue seen (vs.flatMap next)).2).map (·, d + 1)) := by
  induction vs generalizing seen ws with
  | nil => simp [enqueue]
  | cons v rest ih =>
    rw [List.map_cons, List.cons_append, search, if_pos hd, List.append_assoc, ← List.map_append,
      ih, List.flatMap_cons, enqueue_append, List.append_assoc, List.cons_append]

/-- **A search takes the level before it, and has the next.** -/
theorem search_level (hd : generations.allowsFrom d) (seen : Array Bool) (vs : List ℕ) :
    search next generations seen (vs.map (·, d)) =
      vs.map (·, d) ++ search next generations (enqueue seen (vs.flatMap next)).1
        ((enqueue seen (vs.flatMap next)).2.map (·, d + 1)) := by
  have htake : search next generations seen (vs.map (·, d) ++ [].map (·, d + 1)) = _ :=
    search_level_append hd seen vs []
  rwa [List.map_nil, List.append_nil, List.nil_append] at htake

/-- At the bound a search takes the level before it, and ends. -/
theorem search_last_level (hd : ¬ generations.allowsFrom d) :
    search next generations seen (vs.map (·, d)) = vs.map (·, d) := by
  cases generations with
  | unbounded => exact absurd rfl hd
  | bounded k =>
    refine search_bounded_of_le (k := k) ?_
    intro p hp
    obtain ⟨v, -, rfl⟩ := List.mem_map.1 hp
    exact Nat.not_lt.1 fun hlt => hd ((Generations.allowsFrom_iff k d).2 hlt)

end Reach

namespace Graph

variable {g : Graph} {start : String} {direction : Direction} {generations : Generations}
  {before here : List String} {seen : Array Bool} {vs : List ℕ} {i d : ℕ}

/-! ## Levels -/

/-- The far ends of a node's edges, from the newest edge to the oldest. -/
def farEnds (g : Graph) (direction : Direction) (a : String) : List String :=
  (g.edges.toList.reverse.filter fun e => e.near direction = a).map (Edge.far direction)

/-- The level that comes next: through the level in order, those met for the first time. -/
def nextLevel (g : Graph) (direction : Direction) (met here : List String) : List String :=
  ((here.flatMap (g.farEnds direction)).filter fun b => b ∉ met).eraseDups

/-- What is on the levels before this one, and what is on it. -/
def levels (g : Graph) (start : String) (direction : Direction) (generations : Generations) :
    ℕ → List String × List String
  | 0 => ([], if start ∈ g.nodeIds then [start] else [])
  | d + 1 =>
    let (before, level) := g.levels start direction generations d
    (before ++ level,
      if generations.allowsFrom d then g.nextLevel direction (before ++ level) level else [])

/-- The nodes on a level of a search, in order. -/
def level (g : Graph) (start : String) (direction : Direction) (generations : Generations)
    (d : ℕ) : List String :=
  (g.levels start direction generations d).2

/-- What was met before a level is what is on the levels before it. -/
theorem mem_levels_fst {b : String} :
    b ∈ (g.levels start direction generations d).1 ↔
      ∃ c < d, b ∈ g.level start direction generations c := by
  induction d with
  | zero => simp [levels]
  | succ d ih =>
    have hstep : (g.levels start direction generations (d + 1)).1 =
        (g.levels start direction generations d).1 ++ g.level start direction generations d := rfl
    rw [hstep, List.mem_append, ih]
    constructor
    · rintro (⟨c, hc, hb⟩ | hb)
      · exact ⟨c, Nat.lt_succ_of_lt hc, hb⟩
      · exact ⟨d, Nat.lt_succ_self d, hb⟩
    · rintro ⟨c, hc, hb⟩
      rcases Nat.lt_succ_iff_lt_or_eq.1 hc with hc | rfl
      · exact .inl ⟨c, hc, hb⟩
      · exact .inr hb

/-- A level by those up to the one before it. -/
theorem level_succ : g.level start direction generations (d + 1) =
    if generations.allowsFrom d then
      (((g.level start direction generations d).flatMap (g.farEnds direction)).filter fun b =>
        ∀ c ≤ d, b ∉ g.level start direction generations c).eraseDups
    else [] := by
  have hmet : ∀ b, b ∉ (g.levels start direction generations (d + 1)).1 ↔
      ∀ c ≤ d, b ∉ g.level start direction generations c := by
    intro b
    simp only [mem_levels_fst, Nat.lt_succ_iff, not_exists, not_and]
  simp only [← hmet]
  rfl

/-! ## Levels by position -/

/-- The neighbour list of a node, told by ids. -/
theorem Mirrored.ids_neighbours (hg : g.Consistent) (h : g.Mirrored) (hi : i < g.nodes.size) :
    (g.neighbours direction i).map g.idAt = g.farEnds direction (g.idAt i) := by
  have hid : g.nodeIds[i]? = some (g.idAt i) := hg.positionOf?_eq_some.1 (hg.positionOf?_idAt hi)
  have hnear : ∀ e : Edge,
      g.positionOf? (e.near direction) = some i ↔ e.near direction = g.idAt i := by
    intro e
    rw [hg.positionOf?_eq_some, hid, Option.some_inj, eq_comm]
  have hfar : ∀ e ∈ g.edges.toList,
      (g.positionOf? (e.far direction)).map g.idAt = some (e.far direction) := by
    intro e he
    obtain ⟨s, t, hs, ht⟩ := hg.exists_positions (Array.mem_toList_iff.1 he)
    cases direction with
    | ancestors => rw [Edge.far, hs, Option.map_some, hg.idAt_eq hs]
    | descendants => rw [Edge.far, ht, Option.map_some, hg.idAt_eq ht]
  rw [h.rows, farPositions, farEnds, List.map_reverse, List.filter_reverse, List.map_reverse,
    List.map_filterMap]
  simp only [hnear]
  rw [← List.filterMap_eq_map]
  congr 1
  exact List.filterMap_congr fun e he => hfar e (List.mem_of_mem_filter he)

/-- **A level before the search**: the queue holds the level, and the marks are on it and on what is
on the levels before it. -/
structure Queued (g : Graph) (before here : List String) (seen : Array Bool) (vs : List ℕ) :
    Prop where
  lt : ∀ v ∈ vs, v < g.nodes.size
  ids : vs.map g.idAt = here
  size : seen.size = g.nodes.size
  seen : ∀ v < g.nodes.size, seen[v]? = some true ↔ g.idAt v ∈ before ++ here

/-- At the start the queue holds the start. -/
theorem Consistent.queued_start (hg : g.Consistent) (hi : g.positionOf? start = some i) :
    Queued g [] [start] (Reach.Progress.init g.nodes.size i).seen [i] := by
  have hlt : i < g.nodes.size := hg.positionOf?_lt hi
  have hmark : (Array.replicate g.nodes.size false)[i]? = some false := by
    rw [Array.getElem?_replicate, if_pos hlt]
  refine ⟨by simpa using hlt, by simp [hg.idAt_eq hi], by simp [Reach.Progress.init], ?_⟩
  intro v hv
  rw [Reach.Progress.init, Reach.getElem?_mark hmark, List.nil_append, List.mem_singleton]
  split
  next hiv => simp [← hiv, hg.idAt_eq hi]
  next hiv =>
    have hne : g.idAt v ≠ start := by
      intro hid
      rw [← hg.idAt_eq hi] at hid
      exact hiv (hg.idAt_inj hlt hv hid.symm)
    simp [hne, hv]

/-- What is not marked yet was not met yet. -/
theorem Queued.unseen (h : Queued g before here seen vs) {v : ℕ} (hv : v < g.nodes.size) :
    seen[v]? = some false ↔ g.idAt v ∉ before ++ here := by
  have hlt : v < seen.size := h.size.symm ▸ hv
  rw [← h.seen v hv, Array.getElem?_eq_getElem hlt]
  simp

/-- By id, those join the queue that were not met yet, each where it first comes. -/
theorem Queued.ids_enqueue (hg : g.Consistent) (h : Queued g before here seen vs) {ws : List ℕ}
    (hws : ∀ w ∈ ws, w < g.nodes.size) : (Reach.enqueue seen ws).2.map g.idAt =
      ((ws.map g.idAt).filter fun b => b ∉ before ++ here).eraseDups := by
  have hunseen : ws.filter (fun w => seen[w]? = some false) =
      ws.filter ((fun b => decide (b ∉ before ++ here)) ∘ g.idAt) :=
    List.filter_congr fun w hw => decide_eq_decide.2 (h.unseen (hws w hw))
  rw [Reach.enqueue_snd, hunseen, List.filter_map]
  refine (eraseDups_map ?_).symm
  intro v hv w hw hid
  exact hg.idAt_inj (hws v (List.mem_of_mem_filter hv)) (hws w (List.mem_of_mem_filter hw)) hid

/-- **Queue and levels go on together.** -/
theorem Queued.next (hg : g.Consistent) (hm : g.Mirrored) (h : Queued g before here seen vs) :
    Queued g (before ++ here) (g.nextLevel direction (before ++ here) here)
      (Reach.enqueue seen (vs.flatMap (g.neighbours direction))).1
      (Reach.enqueue seen (vs.flatMap (g.neighbours direction))).2 := by
  set next := vs.flatMap (g.neighbours direction)
  have hnext : ∀ w ∈ next, w < g.nodes.size := by
    intro w hw
    obtain ⟨v, -, hw⟩ := List.mem_flatMap.1 hw
    exact hm.neighbour_lt hg hw
  have hlt : ∀ w ∈ (Reach.enqueue seen next).2, w < g.nodes.size := fun w hw =>
    hnext w (Reach.mem_enqueue.1 hw).1
  have hends : next.map g.idAt = here.flatMap (g.farEnds direction) := by
    rw [← h.ids, List.map_flatMap, List.flatMap_map]
    exact List.flatMap_congr fun v hv => hm.ids_neighbours hg (h.lt v hv)
  have hids : (Reach.enqueue seen next).2.map g.idAt =
      g.nextLevel direction (before ++ here) here := by
    rw [h.ids_enqueue hg hnext, hends, nextLevel]
  refine ⟨hlt, hids, (Reach.size_enqueue _ _).trans h.size, ?_⟩
  intro v hv
  rw [Reach.seen_enqueue, h.seen v hv, ← hids]
  -- what joins the queue is told by its ids
  refine Iff.trans (or_congr_right ⟨List.mem_map_of_mem, ?_⟩) List.mem_append.symm
  intro hmem
  obtain ⟨w, hw, hwv⟩ := List.mem_map.1 hmem
  rwa [← hg.idAt_inj (hlt w hw) hv hwv]

/-- **A search takes the level and has the next**, which is empty at the bound. -/
theorem Queued.exists_next (hg : g.Consistent) (hm : g.Mirrored)
    (h : Queued g before here seen vs) (generations : Generations) (d : ℕ) : ∃ seen' vs',
      Queued g (before ++ here)
        (if generations.allowsFrom d then g.nextLevel direction (before ++ here) here else [])
        seen' vs' ∧
      Reach.search (g.neighbours direction) generations seen (vs.map (·, d)) =
        vs.map (·, d) ++
          Reach.search (g.neighbours direction) generations seen' (vs'.map (·, d + 1)) := by
  by_cases hd : generations.allowsFrom d
  · rw [if_pos hd]
    exact ⟨_, _, h.next hg hm, Reach.search_level hd seen vs⟩
  · rw [if_neg hd]
    refine ⟨seen, [], ⟨by simp, rfl, h.size, ?_⟩, ?_⟩
    · intro v hv
      rw [List.append_nil, h.seen v hv]
    · rw [Reach.search_last_level hd, List.map_nil, Reach.search, List.append_nil]

/-- What a search from a node does on the way to a level: it takes the levels before it, and then
has the level in its queue. -/
theorem Mirrored.exists_level (hg : g.Consistent) (h : g.Mirrored)
    (hi : g.positionOf? start = some i) (direction : Direction) (generations : Generations)
    (n : ℕ) : ∃ seen vs,
      Queued g (g.levels start direction generations n).1
        (g.level start direction generations n) seen vs ∧
      g.reachable start direction generations =
        ((List.range n).flatMap fun d =>
          (g.level start direction generations d).map (⟨·, d⟩)) ++
        (Reach.search (g.neighbours direction) generations seen (vs.map (·, n))).map
          g.reachedAt := by
  induction n with
  | zero =>
    have hstart : start ∈ g.nodeIds := hg.positions.exists_iff_mem.1 ⟨i, hi⟩
    have hlevel : g.level start direction generations 0 = [start] := if_pos hstart
    refine ⟨_, [i], ?_, h.reachable_eq hg hi⟩
    rw [hlevel]
    exact hg.queued_start hi
  | succ n ih =>
    obtain ⟨seen, vs, hstep, hfound⟩ := ih
    obtain ⟨seen', vs', hstep', htake⟩ := hstep.exists_next hg h generations n
    have hlevel : (vs.map (·, n)).map g.reachedAt =
        (g.level start direction generations n).map (⟨·, n⟩) := by
      rw [← hstep.ids, List.map_map, List.map_map]
      rfl
    refine ⟨seen', vs', hstep', ?_⟩
    rw [hfound, htake, List.map_append, hlevel, List.range_succ, List.flatMap_append,
      List.flatMap_singleton, List.append_assoc]

/-- Levels as deep as the graph has nodes are empty. -/
theorem Mirrored.level_eq_nil (hg : g.Consistent) (h : g.Mirrored)
    (hi : g.positionOf? start = some i) {n : ℕ} (hn : g.nodes.size ≤ n) :
    g.level start direction generations n = [] := by
  refine List.eq_nil_iff_forall_not_mem.2 fun b hb => ?_
  obtain ⟨_, _, _, hfound⟩ := h.exists_level hg hi direction generations (n + 1)
  have hmem : (⟨b, n⟩ : Reached) ∈ g.reachable start direction generations := by
    rw [hfound]
    refine List.mem_append_left _ (List.mem_flatMap.2 ⟨n, List.self_mem_range_succ, ?_⟩)
    exact List.mem_map.2 ⟨b, hb, rfl⟩
  exact absurd (h.depth_lt hg hmem) (Nat.not_lt.2 hn)

/-- A search from a node goes through the levels in order. -/
theorem Mirrored.reachable_eq_levels (hg : g.Consistent) (h : g.Mirrored)
    (hi : g.positionOf? start = some i) :
    g.reachable start direction generations = (List.range g.nodes.size).flatMap fun d =>
      (g.level start direction generations d).map (⟨·, d⟩) := by
  obtain ⟨seen, vs, hstep, hfound⟩ := h.exists_level hg hi direction generations g.nodes.size
  have hvs : vs = [] := List.map_eq_nil_iff.1 (hstep.ids.trans (h.level_eq_nil hg hi le_rfl))
  rw [hfound, hvs, List.map_nil, Reach.search, List.map_nil, List.append_nil]

/-- From an unknown start all levels are empty. -/
theorem level_of_notMem (hstart : start ∉ g.nodeIds) (d : ℕ) :
    g.level start direction generations d = [] := by
  induction d with
  | zero => exact if_neg hstart
  | succ d ih => rw [level_succ, ih]; simp

/-- **Searches go level by level.** On level zero there is the start, if it is a node. If the bound
lets a search go on from depth `d`, level `d + 1` has what comes when one goes through level `d` in
order, and for each node through its edges in the direction from the newest to the oldest, and takes
each far end that is on no level yet; otherwise nothing. No level is as deep as the graph has nodes,
and a search finds the levels one after another, each node at the depth of its level. -/
theorem reachable_level_by_level (nodes : List Node) (edges : List Edge) (start : String)
    (direction : Direction) (generations : Generations) :
    let g := ofParts nodes edges
    let level := g.level start direction generations
    level 0 = (if start ∈ g.nodeIds then [start] else []) ∧
    (∀ d, level (d + 1) =
      if generations.allowsFrom d then
        (((level d).flatMap (g.farEnds direction)).filter fun b =>
          ∀ c ≤ d, b ∉ level c).eraseDups
      else []) ∧
    (∀ d, g.nodes.size ≤ d → level d = []) ∧
    g.reachable start direction generations =
      (List.range g.nodes.size).flatMap fun d => (level d).map (⟨·, d⟩) := by
  intro g level
  have hg : g.Consistent := consistent_ofParts nodes edges
  have h : g.Mirrored := mirrored_ofParts nodes edges
  refine ⟨rfl, fun d => level_succ, ?_⟩
  by_cases hstart : start ∈ g.nodeIds
  · obtain ⟨i, hi⟩ := hg.positions.exists_iff_mem.2 hstart
    exact ⟨fun d hd => h.level_eq_nil hg hi hd, h.reachable_eq_levels hg hi⟩
  · have hlevel : ∀ d, level d = [] := level_of_notMem hstart
    refine ⟨fun d _ => hlevel d, ?_⟩
    rw [hg.reachable_of_notMem hstart]
    simp [hlevel]

/-- A second edge to `b` puts it before `c`, though the first edge to it is older. An edge from a node
to itself leads nowhere new, and `d` comes once. -/
example :
    let node := fun id => Node.mk id .model id
    let edge := fun a b => Edge.mk "" a b .explicit
    (ofParts [node "a", node "b", node "c", node "d"] [edge "a" "b", edge "a" "c", edge "a" "b",
        edge "b" "d", edge "c" "d", edge "a" "a"]).reachable "a" .descendants .unbounded =
      [⟨"a", 0⟩, ⟨"b", 1⟩, ⟨"c", 1⟩, ⟨"d", 2⟩] := by
  decide +kernel

end Graph

end DataLineage
