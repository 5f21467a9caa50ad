import DataLineage.Placement.Ranks
import DataLineage.Proofs.Walk
import Mathlib.Data.List.Induction
import Mathlib.Data.List.Nodup
import Mathlib.Data.List.Perm.Subperm
import Mathlib.Order.Bounds.Basic

/-!
# Ranks are longest paths

What a run of the ranking keeps, for a list of edges between `n` nodes without cycles. The edges
still to be followed are counted: a node waits for as many as lead to it, and it joins the queue
when there are none left. So every node leaves the queue, once and after all its predecessors.

* `Ranking.Inv.relax`: following an edge keeps the invariant.
* `Ranking.inv_run`: a run keeps it.
* `Ranking.settled_run`: after as many steps as there are nodes each has left the queue once.
* `Ranking.waiting_pos`: no counter goes below zero.
* `Adjacency.isGreatest_ranks`: a rank is the length of the longest path into its node.
-/

namespace DataLineage

variable {n v : ℕ} {edges todo : List (ℕ × ℕ)}

/-- One of the edges leads from `u` to `v`. -/
def Links (edges : List (ℕ × ℕ)) (u v : ℕ) : Prop := (u, v) ∈ edges

/-! ## Neighbours in the order of the edges -/

theorem Adjacency.rows_ofEdges (hv : v < n) (edges : List (ℕ × ℕ)) :
    (Adjacency.ofEdges n edges).successors[v]? =
        some ((edges.filter fun e => e.1 = v).map Prod.snd) ∧
      (Adjacency.ofEdges n edges).predecessors[v]? =
        some ((edges.filter fun e => e.2 = v).map Prod.fst) := by
  induction edges using List.reverseRecOn with
  | nil => simp [ofEdges, hv]
  | append_singleton edges e ih =>
    obtain ⟨h₁, h₂⟩ := ih
    unfold ofEdges at h₁ h₂ ⊢
    simp only [List.foldl_append, List.foldl_cons, List.foldl_nil, Array.getElem?_modify, h₁, h₂,
      List.filter_append, List.map_append]
    constructor
    · by_cases he : e.1 = v <;> simp [he]
    · by_cases he : e.2 = v <;> simp [he]

theorem Adjacency.after_ofEdges (hv : v < n) (edges : List (ℕ × ℕ)) :
    (Adjacency.ofEdges n edges).after v = (edges.filter fun e => e.1 = v).map Prod.snd := by
  rw [after, (rows_ofEdges hv edges).1, Option.getD_some]

theorem Adjacency.before_ofEdges (hv : v < n) (edges : List (ℕ × ℕ)) :
    (Adjacency.ofEdges n edges).before v = (edges.filter fun e => e.2 = v).map Prod.fst := by
  rw [before, (rows_ofEdges hv edges).2, Option.getD_some]

theorem Adjacency.sizes_ofEdges (n : ℕ) (edges : List (ℕ × ℕ)) :
    (Adjacency.ofEdges n edges).successors.size = n ∧
      (Adjacency.ofEdges n edges).predecessors.size = n := by
  induction edges using List.reverseRecOn with
  | nil => simp [ofEdges]
  | append_singleton edges e ih => simpa [ofEdges] using ih

namespace Ranking

/-- The number of edges of a list that lead to a node. -/
def pending (todo : List (ℕ × ℕ)) (v : ℕ) : ℕ := todo.countP fun e => e.2 = v

/-- **The invariant of the ranking**, for the edges still to be followed. -/
structure Inv (n : ℕ) (edges todo : List (ℕ × ℕ)) (s : Ranking) : Prop where
  size_waiting : s.waiting.size = n
  size_ranks : s.ranks.size = n
  nodup : (s.queue ++ s.settled).Nodup
  lt : ∀ v ∈ s.queue ++ s.settled, v < n
  waiting : ∀ v < n, s.waiting[v]? = some (pending todo v : ℤ)
  /-- A node joins the queue when no edge to it is left to follow. -/
  ready : ∀ v < n, v ∈ s.queue ++ s.settled ↔ pending todo v = 0
  /-- An edge is followed when its source has left the queue. -/
  source : ∀ e ∈ edges, e ∉ todo → e.1 ∈ s.settled
  /-- Each rank is the length of a path into the node. -/
  path : ∀ (v r : ℕ), s.ranks[v]? = some r → ∃ u, Walk (Links edges) u v r
  /-- Followed edges lead to higher ranks. -/
  rises : ∀ e ∈ edges, e ∉ todo → ∀ r r' : ℕ, s.ranks[e.1]? = some r → s.ranks[e.2]? = some r' →
    r < r'

variable {s : Ranking}

theorem pending_cons (e : ℕ × ℕ) (todo : List (ℕ × ℕ)) (v : ℕ) :
    pending (e :: todo) v = pending todo v + if e.2 = v then 1 else 0 := by
  simp [pending, List.countP_cons]

theorem pending_eq_zero : pending todo v = 0 ↔ ∀ e ∈ todo, e.2 ≠ v := by
  simp [pending, List.countP_eq_zero]

/-- The order in which the edges are to be followed does not matter. -/
theorem Inv.perm (h : Inv n edges todo s) {todo' : List (ℕ × ℕ)} (hp : todo.Perm todo') :
    Inv n edges todo' s := by
  have hpending : ∀ v, pending todo' v = pending todo v := fun v => (hp.countP_eq _).symm
  refine ⟨h.size_waiting, h.size_ranks, h.nodup, h.lt, fun v hv => ?_, fun v hv => ?_,
    fun e he hnot => h.source e he (hp.mem_iff.not.2 hnot), h.path,
    fun e he hnot => h.rises e he (hp.mem_iff.not.2 hnot)⟩
  · rw [hpending]; exact h.waiting v hv
  · rw [hpending]; exact h.ready v hv

/-- The target of an edge still to be followed has not joined the queue, and waits for something. -/
theorem Inv.target (h : Inv n edges ((v, w) :: todo) s) (hw : w < n) :
    w ∉ s.queue ++ s.settled ∧ ∃ k : ℤ, s.waiting[w]? = some k ∧ 0 < k := by
  have hpos : pending ((v, w) :: todo) w = pending todo w + 1 := by simp [pending_cons]
  constructor
  · rw [h.ready w hw, hpos]; omega
  · exact ⟨_, h.waiting w hw, by rw [hpos]; omega⟩

/-! ## Following one edge -/

theorem ranks_relax (r : ℕ) (s : Ranking) (w u : ℕ) :
    (relax r s w).ranks[u]? =
      if w = u then s.ranks[u]?.map (max · (r + 1)) else s.ranks[u]? := by
  rw [relax, Array.getElem?_modify]

theorem Inv.waiting_relax {w : ℕ} (h : Inv n edges ((v, w) :: todo) s) (r : ℕ) :
    ∀ u < n, (Ranking.relax r s w).waiting[u]? = some (pending todo u : ℤ) := by
  intro u hu
  rw [Ranking.relax, Array.getElem?_modify, h.waiting u hu, pending_cons]
  split <;> simp

/-- The target joins the queue when it was the last edge to it. -/
theorem Inv.queue_relax {w : ℕ} (h : Inv n edges ((v, w) :: todo) s) (hw : w < n) (r : ℕ) :
    (Ranking.relax r s w).queue = if pending todo w = 0 then s.queue ++ [w] else s.queue := by
  have hwait : (s.waiting.modify w (· - 1))[w]? = some (pending todo w : ℤ) := h.waiting_relax r w hw
  simp only [Ranking.relax, hwait, Option.some.injEq, Int.natCast_eq_zero]

/-- Other nodes than the target keep their ranks, and the target's does not fall. -/
theorem le_of_ranks_relax {r w u m m' : ℕ} (hm : s.ranks[u]? = some m)
    (hm' : (relax r s w).ranks[u]? = some m') : m ≤ m' := by
  rw [ranks_relax, hm] at hm'
  split at hm'
  next =>
    obtain rfl : max m (r + 1) = m' := Option.some.inj hm'
    exact le_max_left m (r + 1)
  next => exact le_of_eq (Option.some.inj hm')

theorem lt_of_ranks_relax {r w m : ℕ} (hm : (relax r s w).ranks[w]? = some m) : r < m := by
  rw [ranks_relax, if_pos rfl] at hm
  obtain ⟨x, -, rfl⟩ := Option.map_eq_some_iff.1 hm
  have := le_max_right x (r + 1)
  omega

/-- **Following an edge keeps the invariant.** -/
theorem Inv.relax {v w r : ℕ} (h : Inv n edges ((v, w) :: todo) s) (hvw : (v, w) ∈ edges)
    (hw : w < n) (hv : v ∈ s.settled) (hr : s.ranks[v]? = some r) :
    Inv n edges todo (relax r s w) ∧ (relax r s w).settled = s.settled ∧
      (relax r s w).ranks[v]? = some r := by
  obtain ⟨hnot, -⟩ := h.target hw
  have hqueue := h.queue_relax hw r
  have hsettled : (Ranking.relax r s w).settled = s.settled := rfl
  -- nodes that have left the queue keep their ranks
  have hkeep : ∀ u ∈ s.settled, (Ranking.relax r s w).ranks[u]? = s.ranks[u]? := by
    intro u hu
    rw [ranks_relax, if_neg]
    rintro rfl
    exact hnot (List.mem_append_right _ hu)
  have hmem : ∀ u, u ∈ (Ranking.relax r s w).queue ++ (Ranking.relax r s w).settled ↔
      u ∈ s.queue ++ s.settled ∨ u = w ∧ pending todo w = 0 := by
    intro u
    rw [hqueue, hsettled]
    by_cases h0 : pending todo w = 0
    · simp only [h0, if_true, List.append_assoc, List.mem_append, List.mem_singleton, and_true]
      tauto
    · simp [h0]
  have hsource : ∀ e ∈ edges, e ∉ todo → e.1 ∈ s.settled := by
    intro e he hdone
    by_cases hevw : e = (v, w)
    · rw [hevw]; exact hv
    · exact h.source e he (by simp [hevw, hdone])
  refine ⟨⟨?size_waiting, ?size_ranks, ?nodup, ?lt, h.waiting_relax r, ?ready, hsource, ?path,
    ?rises⟩, hsettled, (hkeep v hv).trans hr⟩
  case size_waiting => simpa [Ranking.relax] using h.size_waiting
  case size_ranks => simpa [Ranking.relax] using h.size_ranks
  case nodup =>
    rw [hqueue, hsettled]
    split
    · rw [List.append_assoc, List.singleton_append]
      exact List.perm_middle.nodup_iff.2 (List.nodup_cons.2 ⟨hnot, h.nodup⟩)
    · exact h.nodup
  case lt =>
    intro u hu
    rcases (hmem u).1 hu with hu | ⟨rfl, -⟩
    · exact h.lt u hu
    · exact hw
  case ready =>
    intro u hu
    rw [hmem u, h.ready u hu, pending_cons]
    by_cases huw : u = w
    · subst huw; simp
    · simp [huw, Ne.symm huw]
  case path =>
    intro u m hm
    rw [ranks_relax] at hm
    split at hm
    next hwu =>
      subst hwu
      obtain ⟨m', hm', rfl⟩ := Option.map_eq_some_iff.1 hm
      -- the rank is the old one, or one more than the source has
      rcases max_choice m' (r + 1) with hmax | hmax <;> rw [hmax]
      · exact h.path w m' hm'
      · obtain ⟨x, hx⟩ := h.path v r hr
        exact ⟨x, hx.snoc hvw⟩
    next => exact h.path u m hm
  case rises =>
    intro e he hdone m m' hm hm'
    -- the source of a followed edge keeps its rank, its target can only rise
    rw [hkeep _ (hsource e he hdone)] at hm
    by_cases hevw : e = (v, w)
    · subst hevw
      obtain rfl : r = m := Option.some.inj (hr.symm.trans hm)
      exact lt_of_ranks_relax hm'
    · have hsize : e.2 < s.ranks.size := by
        have := (Array.getElem?_eq_some_iff.1 hm').1
        simpa [Ranking.relax] using this
      have hold := Array.getElem?_eq_getElem hsize
      have hlt := h.rises e he (by simp [hevw, hdone]) m _ hm hold
      exact lt_of_lt_of_le hlt (le_of_ranks_relax hold hm')

/-- Following some edges out of one node keeps the invariant. -/
theorem Inv.foldl_relax {v r : ℕ} (targets : List ℕ) :
    ∀ {s : Ranking}, Inv n edges (targets.map (Prod.mk v) ++ todo) s →
      (∀ w ∈ targets, (v, w) ∈ edges ∧ w < n) → v ∈ s.settled → s.ranks[v]? = some r →
      Inv n edges todo (targets.foldl (Ranking.relax r) s) ∧
        (targets.foldl (Ranking.relax r) s).settled = s.settled := by
  induction targets with
  | nil => exact fun h _ _ _ => ⟨h, rfl⟩
  | cons w targets ih =>
    intro s h htargets hv hr
    obtain ⟨hvw, hw⟩ := htargets w List.mem_cons_self
    obtain ⟨h', hset, hr'⟩ := h.relax hvw hw hv hr
    obtain ⟨h₁, h₂⟩ := ih h' (fun x hx => htargets x (List.mem_cons_of_mem _ hx))
      (by rw [hset]; exact hv) hr'
    exact ⟨h₁, h₂.trans hset⟩

/-! ## Runs -/

/-- The edges out of nodes that have not left the queue. -/
def unfollowed (edges : List (ℕ × ℕ)) (settled : List ℕ) : List (ℕ × ℕ) :=
  edges.filter fun e => e.1 ∉ settled

/-- When a node leaves the queue, the edges out of it come first. -/
theorem unfollowed_perm {settled : List ℕ} (hv : v ∉ settled) :
    (unfollowed edges settled).Perm
      ((edges.filter fun e => e.1 = v) ++ unfollowed edges (v :: settled)) := by
  refine (List.filter_append_perm (fun e => decide (e.1 = v)) _).symm.trans ?_
  unfold unfollowed
  rw [List.filter_filter, List.filter_filter]
  refine List.Perm.of_eq (congrArg₂ _ (List.filter_congr fun e _ => ?_)
    (List.filter_congr fun e _ => ?_))
  · by_cases he : e.1 = v <;> simp [he, hv]
  · by_cases he : e.1 = v <;> simp [he]

/-- The state in which the next node has left the queue, before the edges out of it are followed. -/
def leave (s : Ranking) (v : ℕ) (queue : List ℕ) : Ranking :=
  { s with queue, settled := v :: s.settled }

theorem Inv.leave {queue : List ℕ} (h : Inv n edges todo s) (hq : s.queue = v :: queue) :
    Inv n edges todo (leave s v queue) := by
  have hp : (s.queue ++ s.settled).Perm (queue ++ v :: s.settled) := by
    rw [hq]; exact List.perm_middle.symm
  exact ⟨h.size_waiting, h.size_ranks, hp.nodup_iff.1 h.nodup, fun u hu => h.lt u (hp.mem_iff.2 hu),
    h.waiting, fun u hu => hp.mem_iff.symm.trans (h.ready u hu),
    fun e he hnot => List.mem_cons_of_mem _ (h.source e he hnot), h.path, h.rises⟩

/-- A node that leaves the queue, with the edges out of it next to be followed. -/
theorem Inv.leave_perm {queue : List ℕ} (h : Inv n edges (unfollowed edges s.settled) s)
    (hq : s.queue = v :: queue) :
    Inv n edges ((((Adjacency.ofEdges n edges).after v).map (Prod.mk v)) ++
      unfollowed edges (v :: s.settled)) (Ranking.leave s v queue) := by
  have hv : v < n := h.lt v (by rw [hq]; simp)
  have hnot : v ∉ s.settled := by
    have hnd := h.nodup
    rw [hq, List.cons_append, List.nodup_cons] at hnd
    exact fun hm => hnd.1 (List.mem_append_right _ hm)
  refine (h.leave hq).perm ((unfollowed_perm hnot).trans (List.Perm.of_eq ?_))
  rw [Adjacency.after_ofEdges hv, List.map_map]
  congr 1
  refine (List.map_id _).symm.trans (List.map_congr_left fun e he => ?_)
  have : e.1 = v := by simpa using (List.mem_filter.1 he).2
  simp [← this]

/-- Edges out of a node of the graph lead to nodes of the graph. -/
theorem mem_after (hlt : ∀ e ∈ edges, e.1 < n ∧ e.2 < n) (hv : v < n) :
    ∀ w ∈ (Adjacency.ofEdges n edges).after v, (v, w) ∈ edges ∧ w < n := by
  intro w hw
  rw [Adjacency.after_ofEdges hv, List.mem_map] at hw
  obtain ⟨e, hew, rfl⟩ := hw
  obtain ⟨he, hev⟩ := List.mem_filter.1 hew
  obtain rfl : e.1 = v := by simpa using hev
  exact ⟨he, (hlt e he).2⟩

/-- **A step keeps the invariant**, and takes one node from a queue that is not empty. -/
theorem Inv.step {queue : List ℕ} (hlt : ∀ e ∈ edges, e.1 < n ∧ e.2 < n)
    (h : Inv n edges (unfollowed edges s.settled) s) (hq : s.queue = v :: queue) :
    Inv n edges (unfollowed edges (v :: s.settled)) (step (Adjacency.ofEdges n edges) s) ∧
      (step (Adjacency.ofEdges n edges) s).settled = v :: s.settled := by
  have hv : v < n := h.lt v (by rw [hq]; simp)
  obtain ⟨r, hr⟩ : ∃ r, s.ranks[v]? = some r :=
    ⟨_, Array.getElem?_eq_getElem (by rw [h.size_ranks]; exact hv)⟩
  have hstep : Ranking.step (Adjacency.ofEdges n edges) s =
      ((Adjacency.ofEdges n edges).after v).foldl (Ranking.relax r) (Ranking.leave s v queue) := by
    rw [Ranking.step, hq]
    simp only [hr, Option.getD_some]
    rfl
  rw [hstep]
  exact (h.leave_perm hq).foldl_relax _ (mem_after hlt hv) List.mem_cons_self hr

/-- At the start no edge is followed. -/
theorem inv_start (n : ℕ) (edges : List (ℕ × ℕ)) :
    Inv n edges (unfollowed edges []) (start (Adjacency.ofEdges n edges)) := by
  obtain ⟨hs, hp⟩ := Adjacency.sizes_ofEdges n edges
  have hall : unfollowed edges [] = edges := by simp [unfollowed]
  have hlen : ∀ v, ((edges.filter fun e => e.2 = v).map Prod.fst).length = pending edges v := by
    intro v
    rw [List.length_map, pending, List.countP_eq_length_filter]
  rw [hall]
  refine ⟨by simp [start, hp], by simp [start, hs], ?nodup, ?lt, ?waiting, ?ready,
    fun e he hnot => absurd he hnot, ?path, fun e he hnot => absurd he hnot⟩
  case nodup =>
    simpa [start, hs] using List.nodup_range.filter _
  case lt =>
    intro v hv
    simp only [start, hs, List.append_nil, List.mem_filter, List.mem_range] at hv
    exact hv.1
  case waiting =>
    intro v hv
    rw [start, Array.getElem?_map, (Adjacency.rows_ofEdges hv edges).2, Option.map_some, hlen]
  case ready =>
    intro v hv
    simp only [start, hs, List.append_nil, List.mem_filter, List.mem_range, hv, true_and]
    rw [Adjacency.before_ofEdges hv, ← hlen, List.isEmpty_iff, List.length_eq_zero_iff]
  case path =>
    intro v r hr
    simp only [start, Array.getElem?_replicate] at hr
    split at hr
    · cases hr; exact ⟨v, .nil v⟩
    · cases hr

/-- **A run keeps the invariant.** -/
theorem inv_run (hlt : ∀ e ∈ edges, e.1 < n ∧ e.2 < n) (k : ℕ) :
    Inv n edges (unfollowed edges (run (Adjacency.ofEdges n edges) k).settled)
      (run (Adjacency.ofEdges n edges) k) := by
  induction k with
  | zero => exact inv_start n edges
  | succ k ih =>
    rw [run]
    cases hq : (run (Adjacency.ofEdges n edges) k).queue with
    | nil =>
      rw [show Ranking.step (Adjacency.ofEdges n edges) (run (Adjacency.ofEdges n edges) k) =
        run (Adjacency.ofEdges n edges) k by rw [Ranking.step, hq]]
      exact ih
    | cons v queue =>
      obtain ⟨h₁, h₂⟩ := ih.step hlt hq
      rw [h₂]; exact h₁

/-! ## The end of a run -/

/-- A run stops only when every node has left the queue. -/
theorem Inv.mem_settled (hlt : ∀ e ∈ edges, e.1 < n ∧ e.2 < n) (hac : Acyclic (Links edges))
    (h : Inv n edges (unfollowed edges s.settled) s) (hq : s.queue = []) (hv : v < n) :
    v ∈ s.settled := by
  by_contra hnot
  -- among the nodes left over, one would have no predecessor left over
  let left := (Finset.range n).filter fun u => u ∉ s.settled
  have hleft : ∀ u, u ∈ left ↔ u < n ∧ u ∉ s.settled := fun u => by simp [left]
  obtain ⟨b, hb, hsource⟩ := hac.exists_source (S := left) ⟨v, (hleft v).2 ⟨hv, hnot⟩⟩
  obtain ⟨hbn, hbs⟩ := (hleft b).1 hb
  have hready : b ∈ s.queue ++ s.settled := by
    rw [h.ready b hbn, pending_eq_zero]
    rintro e he rfl
    obtain ⟨he, hes⟩ := List.mem_filter.1 he
    exact hsource e.1 ((hleft e.1).2 ⟨(hlt e he).1, by simpa using hes⟩) he
  rw [hq, List.nil_append] at hready
  exact hbs hready

theorem length_settled_run (hlt : ∀ e ∈ edges, e.1 < n ∧ e.2 < n) (k : ℕ) :
    (run (Adjacency.ofEdges n edges) k).queue = [] ∨
      (run (Adjacency.ofEdges n edges) k).settled.length = k := by
  induction k with
  | zero => right; simp [run, start]
  | succ k ih =>
    rw [run]
    cases hq : (run (Adjacency.ofEdges n edges) k).queue with
    | nil => left; rw [Ranking.step, hq]; exact hq
    | cons v queue =>
      right
      rw [((inv_run hlt k).step hlt hq).2, List.length_cons]
      rw [hq] at ih
      simpa using ih

/-- **Each node leaves the queue exactly once**, and then the queue is empty. -/
theorem settled_run (hlt : ∀ e ∈ edges, e.1 < n ∧ e.2 < n) (hac : Acyclic (Links edges)) :
    (run (Adjacency.ofEdges n edges) n).queue = [] ∧
      (run (Adjacency.ofEdges n edges) n).settled.Perm (List.range n) := by
  have h := inv_run hlt n
  have hnd := (List.nodup_append.1 h.nodup).2.1
  have hsub : (run (Adjacency.ofEdges n edges) n).settled ⊆ List.range n :=
    fun v hv => List.mem_range.2 (h.lt v (List.mem_append_right _ hv))
  -- the queue ran empty on the way, or each of the steps took another node
  rcases length_settled_run hlt n with hq | hlen
  · refine ⟨hq, (List.perm_ext_iff_of_nodup hnd List.nodup_range).2 fun v => ?_⟩
    exact ⟨fun hv => hsub hv, fun hv => h.mem_settled hlt hac hq (List.mem_range.1 hv)⟩
  · have hperm : (run (Adjacency.ofEdges n edges) n).settled.Perm (List.range n) :=
      (hnd.subperm hsub).perm_of_length_le (by rw [hlen, List.length_range])
    refine ⟨List.eq_nil_iff_forall_not_mem.2 fun v hv => ?_, hperm⟩
    have hvs := hperm.mem_iff.2 (List.mem_range.2 (h.lt v (List.mem_append_left _ hv)))
    exact (List.nodup_append.1 h.nodup).2.2 v hv v hvs rfl

/-- At the end every edge is followed. -/
theorem inv_end (hlt : ∀ e ∈ edges, e.1 < n ∧ e.2 < n) (hac : Acyclic (Links edges)) :
    Inv n edges [] (run (Adjacency.ofEdges n edges) n) := by
  have h := inv_run hlt n
  have hnil : unfollowed edges (run (Adjacency.ofEdges n edges) n).settled = [] := by
    refine List.filter_eq_nil_iff.2 fun e he => ?_
    simpa using (settled_run hlt hac).2.mem_iff.2 (List.mem_range.2 (hlt e he).1)
  rwa [hnil] at h

/-- The run of a ranking follows an edge to `w` from the state `s`: some node has left the queue,
and the edges out of it that come before were followed. -/
def Follows (a : Adjacency) (s : Ranking) (w : ℕ) : Prop :=
  ∃ (k v : ℕ) (queue before rest : List ℕ), (run a k).queue = v :: queue ∧
    a.after v = before ++ w :: rest ∧
    s = before.foldl (Ranking.relax (((run a k).ranks[v]?).getD 0)) (leave (run a k) v queue)

/-- **No counter goes below zero**: one that is taken from is positive. -/
theorem waiting_pos (hlt : ∀ e ∈ edges, e.1 < n ∧ e.2 < n) {w : ℕ}
    (hf : Follows (Adjacency.ofEdges n edges) s w) : ∃ c : ℤ, s.waiting[w]? = some c ∧ 0 < c := by
  obtain ⟨k, v, queue, before, rest, hq, hafter, rfl⟩ := hf
  have h := inv_run hlt k
  have hv : v < n := h.lt v (by rw [hq]; simp)
  have htargets := mem_after hlt hv
  have hleave := h.leave_perm hq
  rw [hafter] at htargets
  rw [hafter, List.map_append, List.map_cons, List.append_assoc, List.cons_append] at hleave
  obtain ⟨r, hr⟩ : ∃ r, (run (Adjacency.ofEdges n edges) k).ranks[v]? = some r :=
    ⟨_, Array.getElem?_eq_getElem (by rw [h.size_ranks]; exact hv)⟩
  -- the edges before this one were followed, so this one comes next
  obtain ⟨hinv, -⟩ := hleave.foldl_relax before
    (fun x hx => htargets x (List.mem_append_left _ hx)) List.mem_cons_self hr
  rw [hr, Option.getD_some]
  exact (hinv.target (htargets w (by simp)).2).2

end Ranking

/-- A walk is no longer than the rank of the node it ends at. -/
theorem Ranking.Inv.length_le {s : Ranking} (h : Ranking.Inv n edges [] s)
    (hlt : ∀ e ∈ edges, e.1 < n ∧ e.2 < n) {u k : ℕ} (w : Walk (Links edges) u v k) :
    ∀ r, s.ranks[v]? = some r → k ≤ r := by
  induction w with
  | nil => exact fun r _ => Nat.zero_le r
  | @snoc b c k _ hbc ih =>
    intro r hr
    have hb : b < s.ranks.size := by rw [h.size_ranks]; exact (hlt _ hbc).1
    have := h.rises _ hbc (by simp) _ r (Array.getElem?_eq_getElem hb) hr
    have := ih _ (Array.getElem?_eq_getElem hb)
    omega

/-- **A rank is the length of the longest path into its node.** -/
theorem Adjacency.isGreatest_ranks (hlt : ∀ e ∈ edges, e.1 < n ∧ e.2 < n)
    (hac : Acyclic (Links edges)) (hv : v < n) :
    ∃ r, (Adjacency.ofEdges n edges).ranks[v]? = some r ∧
      IsGreatest {k | ∃ u, Walk (Links edges) u v k} r := by
  have h := Ranking.inv_end hlt hac
  have hranks : (Adjacency.ofEdges n edges).ranks =
      (Ranking.run (Adjacency.ofEdges n edges) n).ranks := by
    rw [Adjacency.ranks, (sizes_ofEdges n edges).1]
  obtain ⟨r, hr⟩ : ∃ r, (Ranking.run (Adjacency.ofEdges n edges) n).ranks[v]? = some r :=
    ⟨_, Array.getElem?_eq_getElem (by rw [h.size_ranks]; exact hv)⟩
  refine ⟨r, by rw [hranks, hr], h.path v r hr, ?_⟩
  rintro k ⟨u, w⟩
  exact h.length_le hlt w r hr

end DataLineage
