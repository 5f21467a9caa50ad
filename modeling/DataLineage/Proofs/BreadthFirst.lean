import DataLineage.Selection.Reach
import DataLineage.Proofs.Walk
import Mathlib.Data.List.Nodup

/-!
# Breadth-first search turn by turn

The search as a machine that takes one turn at a time, and what each turn keeps. The nodes met so
far stand in the order of their distance from the start: those already taken from the queue, then
the queue, whose depths differ by one at most. So a node that is marked as seen when an edge first
leads to it has the least depth it can have.

* `iterate_turn`: the machine comes to an empty queue, having taken what `search` returns.
* `Layered.turn`: a turn keeps the invariant.
* `search_isLeast`: the search finds each node at its distance, up to the bound.
-/

namespace DataLineage

/-- Whether a bound lets a selection go as far as this from its start. -/
def Generations.Allows (generations : Generations) (distance : ℕ) : Prop :=
  match generations with
  | .bounded n => distance ≤ n
  | .unbounded => True

theorem Generations.allows_zero (generations : Generations) : generations.Allows 0 := by
  cases generations with
  | bounded n => exact Nat.zero_le n
  | unbounded => trivial

theorem Generations.allows_succ_iff {generations : Generations} {d : ℕ} :
    generations.Allows (d + 1) ↔ generations.allowsFrom d := by
  cases generations with
  | bounded n => exact (allowsFrom_iff n d).symm
  | unbounded => exact iff_of_true trivial rfl

theorem Generations.Allows.mono {generations : Generations} {d k : ℕ}
    (h : generations.Allows k) (hd : d ≤ k) : generations.Allows d := by
  cases generations with
  | bounded n => exact Nat.le_trans hd h
  | unbounded => trivial

namespace Reach

variable {next : ℕ → List ℕ} {generations : Generations} {seen : Array Bool} {vs : List ℕ}
  {count start v w d : ℕ}

/-! ## Turns -/

/-- The state of a search: the marks, the queue and what was taken from the queue, in order. -/
structure Progress where
  seen : Array Bool
  queue : List (ℕ × ℕ)
  taken : List (ℕ × ℕ)

/-- The nodes met so far with their depths, in the order they joined the queue. -/
def Progress.met (s : Progress) : List (ℕ × ℕ) := s.taken ++ s.queue

/-- The state at the start of a search, for marks on this many nodes. -/
def Progress.init (count start : ℕ) : Progress :=
  ⟨(Array.replicate count false).setIfInBounds start true, [(start, 0)], []⟩

/-- One turn of the search. With an empty queue nothing happens any more. -/
def turn (next : ℕ → List ℕ) (generations : Generations) (s : Progress) : Progress :=
  match s.queue with
  | [] => s
  | (v, d) :: queue =>
    if generations.allowsFrom d then
      ⟨(enqueue s.seen (next v)).1, queue ++ (enqueue s.seen (next v)).2.map (·, d + 1),
        s.taken ++ [(v, d)]⟩
    else ⟨s.seen, queue, s.taken ++ [(v, d)]⟩

/-- **The search ends.** After one turn for each result the queue is empty, and the machine has
taken what `search` returns. -/
theorem iterate_turn (next : ℕ → List ℕ) (generations : Generations) (s : Progress) :
    ∃ seen, (turn next generations)^[(search next generations s.seen s.queue).length] s =
      ⟨seen, [], s.taken ++ search next generations s.seen s.queue⟩ := by
  obtain ⟨seen, queue, taken⟩ := s
  induction seen, queue using search.induct next generations generalizing taken with
  | case1 seen => exact ⟨seen, by simp [search]⟩
  | case2 seen v d queue hd ih =>
    obtain ⟨seen', h⟩ := ih (taken ++ [(v, d)])
    refine ⟨seen', ?_⟩
    rw [search, if_pos hd, List.length_cons, Function.iterate_succ_apply]
    simpa [turn, hd] using h
  | case3 seen v d queue hd ih =>
    obtain ⟨seen', h⟩ := ih (taken ++ [(v, d)])
    refine ⟨seen', ?_⟩
    rw [search, if_neg hd, List.length_cons, Function.iterate_succ_apply]
    simpa [turn, hd] using h

/-- **What every turn keeps, a whole search keeps.** -/
theorem search_of_turn {P : Progress → Prop} (hturn : ∀ s, P s → P (turn next generations s))
    {s : Progress} (h : P s) :
    ∃ seen, P ⟨seen, [], s.taken ++ search next generations s.seen s.queue⟩ := by
  have key : ∀ k, P ((turn next generations)^[k] s) := by
    intro k
    induction k with
    | zero => exact h
    | succ k ih =>
      rw [Function.iterate_succ_apply']
      exact hturn _ ih
  obtain ⟨seen, hseen⟩ := iterate_turn next generations s
  exact ⟨seen, hseen ▸ key _⟩

/-! ## What joins the queue -/

theorem size_enqueue (seen : Array Bool) (vs : List ℕ) : (enqueue seen vs).1.size = seen.size := by
  induction vs generalizing seen with
  | nil => rfl
  | cons v rest ih =>
    unfold enqueue
    split
    · rw [ih, Array.size_setIfInBounds]
    · exact ih seen

theorem getElem?_mark (hv : seen[v]? = some false) (w : ℕ) (b : Bool) :
    (seen.setIfInBounds v true)[w]? = some b ↔ if v = w then b = true else seen[w]? = some b := by
  obtain ⟨hlt, -⟩ := Array.getElem?_eq_some_iff.1 hv
  rw [Array.getElem?_setIfInBounds]
  split
  next => simp [eq_comm]
  next => rfl

/-- Those that join the queue are the ones not seen yet. -/
theorem mem_enqueue : w ∈ (enqueue seen vs).2 ↔ w ∈ vs ∧ seen[w]? = some false := by
  induction vs generalizing seen with
  | nil => simp [enqueue]
  | cons v rest ih =>
    unfold enqueue
    split
    next hv =>
      rw [List.mem_cons, List.mem_cons, ih, getElem?_mark hv]
      by_cases hvw : v = w
      · simp [← hvw, hv]
      · simp [hvw, Ne.symm hvw]
    next hv =>
      rw [ih, List.mem_cons]
      by_cases hvw : w = v
      · simp [hvw, hv]
      · simp [hvw]

theorem nodup_enqueue (seen : Array Bool) (vs : List ℕ) : (enqueue seen vs).2.Nodup := by
  induction vs generalizing seen with
  | nil => exact List.nodup_nil
  | cons v rest ih =>
    unfold enqueue
    split
    next hv =>
      refine List.nodup_cons.2 ⟨?_, ih _⟩
      rw [mem_enqueue, getElem?_mark hv]
      simp
    next => exact ih seen

/-- What joins the queue is seen from then on. -/
theorem seen_enqueue :
    (enqueue seen vs).1[w]? = some true ↔ seen[w]? = some true ∨ w ∈ (enqueue seen vs).2 := by
  induction vs generalizing seen with
  | nil => simp [enqueue]
  | cons v rest ih =>
    unfold enqueue
    split
    next hv =>
      rw [ih, getElem?_mark hv, List.mem_cons]
      by_cases hvw : v = w
      · simp [hvw]
      · simp [hvw, Ne.symm hvw]
    next => exact ih

/-! ## What a turn keeps -/

/-- **The invariant of the search** from a start node, for marks on this many nodes. -/
structure Layered (next : ℕ → List ℕ) (generations : Generations) (count start : ℕ)
    (s : Progress) : Prop where
  size : s.seen.size = count
  head : s.met.head? = some (start, 0)
  nodup : (s.met.map Prod.fst).Nodup
  seen : ∀ v, s.seen[v]? = some true ↔ v ∈ s.met.map Prod.fst
  sorted : s.met.Pairwise fun p q => p.2 ≤ q.2
  /-- Nothing was met more than one step beyond the first in the queue. -/
  front : ∀ p ∈ s.queue.head?, ∀ q ∈ s.met, q.2 ≤ p.2 + 1
  walk : ∀ p ∈ s.met, Walk (fun u w => w ∈ next u) start p.1 p.2
  allows : ∀ p ∈ s.met, generations.Allows p.2
  /-- The neighbours of a node taken were met, at most one step beyond it. -/
  closed : ∀ p ∈ s.taken, generations.allowsFrom p.2 →
    ∀ w ∈ next p.1, ∃ d, (w, d) ∈ s.met ∧ d ≤ p.2 + 1

theorem layered_init (next : ℕ → List ℕ) (generations : Generations) (hstart : start < count) :
    Layered next generations count start (.init count start) := by
  have hmark : (Array.replicate count false)[start]? = some false := by
    rw [Array.getElem?_replicate, if_pos hstart]
  have hmet : (Progress.init count start).met = [(start, 0)] := rfl
  refine ⟨by simp [Progress.init], rfl, by simp [hmet], ?_, by simp [hmet], ?_, ?_, ?_, ?_⟩
  · intro v
    rw [Progress.init, getElem?_mark hmark, Array.getElem?_replicate]
    by_cases hv : start = v
    · simp [Progress.met, hv]
    · simp [Progress.met, hv, Ne.symm hv]
  · intro p _ q hq
    obtain rfl : q = (start, 0) := by simpa [hmet] using hq
    exact Nat.zero_le _
  · intro p hp
    obtain rfl : p = (start, 0) := by simpa [hmet] using hp
    exact .nil start
  · intro p hp
    obtain rfl : p = (start, 0) := by simpa [hmet] using hp
    exact generations.allows_zero
  · intro p hp
    cases hp

/-- The depths in the queue do not come before that of its first. -/
theorem Layered.le_of_mem_queue {s : Progress} (h : Layered next generations count start s)
    {p q : ℕ × ℕ} {queue : List (ℕ × ℕ)} (hs : s.queue = p :: queue) (hq : q ∈ queue) :
    p.2 ≤ q.2 := by
  have hsorted := h.sorted
  rw [Progress.met, hs] at hsorted
  exact List.rel_of_pairwise_cons (List.pairwise_append.1 hsorted).2.1 hq

/-- Whoever comes next in the queue, nothing was met more than one step beyond it. -/
theorem Layered.le_succ_of_mem_queue {s : Progress} (h : Layered next generations count start s)
    {p q r : ℕ × ℕ} {queue : List (ℕ × ℕ)} (hs : s.queue = p :: queue) (hq : q ∈ queue)
    (hr : r ∈ s.met) : r.2 ≤ q.2 + 1 := by
  have hr := h.front p (by simp [hs]) r hr
  have hq := h.le_of_mem_queue hs hq
  omega

/-- At the bound a turn only takes a node from the queue. -/
theorem Layered.take {s : Progress} (h : Layered next generations count start s)
    {queue : List (ℕ × ℕ)} (hs : s.queue = (v, d) :: queue) (hd : ¬ generations.allowsFrom d) :
    Layered next generations count start ⟨s.seen, queue, s.taken ++ [(v, d)]⟩ := by
  have hmet : Progress.met ⟨s.seen, queue, s.taken ++ [(v, d)]⟩ = s.met := by
    simp [Progress.met, hs]
  refine ⟨h.size, ?_, ?_, ?_, ?_, ?_, ?_, ?_, ?_⟩ <;> rw [hmet]
  · exact h.head
  · exact h.nodup
  · exact h.seen
  · exact h.sorted
  · intro p hp q hq
    exact h.le_succ_of_mem_queue hs (List.mem_of_mem_head? hp) hq
  · exact h.walk
  · exact h.allows
  · intro p hp hpd
    rcases List.mem_append.1 hp with hp | hp
    · exact h.closed p hp hpd
    · obtain rfl : p = (v, d) := by simpa using hp
      exact absurd hpd hd

/-- Below the bound the unseen neighbours join the queue. -/
theorem Layered.expand {s : Progress} (h : Layered next generations count start s)
    (hnext : ∀ v, ∀ w ∈ next v, w < count) {queue : List (ℕ × ℕ)}
    (hs : s.queue = (v, d) :: queue) (hd : generations.allowsFrom d) :
    Layered next generations count start
      ⟨(enqueue s.seen (next v)).1, queue ++ (enqueue s.seen (next v)).2.map (·, d + 1),
        s.taken ++ [(v, d)]⟩ := by
  set fresh := (enqueue s.seen (next v)).2 with hfresh
  have hmet : Progress.met ⟨(enqueue s.seen (next v)).1, queue ++ fresh.map (·, d + 1),
      s.taken ++ [(v, d)]⟩ = s.met ++ fresh.map (·, d + 1) := by
    simp [Progress.met, hs]
  have hfst : (s.met ++ fresh.map (·, d + 1)).map Prod.fst = s.met.map Prod.fst ++ fresh := by
    simp [Function.comp_def]
  have hv : (v, d) ∈ s.met := by simp [Progress.met, hs]
  have hle : ∀ q ∈ s.met, q.2 ≤ d + 1 := h.front (v, d) (by simp [hs])
  have hjoin : ∀ p ∈ fresh.map (·, d + 1), p.1 ∈ next v ∧ p.2 = d + 1 := by
    intro p hp
    obtain ⟨w, hw, rfl⟩ := List.mem_map.1 hp
    exact ⟨(mem_enqueue.1 hw).1, rfl⟩
  refine ⟨?_, ?_, ?_, ?_, ?_, ?_, ?_, ?_, ?_⟩ <;> try rw [hmet]
  · exact (size_enqueue _ _).trans h.size
  · rw [List.head?_append, h.head]
    rfl
  · rw [hfst, List.nodup_append']
    refine ⟨h.nodup, nodup_enqueue _ _, ?_⟩
    intro w hw hwf
    have hfalse := (mem_enqueue.1 hwf).2
    rw [(h.seen w).2 hw] at hfalse
    simp at hfalse
  · intro w
    rw [hfst, List.mem_append, seen_enqueue, h.seen]
  · rw [List.pairwise_append]
    refine ⟨h.sorted, ?_, ?_⟩
    · refine List.pairwise_map.2 (List.pairwise_of_forall ?_)
      intro _ _
      exact Nat.le_refl (d + 1)
    · intro p hp q hq
      rw [(hjoin q hq).2]
      exact hle p hp
  · intro p hp q hq
    have hp : d ≤ p.2 := by
      rcases List.mem_append.1 (List.mem_of_mem_head? hp) with hp | hp
      · exact h.le_of_mem_queue hs hp
      · exact Nat.le_trans (Nat.le_succ d) (hjoin p hp).2.ge
    rcases List.mem_append.1 hq with hq | hq
    · have := hle q hq
      omega
    · have := (hjoin q hq).2
      omega
  · intro p hp
    rcases List.mem_append.1 hp with hp | hp
    · exact h.walk p hp
    · obtain ⟨hpv, hpd⟩ := hjoin p hp
      rw [hpd]
      exact (h.walk (v, d) hv).snoc hpv
  · intro p hp
    rcases List.mem_append.1 hp with hp | hp
    · exact h.allows p hp
    · rw [(hjoin p hp).2]
      exact Generations.allows_succ_iff.2 hd
  · intro p hp hpd w hw
    rcases List.mem_append.1 hp with hp | hp
    · obtain ⟨k, hk, hkd⟩ := h.closed p hp hpd w hw
      exact ⟨k, List.mem_append_left _ hk, hkd⟩
    · obtain rfl : p = (v, d) := by simpa using hp
      -- a neighbour was either seen before or joins now
      have hlt : w < s.seen.size := by
        rw [h.size]
        exact hnext v w hw
      cases hb : s.seen[w] with
      | true =>
        obtain ⟨q, hq, rfl⟩ :=
          List.mem_map.1 ((h.seen w).1 (Array.getElem?_eq_some_iff.2 ⟨hlt, hb⟩))
        exact ⟨q.2, List.mem_append_left _ hq, hle q hq⟩
      | false =>
        have hwf : w ∈ fresh := mem_enqueue.2 ⟨hw, Array.getElem?_eq_some_iff.2 ⟨hlt, hb⟩⟩
        exact ⟨d + 1, List.mem_append_right _ (List.mem_map_of_mem hwf), Nat.le_refl _⟩

/-- **A turn keeps the invariant.** -/
theorem Layered.turn {s : Progress} (h : Layered next generations count start s)
    (hnext : ∀ v, ∀ w ∈ next v, w < count) :
    Layered next generations count start (turn next generations s) := by
  unfold Reach.turn
  split
  next => exact h
  next v d queue hs =>
    split
    next hd => exact h.expand hnext hs hd
    next hd => exact h.take hs hd

/-! ## What a whole search finds -/

/-- Once the queue is empty, what a walk leads to was met, at most as deep as the walk is long. -/
theorem Layered.exists_mem_of_walk {s : Progress} (h : Layered next generations count start s)
    (hs : s.queue = []) (w : Walk (fun u w => w ∈ next u) start v d) (hd : generations.Allows d) :
    ∃ k, (v, k) ∈ s.met ∧ k ≤ d := by
  have hmet : s.met = s.taken := by rw [Progress.met, hs, List.append_nil]
  have hstart : (start, 0) ∈ s.met := List.mem_of_mem_head? h.head
  clear hs
  induction w with
  | nil => exact ⟨0, hstart, Nat.le_refl 0⟩
  | @snoc u _ d _ hstep ih =>
    obtain ⟨k, hk, hkd⟩ := ih (hd.mono (Nat.le_succ _))
    have hfrom : generations.allowsFrom k :=
      Generations.allows_succ_iff.1 (hd.mono (Nat.succ_le_succ hkd))
    obtain ⟨k', hk', hkd'⟩ := h.closed (u, k) (hmet ▸ hk) hfrom _ hstep
    exact ⟨k', hk', Nat.le_trans hkd' (Nat.succ_le_succ hkd)⟩

/-- Once the queue is empty, each node was met at its distance. -/
theorem Layered.mem_iff_isLeast {s : Progress} (h : Layered next generations count start s)
    (v d : ℕ) (hs : s.queue = []) : (v, d) ∈ s.met ↔
      IsLeast {k | Walk (fun u w => w ∈ next u) start v k} d ∧ generations.Allows d := by
  constructor
  · intro hmem
    refine ⟨⟨h.walk _ hmem, ?_⟩, h.allows _ hmem⟩
    intro k hk
    by_contra hlt
    obtain ⟨k', hk', hle⟩ :=
      h.exists_mem_of_walk hs hk ((h.allows _ hmem).mono (Nat.le_of_not_le hlt))
    have heq := List.inj_on_of_nodup_map h.nodup hk' hmem rfl
    have : k' = d := congrArg Prod.snd heq
    omega
  · rintro ⟨⟨hw, hleast⟩, hd⟩
    obtain ⟨k, hk, hkd⟩ := h.exists_mem_of_walk hs hw hd
    have hdk : d ≤ k := hleast (h.walk _ hk)
    rwa [Nat.le_antisymm hkd hdk] at hk

/-- **The search finds each node at its distance**, the start first and then in the order of their
distances, as far as the bound allows. -/
theorem search_isLeast (generations : Generations) (hnext : ∀ v, ∀ w ∈ next v, w < count)
    (hstart : start < count) {found : List (ℕ × ℕ)}
    (hfound : found = search next generations (Progress.init count start).seen [(start, 0)]) :
    found.head? = some (start, 0) ∧ (found.map Prod.fst).Nodup ∧
      (found.Pairwise fun p q => p.2 ≤ q.2) ∧
      ∀ v d, (v, d) ∈ found ↔
        IsLeast {k | Walk (fun u w => w ∈ next u) start v k} d ∧ generations.Allows d := by
  obtain ⟨seen, h⟩ := search_of_turn (fun s hs => Layered.turn hs hnext)
    (layered_init next generations hstart)
  have hmet : Progress.met ⟨seen, [], (Progress.init count start).taken ++ search next generations
      (Progress.init count start).seen (Progress.init count start).queue⟩ = found := by
    rw [hfound, Progress.met, List.append_nil]
    rfl
  have hhead := h.head
  have hnodup := h.nodup
  have hsorted := h.sorted
  have hmem := fun v d => h.mem_iff_isLeast v d rfl
  rw [hmet] at hhead hnodup hsorted
  simp only [hmet] at hmem
  exact ⟨hhead, hnodup, hsorted, hmem⟩

end Reach

end DataLineage
