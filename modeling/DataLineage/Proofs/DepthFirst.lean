import DataLineage.Placement.CycleEdges
import DataLineage.Proofs.Walk
import Mathlib.Data.List.Nodup
import Mathlib.Data.Set.Insert

/-!
# Depth-first search turn by turn

The search for edges that close cycles, as a machine that takes one turn at a time, and what each
turn keeps. The nodes on the stack are the grey ones, each reaches the ones above it along edges
that were followed and kept, and kept edges out of black nodes lead to black nodes. So an edge into
a black or a white node closes no cycle, and one into a grey node does.

* `exists_turns`: the machine comes to an empty stack, in the state that `search` returns.
* `Sound.turn`: a turn keeps the invariant.
* `acyclic_kept`: without the edges found there is no cycle.
* `closing_walk`: each edge found closes a cycle of which it is the only edge found.
-/

namespace DataLineage.CycleEdges

variable {outgoing : Array (List Out)} {followed : Set (ℕ × Out)} {s : State} {stack : Stack}
  {v : ℕ} {o : Out} {rest : List Out}

/-- The edges out of a node, in order. -/
def outs (outgoing : Array (List Out)) (v : ℕ) : List Out := (outgoing[v]?).getD []

theorem lt_of_mem_outs (h : o ∈ outs outgoing v) : v < outgoing.size := by
  by_contra hv
  simp [outs, Array.getElem?_eq_none (Nat.le_of_not_lt hv)] at h

/-- Edges lead to nodes of the table, and no two of them have the same number. -/
structure Numbered (outgoing : Array (List Out)) : Prop where
  target_lt : ∀ v, ∀ o ∈ outs outgoing v, o.1 < outgoing.size
  nodup : ∀ v, ((outs outgoing v).map Prod.snd).Nodup
  unique : ∀ v w, ∀ o ∈ outs outgoing v, ∀ p ∈ outs outgoing w, o.2 = p.2 → v = w

/-! ## Turns -/

/-- One turn of the search. With an empty stack nothing happens any more. -/
def turn (outgoing : Array (List Out)) : State × Stack → State × Stack
  | (s, []) => (s, [])
  | (s, (v, []) :: stack) => (s.paint v .black, stack)
  | (s, (v, o :: rest) :: stack) =>
    match s.colours[o.1]? with
    | some .white => (s.paint o.1 .grey, (o.1, outs outgoing o.1) :: (v, rest) :: stack)
    | some .grey => ({ s with closing := o.2 :: s.closing }, (v, rest) :: stack)
    | _ => (s, (v, rest) :: stack)

theorem turn_white (h : s.colours[o.1]? = some .white) :
    turn outgoing (s, (v, o :: rest) :: stack) =
      (s.paint o.1 .grey, (o.1, outs outgoing o.1) :: (v, rest) :: stack) := by
  simp only [turn, h]

theorem turn_grey (h : s.colours[o.1]? = some .grey) :
    turn outgoing (s, (v, o :: rest) :: stack) =
      ({ s with closing := o.2 :: s.closing }, (v, rest) :: stack) := by
  simp only [turn, h]

theorem turn_other (hw : s.colours[o.1]? ≠ some .white) (hg : s.colours[o.1]? ≠ some .grey) :
    turn outgoing (s, (v, o :: rest) :: stack) = (s, (v, rest) :: stack) := by
  simp only [turn]

/-- A turn does not change what the search returns. -/
theorem search_turn (outgoing : Array (List Out)) (c : State × Stack) :
    search outgoing (turn outgoing c).1 (turn outgoing c).2 = search outgoing c.1 c.2 := by
  obtain ⟨s, stack⟩ := c
  match stack with
  | [] => rfl
  | (v, []) :: stack =>
    conv_rhs => rw [search]
    rfl
  | (v, (target, edge) :: rest) :: stack =>
    conv_rhs => rw [search]
    dsimp only
    split
    next h => rw [turn_white h]; rfl
    next h => rw [turn_grey h]
    next hw hg => rw [turn_other hw hg]

/-- **The search ends.** After some number of turns the stack is empty, and the state is the one
that `search` returns. -/
theorem exists_turns (outgoing : Array (List Out)) (s : State) (stack : Stack) :
    ∃ k, (turn outgoing)^[k] (s, stack) = (search outgoing s stack, []) := by
  induction s, stack using search.induct outgoing with
  | case1 s => exact ⟨0, by rw [search]; rfl⟩
  | case2 s v stack ih =>
    obtain ⟨k, hk⟩ := ih
    refine ⟨k + 1, ?_⟩
    rw [Function.iterate_succ_apply, ← search_turn outgoing (s, _)]
    exact hk
  | case3 s v target edge rest stack hc ih =>
    obtain ⟨k, hk⟩ := ih
    refine ⟨k + 1, ?_⟩
    rw [Function.iterate_succ_apply, ← search_turn outgoing (s, _), turn_white hc]
    exact hk
  | case4 s v target edge rest stack hc ih =>
    obtain ⟨k, hk⟩ := ih
    refine ⟨k + 1, ?_⟩
    rw [Function.iterate_succ_apply, ← search_turn outgoing (s, _), turn_grey hc]
    exact hk
  | case5 s v target edge rest stack hw hg ih =>
    obtain ⟨k, hk⟩ := ih
    refine ⟨k + 1, ?_⟩
    rw [Function.iterate_succ_apply, ← search_turn outgoing (s, _), turn_other hw hg]
    exact hk

/-- **What every turn keeps, a whole search keeps.** -/
theorem search_of_turn {P : State × Stack → Prop} (hturn : ∀ c, P c → P (turn outgoing c))
    (h : P (s, stack)) : P (search outgoing s stack, []) := by
  obtain ⟨k, hk⟩ := exists_turns outgoing s stack
  have key : ∀ k, P ((turn outgoing)^[k] (s, stack)) := by
    intro k
    induction k with
    | zero => exact h
    | succ k ih => rw [Function.iterate_succ_apply']; exact hturn _ ih
  rw [← hk]
  exact key k

/-! ## What a turn keeps -/

/-- Some followed edge that was not found to close a cycle leads from `v` to `t`. -/
def Keeps (followed : Set (ℕ × Out)) (closing : List ℕ) (v t : ℕ) : Prop :=
  ∃ e, (v, (t, e)) ∈ followed ∧ e ∉ closing

/-- **The invariant of the search**, for the edges followed so far. -/
structure Sound (outgoing : Array (List Out)) (followed : Set (ℕ × Out)) (s : State)
    (stack : Stack) : Prop where
  size : s.colours.size = outgoing.size
  nodup : (stack.map Prod.fst).Nodup
  grey : ∀ v, s.colours[v]? = some .grey ↔ v ∈ stack.map Prod.fst
  mem_outs : ∀ v o, (v, o) ∈ followed → o ∈ outs outgoing v
  met : ∀ v o, (v, o) ∈ followed → s.colours[v]? ≠ some .white ∧ s.colours[o.1]? ≠ some .white
  /-- A frame holds the edges of its node that are still to follow. -/
  frame : ∀ f ∈ stack, ∃ front, outs outgoing f.1 = front ++ f.2 ∧
    ∀ o, (f.1, o) ∈ followed ↔ o ∈ front
  black : ∀ v, s.colours[v]? = some .black → ∀ o ∈ outs outgoing v, (v, o) ∈ followed
  /-- Kept edges out of black nodes lead to black nodes. -/
  down : ∀ v t, s.colours[v]? = some .black → Keeps followed s.closing v t →
    s.colours[t]? = some .black
  closing : ∀ e ∈ s.closing, ∃ v t, (v, (t, e)) ∈ followed ∧
    ∃ n, Walk (Keeps followed s.closing) t v n
  acyclic : Acyclic (Keeps followed s.closing)
  /-- Each node on the stack reaches those above it. -/
  walks : (stack.map Prod.fst).Pairwise fun inner outer =>
    ∃ n, Walk (Keeps followed s.closing) outer inner n

theorem colours_paint (s : State) (v w : ℕ) (colour : Colour) (hv : v < s.colours.size) :
    (s.paint v colour).colours[w]? = if v = w then some colour else s.colours[w]? := by
  simp only [State.paint, Array.getElem?_setIfInBounds]
  split <;> simp_all

theorem size_paint (s : State) (v : ℕ) (colour : Colour) :
    (s.paint v colour).colours.size = s.colours.size := by
  simp [State.paint]

/-- Nodes that were met stay so. -/
theorem met_paint {w : ℕ} {colour : Colour} (hc : colour ≠ .white)
    (hw : s.colours[w]? ≠ some .white) : (s.paint v colour).colours[w]? ≠ some .white := by
  simp only [State.paint, Array.getElem?_setIfInBounds]
  split
  · split <;> simp [hc]
  · exact hw

/-- Entering a white node makes no node black and no black node other. -/
theorem black_enter_iff (hv : s.colours[v]? = some .white) (w : ℕ) :
    (s.paint v .grey).colours[w]? = some .black ↔ s.colours[w]? = some .black := by
  rw [colours_paint s v w .grey (Array.getElem?_eq_some_iff.1 hv).1]
  split
  next he => subst he; simp [hv]
  next => rfl

/-- Entering a white node makes that node grey and leaves the others. -/
theorem grey_enter_iff (hv : s.colours[v]? = some .white) {vs : List ℕ}
    (hgrey : ∀ w, s.colours[w]? = some .grey ↔ w ∈ vs) (w : ℕ) :
    (s.paint v .grey).colours[w]? = some .grey ↔ w ∈ v :: vs := by
  rw [colours_paint s v w .grey (Array.getElem?_eq_some_iff.1 hv).1]
  split
  next he => subst he; simp
  next hne => rw [hgrey]; simp [Ne.symm hne]

/-- A node that is not white is grey or black. -/
theorem black_of_met (hv : v < s.colours.size) (hw : s.colours[v]? ≠ some .white)
    (hg : s.colours[v]? ≠ some .grey) : s.colours[v]? = some .black := by
  rw [Array.getElem?_eq_getElem hv] at *
  cases h : s.colours[v] <;> simp_all

theorem Keeps.insert_iff {closing : List ℕ} (h : o.2 ∉ closing) (a b : ℕ) :
    Keeps (insert (v, o) followed) closing a b ↔ Keeps followed closing a b ∨ a = v ∧ b = o.1 := by
  constructor
  · rintro ⟨e, he, hc⟩
    rcases Set.mem_insert_iff.1 he with he | he
    · cases he; exact Or.inr ⟨rfl, rfl⟩
    · exact Or.inl ⟨e, he, hc⟩
  · rintro (⟨e, he, hc⟩ | ⟨rfl, rfl⟩)
    · exact ⟨e, Set.mem_insert_of_mem _ he, hc⟩
    · exact ⟨o.2, Set.mem_insert _ _, h⟩

/-- Walks stay when one more edge is kept. -/
theorem Keeps.walk_insert {closing : List ℕ} (h : o.2 ∉ closing) {a b n : ℕ}
    (w : Walk (Keeps followed closing) a b n) :
    Walk (Keeps (insert (v, o) followed) closing) a b n :=
  w.mono fun c d hcd => (Keeps.insert_iff h c d).2 (Or.inl hcd)

namespace Sound

/-- The edge that is to be followed next has a number that no followed edge has. -/
theorem number_ne (hN : Numbered outgoing) (h : Sound outgoing followed s ((v, o :: rest) :: stack))
    {a : ℕ} {p : Out} (hp : (a, p) ∈ followed) : p.2 ≠ o.2 := by
  intro he
  obtain ⟨front, hfront, hmem⟩ := h.frame _ List.mem_cons_self
  have ho : o ∈ outs outgoing v := by rw [hfront]; simp
  obtain rfl : a = v := hN.unique a v p (h.mem_outs a p hp) o ho he
  have hnd := hN.nodup a
  rw [hfront, List.map_append, List.nodup_append] at hnd
  have hpf : p ∈ front := (hmem p).1 hp
  exact hnd.2.2 p.2 (List.mem_map_of_mem hpf) o.2 (by simp) he

theorem number_notMem (hN : Numbered outgoing)
    (h : Sound outgoing followed s ((v, o :: rest) :: stack)) : o.2 ∉ s.closing := by
  intro hc
  obtain ⟨a, t, hat, -⟩ := h.closing _ hc
  exact h.number_ne hN hat rfl

theorem mem_outs_head (h : Sound outgoing followed s ((v, o :: rest) :: stack)) :
    o ∈ outs outgoing v := by
  obtain ⟨front, hfront, -⟩ := h.frame _ List.mem_cons_self
  rw [hfront]; simp

/-- The node on top is grey. -/
theorem grey_head (h : Sound outgoing followed s ((v, rest) :: stack)) :
    s.colours[v]? = some .grey := (h.grey v).2 (by simp)

/-- The other nodes on the stack reach the one on top. -/
theorem walk_head (h : Sound outgoing followed s ((v, rest) :: stack)) {u : ℕ}
    (hu : u ∈ v :: stack.map Prod.fst) : ∃ n, Walk (Keeps followed s.closing) u v n := by
  rcases List.mem_cons.1 hu with rfl | hu
  · exact ⟨0, .nil _⟩
  · exact (List.pairwise_cons.1 h.walks).1 u hu

/-- Following an edge moves it from what its frame still holds to the followed edges. -/
theorem frame_insert (h : Sound outgoing followed s ((v, o :: rest) :: stack)) :
    ∀ f ∈ (v, rest) :: stack, ∃ front, outs outgoing f.1 = front ++ f.2 ∧
      ∀ p, (f.1, p) ∈ insert (v, o) followed ↔ p ∈ front := by
  intro f hf
  rcases List.mem_cons.1 hf with rfl | hf
  · obtain ⟨front, hfront, hmem⟩ := h.frame _ List.mem_cons_self
    refine ⟨front ++ [o], by simpa using hfront, fun p => ?_⟩
    rw [Set.mem_insert_iff, hmem, List.mem_append, List.mem_singleton, Prod.mk.injEq]
    tauto
  · obtain ⟨front, hfront, hmem⟩ := h.frame f (List.mem_cons_of_mem _ hf)
    refine ⟨front, hfront, fun p => ?_⟩
    -- a node has one frame only
    have hne : f.1 ≠ v := by
      intro he
      have hv : f.1 ∈ stack.map Prod.fst := List.mem_map_of_mem hf
      rw [he] at hv
      exact (List.nodup_cons.1 h.nodup).1 hv
    rw [Set.mem_insert_iff, hmem, Prod.mk.injEq]
    tauto

theorem mem_outs_insert (h : Sound outgoing followed s ((v, o :: rest) :: stack)) :
    ∀ w p, (w, p) ∈ insert (v, o) followed → p ∈ outs outgoing w := by
  intro w p hp
  rcases Set.mem_insert_iff.1 hp with hp | hp
  · cases hp; exact h.mem_outs_head
  · exact h.mem_outs w p hp

theorem met_insert (h : Sound outgoing followed s ((v, o :: rest) :: stack))
    (ho : s.colours[o.1]? ≠ some .white) : ∀ w p, (w, p) ∈ insert (v, o) followed →
      s.colours[w]? ≠ some .white ∧ s.colours[p.1]? ≠ some .white := by
  intro w p hp
  rcases Set.mem_insert_iff.1 hp with hp | hp
  · cases hp; exact ⟨by rw [h.grey_head]; simp, ho⟩
  · exact h.met w p hp

theorem black_insert (h : Sound outgoing followed s stack) (f : ℕ × Out) :
    ∀ w, s.colours[w]? = some .black → ∀ p ∈ outs outgoing w, (w, p) ∈ insert f followed :=
  fun w hw p hp => Set.mem_insert_of_mem _ (h.black w hw p hp)

theorem down_insert (hN : Numbered outgoing)
    (h : Sound outgoing followed s ((v, o :: rest) :: stack)) :
    ∀ w t, s.colours[w]? = some .black → Keeps (insert (v, o) followed) s.closing w t →
      s.colours[t]? = some .black := by
  intro w t hw hwt
  rcases (Keeps.insert_iff (h.number_notMem hN) w t).1 hwt with hwt | ⟨rfl, -⟩
  · exact h.down w t hw hwt
  · rw [h.grey_head] at hw; cases hw

theorem closing_insert (hN : Numbered outgoing)
    (h : Sound outgoing followed s ((v, o :: rest) :: stack)) :
    ∀ e ∈ s.closing, ∃ a t, (a, (t, e)) ∈ insert (v, o) followed ∧
      ∃ n, Walk (Keeps (insert (v, o) followed) s.closing) t a n := by
  intro e he
  obtain ⟨a, t, hat, n, hn⟩ := h.closing e he
  exact ⟨a, t, Set.mem_insert_of_mem _ hat, n, Keeps.walk_insert (h.number_notMem hN) hn⟩

theorem walks_insert (hN : Numbered outgoing)
    (h : Sound outgoing followed s ((v, o :: rest) :: stack)) :
    (v :: stack.map Prod.fst).Pairwise fun inner outer =>
      ∃ n, Walk (Keeps (insert (v, o) followed) s.closing) outer inner n :=
  h.walks.imp fun ⟨n, hn⟩ => ⟨n, Keeps.walk_insert (h.number_notMem hN) hn⟩

/-- The edge to follow next closes no cycle when its target does not reach its node. -/
theorem acyclic_insert (hN : Numbered outgoing)
    (h : Sound outgoing followed s ((v, o :: rest) :: stack))
    (hnot : ∀ n, ¬ Walk (Keeps followed s.closing) o.1 v n) :
    Acyclic (Keeps (insert (v, o) followed) s.closing) :=
  (acyclic_or h.acyclic hnot).mono fun a b => (Keeps.insert_iff (h.number_notMem hN) a b).1

/-- A node without edges left to follow turns black. -/
theorem leave (hN : Numbered outgoing) (h : Sound outgoing followed s ((v, []) :: stack)) :
    Sound outgoing followed (s.paint v .black) stack := by
  have hv : v < s.colours.size := (Array.getElem?_eq_some_iff.1 h.grey_head).1
  have hcol := fun w => colours_paint s v w .black hv
  have hnd := List.nodup_cons.1 h.nodup
  have hmet := fun w => met_paint (s := s) (v := v) (w := w) (show Colour.black ≠ .white by decide)
  have hblack : ∀ w : ℕ, s.colours[w]? = some .black →
      (s.paint v .black).colours[w]? = some .black := by
    intro w hw
    rw [hcol]; split <;> simp [hw]
  refine ⟨by rw [size_paint, h.size], hnd.2, ?grey, h.mem_outs, ?met, ?frame, ?black, ?down,
    h.closing, h.acyclic, (List.pairwise_cons.1 h.walks).2⟩
  case grey =>
    intro w
    rw [hcol]
    split
    next he => subst he; simpa using hnd.1
    next hne => rw [h.grey]; simp [Ne.symm hne]
  case met => exact fun w p hp => ⟨hmet w (h.met w p hp).1, hmet p.1 (h.met w p hp).2⟩
  case frame => exact fun f hf => h.frame f (List.mem_cons_of_mem _ hf)
  case black =>
    intro w hw p hp
    rw [hcol] at hw
    split at hw
    next he =>
      obtain ⟨front, hfront, hmem⟩ := h.frame _ List.mem_cons_self
      subst he
      rw [hfront, List.append_nil] at hp
      exact (hmem p).2 hp
    next => exact h.black w hw p hp
  case down =>
    intro w t hw hwt
    rw [hcol] at hw
    split at hw
    next he =>
      subst he
      -- a kept edge to a grey node would close a cycle
      obtain ⟨e, he, -⟩ := id hwt
      have ht : t < s.colours.size := by rw [h.size]; exact hN.target_lt _ _ (h.mem_outs _ _ he)
      refine hblack t (black_of_met ht (h.met _ _ he).2 fun hg => ?_)
      obtain ⟨n, hn⟩ := h.walk_head ((h.grey t).1 hg)
      exact h.acyclic.not_walk hwt hn
    next => exact hblack t (h.down w t hw hwt)

/-- An edge to a white node is kept, and the node turns grey. -/
theorem enter (hN : Numbered outgoing) (h : Sound outgoing followed s ((v, o :: rest) :: stack))
    (hw : s.colours[o.1]? = some .white) :
    Sound outgoing (insert (v, o) followed) (s.paint o.1 .grey)
      ((o.1, outs outgoing o.1) :: (v, rest) :: stack) := by
  have hlt : o.1 < s.colours.size := (Array.getElem?_eq_some_iff.1 hw).1
  have hmet := fun w => met_paint (s := s) (v := o.1) (w := w) (show Colour.grey ≠ .white by decide)
  have hblack := black_enter_iff hw
  have hnumber := h.number_notMem hN
  have hclosing := h.closing_insert hN
  have hwalks := h.walks_insert hN
  have hnot : o.1 ∉ v :: stack.map Prod.fst := by
    intro hm
    have := (h.grey o.1).2 hm
    rw [hw] at this; cases this
  have hacyclic : Acyclic (Keeps (insert (v, o) followed) s.closing) := by
    refine h.acyclic_insert hN fun n hn => ?_
    -- no edge out of the white node was followed
    have hS : ∀ a b, a = o.1 → Keeps followed s.closing a b → b = o.1 := by
      rintro a b rfl ⟨e, he, -⟩
      exact absurd hw (h.met _ _ he).1
    exact hnot (by rw [hn.closed hS rfl]; simp)
  refine ⟨by rw [size_paint, h.size], List.nodup_cons.2 ⟨hnot, h.nodup⟩, grey_enter_iff hw h.grey,
    h.mem_outs_insert, ?met, ?frame, ?black, ?down, hclosing, hacyclic, ?walks⟩
  case met =>
    intro w p hp
    rcases Set.mem_insert_iff.1 hp with hp | hp
    · cases hp
      exact ⟨hmet v (by rw [h.grey_head]; simp), by rw [colours_paint _ _ _ _ hlt]; simp⟩
    · exact ⟨hmet w (h.met w p hp).1, hmet p.1 (h.met w p hp).2⟩
  case frame =>
    intro f hf
    rcases List.mem_cons.1 hf with rfl | hf
    · refine ⟨[], rfl, fun p => ?_⟩
      simp only [List.not_mem_nil, iff_false]
      intro hp
      rcases Set.mem_insert_iff.1 hp with hp | hp
      · obtain ⟨hv, -⟩ := Prod.mk.inj hp
        exact hnot (by simp [hv])
      · exact (h.met _ _ hp).1 hw
    · exact h.frame_insert f hf
  case black => exact fun w hb => h.black_insert _ w ((hblack w).1 hb)
  case down => exact fun w t hb hwt => (hblack t).2 (h.down_insert hN w t ((hblack w).1 hb) hwt)
  case walks =>
    -- the nodes on the stack reach the new one over the node that was on top
    refine List.pairwise_cons.2 ⟨fun u hu => ?_, hwalks⟩
    obtain ⟨n, hn⟩ := h.walk_head hu
    have hlast : Keeps (insert (v, o) followed) s.closing v o.1 :=
      (Keeps.insert_iff hnumber v o.1).2 (Or.inr ⟨rfl, rfl⟩)
    exact ⟨n + 1, (Keeps.walk_insert hnumber hn).snoc hlast⟩

/-- An edge to a grey node closes a cycle: the node reaches the one on top of the stack. -/
theorem close (hN : Numbered outgoing) (h : Sound outgoing followed s ((v, o :: rest) :: stack))
    (hg : s.colours[o.1]? = some .grey) :
    Sound outgoing (insert (v, o) followed) { s with closing := o.2 :: s.closing }
      ((v, rest) :: stack) := by
  -- the edge is followed but found to close a cycle, so the kept edges are the same as before
  have hkeeps : ∀ a b, Keeps (insert (v, o) followed) (o.2 :: s.closing) a b ↔
      Keeps followed s.closing a b := by
    intro a b
    constructor
    · rintro ⟨e, he, hc⟩
      obtain ⟨hne, hc⟩ := not_or.1 (List.mem_cons.not.1 hc)
      rcases Set.mem_insert_iff.1 he with he | he
      · cases he; exact absurd rfl hne
      · exact ⟨e, he, hc⟩
    · rintro ⟨e, he, hc⟩
      refine ⟨e, Set.mem_insert_of_mem _ he, fun hm => ?_⟩
      rcases List.mem_cons.1 hm with rfl | hm
      · exact h.number_ne hN he rfl
      · exact hc hm
  have hmono : ∀ a b n, Walk (Keeps followed s.closing) a b n →
      Walk (Keeps (insert (v, o) followed) (o.2 :: s.closing)) a b n :=
    fun a b n w => w.mono fun c d hcd => (hkeeps c d).2 hcd
  refine ⟨h.size, h.nodup, h.grey, h.mem_outs_insert, h.met_insert (by rw [hg]; simp),
    h.frame_insert, h.black_insert _, ?down, ?closing, ?acyclic, ?walks⟩
  case down => exact fun w t hb hwt => h.down w t hb ((hkeeps w t).1 hwt)
  case closing =>
    intro e he
    rcases List.mem_cons.1 he with rfl | he
    · obtain ⟨n, hn⟩ := h.walk_head ((h.grey o.1).1 hg)
      exact ⟨v, o.1, Set.mem_insert _ _, n, hmono o.1 v n hn⟩
    · obtain ⟨a, t, hat, n, hn⟩ := h.closing e he
      exact ⟨a, t, Set.mem_insert_of_mem _ hat, n, hmono t a n hn⟩
  case acyclic => exact h.acyclic.mono fun a b => (hkeeps a b).1
  case walks => exact h.walks.imp fun ⟨n, hn⟩ => ⟨n, hmono _ _ n hn⟩

/-- An edge to a black node is kept: nothing black reaches the node on top of the stack. -/
theorem pass (hN : Numbered outgoing) (h : Sound outgoing followed s ((v, o :: rest) :: stack))
    (hb : s.colours[o.1]? = some .black) :
    Sound outgoing (insert (v, o) followed) s ((v, rest) :: stack) := by
  have hacyclic : Acyclic (Keeps (insert (v, o) followed) s.closing) := by
    refine h.acyclic_insert hN fun n hn => ?_
    have hv := hn.closed h.down hb
    rw [h.grey_head] at hv
    cases hv
  exact ⟨h.size, h.nodup, h.grey, h.mem_outs_insert, h.met_insert (by rw [hb]; simp),
    h.frame_insert, h.black_insert _, h.down_insert hN, h.closing_insert hN, hacyclic,
    h.walks_insert hN⟩

/-- **A turn keeps the invariant.** -/
theorem turn (hN : Numbered outgoing) {c : State × Stack} (h : Sound outgoing followed c.1 c.2) :
    ∃ followed', Sound outgoing followed' (turn outgoing c).1 (turn outgoing c).2 := by
  obtain ⟨s, stack⟩ := c
  match stack with
  | [] => exact ⟨followed, h⟩
  | (v, []) :: stack => exact ⟨followed, h.leave hN⟩
  | (v, o :: rest) :: stack =>
    refine ⟨insert (v, o) followed, ?_⟩
    by_cases hw : s.colours[o.1]? = some .white
    · rw [turn_white hw]; exact h.enter hN hw
    by_cases hg : s.colours[o.1]? = some .grey
    · rw [turn_grey hg]; exact h.close hN hg
    · have ho : o.1 < s.colours.size := by rw [h.size]; exact hN.target_lt v o h.mem_outs_head
      rw [turn_other hw hg]
      exact h.pass hN (black_of_met ho hw hg)

/-- **A whole search keeps the invariant.** -/
theorem search (hN : Numbered outgoing) (h : Sound outgoing followed s stack) :
    ∃ followed', Sound outgoing followed' (search outgoing s stack) [] := by
  have hturn : ∀ c : State × Stack, (∃ followed', Sound outgoing followed' c.1 c.2) →
      ∃ followed', Sound outgoing followed' (CycleEdges.turn outgoing c).1
        (CycleEdges.turn outgoing c).2 := by
    rintro c ⟨followed', h'⟩
    exact h'.turn hN
  exact search_of_turn hturn ⟨followed, h⟩

/-- A root turns grey and stands alone on the stack. -/
theorem enter_root (h : Sound outgoing followed s []) (hw : s.colours[v]? = some .white) :
    Sound outgoing followed (s.paint v .grey) [(v, outs outgoing v)] := by
  have hmet := fun w => met_paint (s := s) (v := v) (w := w) (show Colour.grey ≠ .white by decide)
  have hblack := black_enter_iff hw
  refine ⟨by rw [size_paint, h.size], by simp, grey_enter_iff hw h.grey, h.mem_outs, ?met, ?frame,
    ?black, ?down, h.closing, h.acyclic, by simp⟩
  case met => exact fun w p hp => ⟨hmet w (h.met w p hp).1, hmet p.1 (h.met w p hp).2⟩
  case frame =>
    intro f hf
    obtain rfl := List.mem_singleton.1 hf
    refine ⟨[], rfl, fun p => ?_⟩
    simp only [List.not_mem_nil, iff_false]
    exact fun hp => (h.met v p hp).1 hw
  case black => exact fun w hb => h.black w ((hblack w).1 hb)
  case down => exact fun w t hb hwt => (hblack t).2 (h.down w t ((hblack w).1 hb) hwt)

theorem searchRoot (hN : Numbered outgoing) (h : Sound outgoing followed s []) (root : ℕ) :
    ∃ followed', Sound outgoing followed' (searchRoot outgoing s root) [] := by
  unfold CycleEdges.searchRoot
  split
  next hw => exact (h.enter_root hw).search hN
  next => exact ⟨followed, h⟩

/-- Before the first root nothing is followed. -/
theorem init (outgoing : Array (List Out)) :
    Sound outgoing ∅ { colours := Array.replicate outgoing.size .white } [] := by
  have hwhite : ∀ (v : ℕ) (c : Colour), c ≠ .white →
      (Array.replicate outgoing.size Colour.white)[v]? ≠ some c := by
    intro v c hc
    rw [Array.getElem?_replicate]
    split <;> simp [Ne.symm hc]
  have hkeeps : ∀ a b, ¬ Keeps (∅ : Set (ℕ × Out)) [] a b := fun a b ⟨_, he, _⟩ => he
  refine ⟨by simp, by simp, fun v => ?_, by simp, by simp, by simp, ?_, ?_, by simp, ?_, by simp⟩
  · simpa using hwhite v .grey (by decide)
  · exact fun v hv => absurd hv (hwhite v .black (by decide))
  · exact fun v t hv => absurd hv (hwhite v .black (by decide))
  · intro a n w
    cases w with
    | nil => rfl
    | snoc _ h => exact absurd h (hkeeps _ _)

end Sound

/-! ## From all roots -/

theorem met_turn {c : State × Stack} {w : ℕ} (hw : c.1.colours[w]? ≠ some .white) :
    (turn outgoing c).1.colours[w]? ≠ some .white := by
  obtain ⟨s, stack⟩ := c
  match stack with
  | [] => exact hw
  | (v, []) :: stack => exact met_paint (by decide) hw
  | (v, o :: rest) :: stack =>
    by_cases h₁ : s.colours[o.1]? = some .white
    · rw [turn_white h₁]; exact met_paint (by decide) hw
    by_cases h₂ : s.colours[o.1]? = some .grey
    · rw [turn_grey h₂]; exact hw
    · rw [turn_other h₁ h₂]; exact hw

theorem met_search {w : ℕ} (hw : s.colours[w]? ≠ some .white) :
    (search outgoing s stack).colours[w]? ≠ some .white :=
  search_of_turn (P := fun c => c.1.colours[w]? ≠ some .white) (fun _ h => met_turn h) hw

/-- A search from a root meets the root, and what was met stays so. -/
theorem met_searchRoot {root w : ℕ} (hw : w = root ∨ s.colours[w]? ≠ some .white) :
    (searchRoot outgoing s root).colours[w]? ≠ some .white := by
  unfold searchRoot
  split
  next h =>
    apply met_search
    rcases hw with rfl | hw
    · rw [colours_paint _ _ _ _ (Array.getElem?_eq_some_iff.1 h).1]; simp
    · exact met_paint (by decide) hw
  next h =>
    rcases hw with rfl | hw
    · exact h
    · exact hw

/-- After the search from some roots, the roots are met and the invariant holds. -/
theorem foldl_searchRoot (hN : Numbered outgoing) (roots : List ℕ) :
    ∀ s followed, Sound outgoing followed s [] →
      (∃ followed', Sound outgoing followed' (roots.foldl (searchRoot outgoing) s) []) ∧
      ∀ w, w ∈ roots ∨ s.colours[w]? ≠ some .white →
        (roots.foldl (searchRoot outgoing) s).colours[w]? ≠ some .white := by
  induction roots with
  | nil => exact fun s followed h => ⟨⟨followed, h⟩, fun w hw => by simpa using hw⟩
  | cons root roots ih =>
    intro s followed h
    obtain ⟨followed', h'⟩ := h.searchRoot hN root
    obtain ⟨h₁, h₂⟩ := ih _ _ h'
    refine ⟨h₁, fun w hw => h₂ w ?_⟩
    rw [List.mem_cons, or_assoc] at hw
    rcases hw with hw | hw | hw
    · exact Or.inr (met_searchRoot (Or.inl hw))
    · exact Or.inl hw
    · exact Or.inr (met_searchRoot (Or.inr hw))

/-- An edge not found to close a cycle leads from `v` to `t`. -/
def Kept (outgoing : Array (List Out)) (v t : ℕ) : Prop :=
  ∃ e, (t, e) ∈ outs outgoing v ∧ e ∉ find outgoing

/-- In the end all edges were followed. -/
theorem exists_sound_find (hN : Numbered outgoing) :
    ∃ s followed, Sound outgoing followed s [] ∧ find outgoing = s.closing ∧
      ∀ v t, Keeps followed s.closing v t ↔ Kept outgoing v t := by
  obtain ⟨⟨followed, h⟩, hmet⟩ := foldl_searchRoot hN (roots outgoing) _ _ (Sound.init outgoing)
  refine ⟨_, followed, h, rfl, fun v t => ⟨?_, ?_⟩⟩
  · rintro ⟨e, he, hc⟩
    exact ⟨e, h.mem_outs _ _ he, hc⟩
  · rintro ⟨e, he, hc⟩
    have hv : v < outgoing.size := lt_of_mem_outs he
    -- the stack is empty, so a node that was met is black
    refine ⟨e, h.black v (black_of_met (by rw [h.size]; exact hv) (hmet v (Or.inl ?_)) ?_) _ he, hc⟩
    · exact List.mem_append_right _ (List.mem_range.2 hv)
    · rw [ne_eq, h.grey]; simp

/-- **Without the edges found there is no cycle.** -/
theorem acyclic_kept (hN : Numbered outgoing) : Acyclic (Kept outgoing) := by
  obtain ⟨s, followed, h, -, hkept⟩ := exists_sound_find hN
  exact h.acyclic.mono fun v t => (hkept v t).2

/-- **Each edge found closes a cycle** of which it is the only edge found. -/
theorem closing_walk (hN : Numbered outgoing) {e : ℕ} (he : e ∈ find outgoing) :
    ∃ v t, (t, e) ∈ outs outgoing v ∧ ∃ n, Walk (Kept outgoing) t v n := by
  obtain ⟨s, followed, h, hfind, hkept⟩ := exists_sound_find hN
  rw [hfind] at he
  obtain ⟨v, t, hvt, n, hn⟩ := h.closing e he
  exact ⟨v, t, h.mem_outs _ _ hvt, n, hn.mono fun a b => (hkept a b).1⟩

end DataLineage.CycleEdges
