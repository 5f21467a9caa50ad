import DataLineage.Proofs.DepthFirst

/-!
# Edges a search can do without

A depth-first search that enters a set of nodes which no edge leaves comes back with nothing changed
outside, and an edge from a node to itself leads to no new node. So what the search finds outside
such a set `D` it finds on the table without these edges too, from the roots outside `D`. The search
on the whole table stands still on the thinned one while it is inside `D` or at an edge left out,
and takes the same turn otherwise.

* `Follows.turn`: a turn on the whole table is a turn on the thinned one, or none.
* `Follows.search`: so is a whole search.
* `find_filterMap`: what is found on a table, by what is found on the thinned one.
* `filter_roots_congr`: the roots outside `D` depend on which nodes have an edge into them.
-/

namespace DataLineage.CycleEdges

variable {outgoing thinned : Array (List Out)} {D : Set ℕ} {f : ℕ → Option ℕ} {s s' : State}
  {stack stack' : Stack} {v : ℕ} {o : Out}

/-- The edges that have a new number, under it. -/
def thin (f : ℕ → Option ℕ) (outs : List Out) : List Out :=
  outs.filterMap fun o => (f o.2).map fun e => (o.1, e)

/-- **A thinned table.** No edge leaves `D`, and the edges out of the other nodes are those that
lead neither into `D` nor from a node to itself. -/
structure Thins (D : Set ℕ) (f : ℕ → Option ℕ) (outgoing thinned : Array (List Out)) : Prop where
  size : thinned.size = outgoing.size
  closed : ∀ v ∈ D, ∀ o ∈ outs outgoing v, o.1 ∈ D
  dropped : ∀ v, ∀ o ∈ outs outgoing v, f o.2 = none ↔ o.1 ∈ D ∨ o.1 = v
  outs : ∀ v ∉ D, outs thinned v = thin f (outs outgoing v)

open scoped Classical in
/-- The frames outside `D`, with the edges that are not left out. -/
noncomputable def thinStack (D : Set ℕ) (f : ℕ → Option ℕ) (stack : Stack) : Stack :=
  (stack.filter fun frame => frame.1 ∉ D).map fun frame => (frame.1, thin f frame.2)

/-- How a search on the thinned table stands beside one on the whole table. -/
structure Follows (D : Set ℕ) (f : ℕ → Option ℕ) (outgoing : Array (List Out))
    (c c' : State × Stack) : Prop where
  colours : ∀ w ∉ D, c'.1.colours[w]? = c.1.colours[w]?
  closing : c'.1.closing = c.1.closing.filterMap f
  stack : c'.2 = thinStack D f c.2
  met : ∀ frame ∈ c.2, c.1.colours[frame.1]? ≠ some .white
  rest : ∀ frame ∈ c.2, ∀ o ∈ frame.2, o ∈ outs outgoing frame.1

theorem thin_cons_none (h : f o.2 = none) (rest : List Out) : thin f (o :: rest) = thin f rest := by
  simp [thin, h]

theorem thin_cons_some {e : ℕ} (h : f o.2 = some e) (rest : List Out) :
    thin f (o :: rest) = (o.1, e) :: thin f rest := by
  simp [thin, h]

theorem thinStack_cons_mem (hv : v ∈ D) (rest : List Out) :
    thinStack D f ((v, rest) :: stack) = thinStack D f stack := by
  simp [thinStack, hv]

theorem thinStack_cons_notMem (hv : v ∉ D) (rest : List Out) :
    thinStack D f ((v, rest) :: stack) = (v, thin f rest) :: thinStack D f stack := by
  simp [thinStack, hv]

/-- Painting a node in both of two states keeps their colours alike. -/
theorem colours_paint_congr {w : ℕ} (v : ℕ) (colour : Colour)
    (h : s'.colours[w]? = s.colours[w]?) :
    (s'.paint v colour).colours[w]? = (s.paint v colour).colours[w]? := by
  by_cases hvw : v = w
  · subst hvw
    have hle : s'.colours.size ≤ v ↔ s.colours.size ≤ v := by
      rw [← Array.getElem?_eq_none_iff, ← Array.getElem?_eq_none_iff, h]
    have hlt : v < s'.colours.size ↔ v < s.colours.size := by omega
    simp only [State.paint, Array.getElem?_setIfInBounds, hlt, if_true]
  · simpa only [State.paint, Array.getElem?_setIfInBounds, if_neg hvw] using h

/-- Painting a node of `D` is not seen outside. -/
theorem colours_paint_of_mem {w : ℕ} (hv : v ∈ D) (hw : w ∉ D) (colour : Colour) :
    (s.paint v colour).colours[w]? = s.colours[w]? := by
  have hne : v ≠ w := fun heq => hw (heq ▸ hv)
  simp only [State.paint, Array.getElem?_setIfInBounds, if_neg hne]

namespace Follows

variable {rest : List Out} {c c' : State × Stack}

/-- A node without edges left turns black on both sides, or inside `D`. -/
theorem leave (h : Follows D f outgoing (s, (v, []) :: stack) (s', stack')) :
    Follows D f outgoing (s.paint v .black, stack) (s', stack') ∨
      Follows D f outgoing (s.paint v .black, stack) (turn thinned (s', stack')) := by
  have hmet : ∀ frame ∈ stack, (s.paint v .black).colours[frame.1]? ≠ some .white :=
    fun frame hframe => met_paint (by decide) (h.met frame (List.mem_cons_of_mem _ hframe))
  have hrest := fun frame hframe => h.rest frame (List.mem_cons_of_mem _ hframe)
  by_cases hv : v ∈ D
  · left
    refine ⟨fun w hw => ?_, h.closing, ?_, hmet, hrest⟩
    · rw [colours_paint_of_mem hv hw]
      exact h.colours w hw
    · rw [h.stack, thinStack_cons_mem hv]
  · right
    obtain rfl : stack' = (v, []) :: thinStack D f stack :=
      h.stack.trans (thinStack_cons_notMem hv [])
    exact ⟨fun w hw => colours_paint_congr v .black (h.colours w hw), h.closing, rfl, hmet, hrest⟩

/-- Taking an edge from the frame on top leaves the other frames. -/
theorem rest_tail (h : Follows D f outgoing (s, (v, o :: rest) :: stack) c') :
    ∀ frame ∈ (v, rest) :: stack, ∀ p ∈ frame.2, p ∈ outs outgoing frame.1 := by
  intro frame hframe p hp
  rcases List.mem_cons.1 hframe with rfl | hframe
  · exact h.rest _ List.mem_cons_self p (List.mem_cons_of_mem o hp)
  · exact h.rest frame (List.mem_cons_of_mem _ hframe) p hp

theorem met_tail (h : Follows D f outgoing (s, (v, o :: rest) :: stack) c') :
    ∀ frame ∈ (v, rest) :: stack, s.colours[frame.1]? ≠ some .white := by
  intro frame hframe
  rcases List.mem_cons.1 hframe with rfl | hframe
  · exact h.met (v, o :: rest) List.mem_cons_self
  · exact h.met frame (List.mem_cons_of_mem _ hframe)

/-- The frames stay met and within the table when a node is entered. -/
theorem met_enter (h : Follows D f outgoing (s, (v, o :: rest) :: stack) c')
    (ho : s.colours[o.1]? = some .white) :
    ∀ frame ∈ (o.1, outs outgoing o.1) :: (v, rest) :: stack,
      (s.paint o.1 .grey).colours[frame.1]? ≠ some .white := by
  intro frame hframe
  rcases List.mem_cons.1 hframe with rfl | hframe
  · rw [colours_paint _ _ _ _ (Array.getElem?_eq_some_iff.1 ho).1]
    simp
  · exact met_paint (by decide) (h.met_tail frame hframe)

theorem rest_enter (h : Follows D f outgoing (s, (v, o :: rest) :: stack) c') :
    ∀ frame ∈ (o.1, outs outgoing o.1) :: (v, rest) :: stack,
      ∀ p ∈ frame.2, p ∈ outs outgoing frame.1 := by
  intro frame hframe
  rcases List.mem_cons.1 hframe with rfl | hframe
  · exact fun p hp => hp
  · exact h.rest_tail frame hframe

/-- The thinned table does not have the edge. Its target is in `D` or was met. -/
theorem pass (hT : Thins D f outgoing thinned)
    (h : Follows D f outgoing (s, (v, o :: rest) :: stack) c') (hf : f o.2 = none) :
    Follows D f outgoing (turn outgoing (s, (v, o :: rest) :: stack)) c' := by
  have hstack : c'.2 = thinStack D f ((v, rest) :: stack) := by
    by_cases hv : v ∈ D
    · rw [h.stack, thinStack_cons_mem hv, thinStack_cons_mem hv]
    · rw [h.stack, thinStack_cons_notMem hv, thinStack_cons_notMem hv, thin_cons_none hf]
  by_cases hw : s.colours[o.1]? = some .white
  · have ho : o.1 ∈ D := by
      rcases (hT.dropped v o (h.rest _ List.mem_cons_self o List.mem_cons_self)).1 hf with ho | ho
      · exact ho
      · exact absurd (ho ▸ hw) (h.met _ List.mem_cons_self)
    rw [turn_white hw]
    refine ⟨fun w hwD => ?_, h.closing, ?_, h.met_enter hw, h.rest_enter⟩
    · rw [colours_paint_of_mem ho hwD]
      exact h.colours w hwD
    · rw [hstack, thinStack_cons_mem ho]
  by_cases hg : s.colours[o.1]? = some .grey
  · rw [turn_grey hg]
    refine ⟨h.colours, ?_, hstack, h.met_tail, h.rest_tail⟩
    rw [List.filterMap_cons_none hf]
    exact h.closing
  · rw [turn_other hw hg]
    exact ⟨h.colours, h.closing, hstack, h.met_tail, h.rest_tail⟩

/-- Both tables have the edge, and both searches see the same colour at its target. -/
theorem along (hT : Thins D f outgoing thinned)
    (h : Follows D f outgoing (s, (v, o :: rest) :: stack) (s', stack')) {e : ℕ}
    (hf : f o.2 = some e) :
    Follows D f outgoing (turn outgoing (s, (v, o :: rest) :: stack))
      (turn thinned (s', stack')) := by
  have hmem := h.rest _ List.mem_cons_self o List.mem_cons_self
  have hnot : ¬ (o.1 ∈ D ∨ o.1 = v) := by
    rw [← hT.dropped v o hmem, hf]
    simp
  rw [not_or] at hnot
  have ho := hnot.1
  have hv : v ∉ D := fun hv => ho (hT.closed v hv o hmem)
  obtain rfl : stack' = (v, (o.1, e) :: thin f rest) :: thinStack D f stack := by
    rw [← thin_cons_some hf, ← thinStack_cons_notMem hv]
    exact h.stack
  have htail : (v, thin f rest) :: thinStack D f stack = thinStack D f ((v, rest) :: stack) :=
    (thinStack_cons_notMem hv rest).symm
  have hcolour := h.colours o.1 ho
  by_cases hw : s.colours[o.1]? = some .white
  · rw [turn_white hw, turn_white (o := (o.1, e)) (hcolour.trans hw), htail]
    refine ⟨fun w hwD => colours_paint_congr o.1 .grey (h.colours w hwD), h.closing, ?_,
      h.met_enter hw, h.rest_enter⟩
    rw [thinStack_cons_notMem ho, hT.outs o.1 ho]
  by_cases hg : s.colours[o.1]? = some .grey
  · rw [turn_grey hg, turn_grey (o := (o.1, e)) (hcolour.trans hg), htail]
    refine ⟨h.colours, ?_, rfl, h.met_tail, h.rest_tail⟩
    rw [List.filterMap_cons_some hf]
    exact congrArg (e :: ·) h.closing
  · rw [turn_other hw hg, turn_other (o := (o.1, e)) (hcolour ▸ hw) (hcolour ▸ hg), htail]
    exact ⟨h.colours, h.closing, rfl, h.met_tail, h.rest_tail⟩

/-- **A turn on the whole table** is a turn on the thinned one, or none. -/
theorem turn (hT : Thins D f outgoing thinned) (h : Follows D f outgoing c c') :
    Follows D f outgoing (turn outgoing c) c' ∨
      Follows D f outgoing (turn outgoing c) (turn thinned c') := by
  obtain ⟨s, stack⟩ := c
  match stack with
  | [] => exact Or.inl h
  | (v, []) :: stack => exact h.leave
  | (v, o :: rest) :: stack =>
    cases hf : f o.2 with
    | none => exact Or.inl (h.pass hT hf)
    | some e => exact Or.inr (h.along hT hf)

/-- **A search on the whole table** ends beside the search on the thinned one. -/
theorem search (hT : Thins D f outgoing thinned)
    (h : Follows D f outgoing (s, stack) (s', stack')) :
    Follows D f outgoing (search outgoing s stack, []) (search thinned s' stack', []) := by
  have hend : ∃ c', Follows D f outgoing (CycleEdges.search outgoing s stack, []) c' ∧
      CycleEdges.search thinned c'.1 c'.2 = CycleEdges.search thinned s' stack' := by
    refine search_of_turn (P := fun c => ∃ c', Follows D f outgoing c c' ∧
      CycleEdges.search thinned c'.1 c'.2 = CycleEdges.search thinned s' stack') ?_ ⟨_, h, rfl⟩
    rintro c ⟨c', hc, hsearch⟩
    rcases hc.turn hT with hc | hc
    · exact ⟨c', hc, hsearch⟩
    · exact ⟨CycleEdges.turn thinned c', hc, (search_turn thinned c').trans hsearch⟩
  obtain ⟨⟨t, stack''⟩, ht, hsearch⟩ := hend
  obtain rfl : stack'' = [] := ht.stack
  rw [← hsearch, CycleEdges.search]
  exact ht

/-- A root is met when it is entered. -/
theorem met_root (hw : s.colours[v]? = some .white) :
    ∀ frame ∈ [(v, outs outgoing v)], (s.paint v .grey).colours[frame.1]? ≠ some .white := by
  intro frame hframe
  obtain rfl := List.mem_singleton.1 hframe
  rw [colours_paint _ _ _ _ (Array.getElem?_eq_some_iff.1 hw).1]
  simp

/-- A root outside `D` is searched from on both sides. -/
theorem searchRoot (hT : Thins D f outgoing thinned) (h : Follows D f outgoing (s, []) (s', []))
    (hv : v ∉ D) :
    Follows D f outgoing (searchRoot outgoing s v, []) (searchRoot thinned s' v, []) := by
  unfold CycleEdges.searchRoot
  rw [h.colours v hv]
  split_ifs with hw
  · have hstart : Follows D f outgoing (s.paint v .grey, [(v, outs outgoing v)])
        (s'.paint v .grey, [(v, outs thinned v)]) := by
      refine ⟨fun w hwD => colours_paint_congr v .grey (h.colours w hwD), h.closing, ?_,
        met_root hw, by simp⟩
      rw [thinStack_cons_notMem hv, hT.outs v hv]
      rfl
    exact hstart.search hT
  · exact h

/-- The search from a root in `D` is not seen on the thinned table. -/
theorem searchRoot_of_mem (hT : Thins D f outgoing thinned)
    (h : Follows D f outgoing (s, []) (s', [])) (hv : v ∈ D) :
    Follows D f outgoing (CycleEdges.searchRoot outgoing s v, []) (s', []) := by
  unfold CycleEdges.searchRoot
  split_ifs with hw
  · have hstart : Follows D f outgoing (s.paint v .grey, [(v, outs outgoing v)]) (s', []) := by
      refine ⟨fun w hwD => ?_, h.closing, ?_, met_root hw, by simp⟩
      · rw [colours_paint_of_mem hv hwD]
        exact h.colours w hwD
      · rw [thinStack_cons_mem hv]
        rfl
    have hsearch := hstart.search hT
    rwa [CycleEdges.search.eq_def thinned s' []] at hsearch
  · exact h

open scoped Classical in
theorem foldl_searchRoot (hT : Thins D f outgoing thinned) (roots : List ℕ)
    (h : Follows D f outgoing (s, []) (s', [])) :
    Follows D f outgoing (roots.foldl (CycleEdges.searchRoot outgoing) s, [])
      ((roots.filter fun v => v ∉ D).foldl (CycleEdges.searchRoot thinned) s', []) := by
  induction roots generalizing s s' with
  | nil => exact h
  | cons v roots ih =>
    by_cases hv : v ∈ D
    · rw [List.filter_cons_of_neg (by simpa using hv), List.foldl_cons]
      exact ih (h.searchRoot_of_mem hT hv)
    · rw [List.filter_cons_of_pos (by simpa using hv), List.foldl_cons, List.foldl_cons]
      exact ih (h.searchRoot hT hv)

end Follows

open scoped Classical in
/-- **What is found on a table**, apart from the edges left out, is found on the thinned one from
the roots outside `D`. -/
theorem find_filterMap (hT : Thins D f outgoing thinned) :
    (find outgoing).filterMap f =
      (((roots outgoing).filter fun v => v ∉ D).foldl (searchRoot thinned)
        { colours := Array.replicate outgoing.size .white }).closing := by
  have hstart : Follows D f outgoing ({ colours := Array.replicate outgoing.size .white }, [])
      ({ colours := Array.replicate outgoing.size .white }, []) :=
    ⟨fun _ _ => rfl, rfl, rfl, by simp, by simp⟩
  exact (hstart.foldl_searchRoot hT (roots outgoing)).closing.symm

/-! ## Roots -/

/-- Whether an edge of the table leads to a node. -/
def LedTo (outgoing : Array (List Out)) (w : ℕ) : Prop := ∃ v, ∃ o ∈ outs outgoing v, o.1 = w

theorem getElem?_foldl_count (outs : List Out) (degrees : Array ℕ) (w : ℕ) :
    (outs.foldl (fun degrees out => degrees.modify out.1 (· + 1)) degrees)[w]? =
      degrees[w]?.map (· + outs.countP fun o => o.1 = w) := by
  induction outs generalizing degrees with
  | nil => simp
  | cons o outs ih =>
    rw [List.foldl_cons, ih, Array.getElem?_modify, List.countP_cons]
    by_cases ho : o.1 = w
    · simp only [ho, if_true, Option.map_map, decide_true]
      congr 1
      funext d
      simp only [Function.comp_apply]
      omega
    · simp [ho]

/-- The nodes counted as without incoming edges are those no edge leads to. -/
theorem inDegrees_eq_zero_iff {w : ℕ} (hw : w < outgoing.size) :
    (inDegrees outgoing)[w]? = some 0 ↔ ¬ LedTo outgoing w := by
  have hcount : (inDegrees outgoing)[w]? =
      some (outgoing.toList.flatten.countP fun o => o.1 = w) := by
    rw [inDegrees, ← Array.foldl_toList, ← List.foldl_flatten, getElem?_foldl_count]
    simp [hw]
  have hmem : ∀ o, o ∈ outgoing.toList.flatten ↔ ∃ v, o ∈ outs outgoing v := by
    intro o
    rw [List.mem_flatten]
    constructor
    · rintro ⟨row, hrow, ho⟩
      obtain ⟨v, hv⟩ := Array.getElem?_of_mem (Array.mem_toList_iff.1 hrow)
      exact ⟨v, by rwa [outs, hv]⟩
    · rintro ⟨v, ho⟩
      have hv := lt_of_mem_outs ho
      rw [outs, Array.getElem?_eq_getElem hv] at ho
      exact ⟨outgoing[v], Array.mem_toList_iff.2 (Array.getElem_mem hv), ho⟩
  rw [hcount, Option.some.injEq, List.countP_eq_zero]
  simp only [hmem, LedTo, decide_eq_true_eq, not_exists, not_and, forall_exists_index]
  exact forall_comm

open scoped Classical in
/-- **The roots outside `D`** depend on which nodes outside `D` have an edge into them. -/
theorem filter_roots_congr {other : Array (List Out)} (hsize : outgoing.size = other.size)
    (h : ∀ w ∉ D, LedTo outgoing w ↔ LedTo other w) :
    ((roots outgoing).filter fun v => v ∉ D) = (roots other).filter fun v => v ∉ D := by
  have hfirst : ((List.range outgoing.size).filter
        fun v => (inDegrees outgoing)[v]? == some 0).filter (fun v => v ∉ D) =
      ((List.range outgoing.size).filter
        fun v => (inDegrees other)[v]? == some 0).filter (fun v => v ∉ D) := by
    rw [List.filter_filter, List.filter_filter]
    refine List.filter_congr fun v hv => ?_
    have hv := List.mem_range.1 hv
    by_cases hD : v ∈ D
    · simp [hD]
    · have hzero : (inDegrees outgoing)[v]? = some 0 ↔ (inDegrees other)[v]? = some 0 := by
        rw [inDegrees_eq_zero_iff hv, inDegrees_eq_zero_iff (hsize ▸ hv), h v hD]
      rw [Bool.eq_iff_iff]
      simp only [hD, not_false_eq_true, decide_true, Bool.true_and, beq_iff_eq, hzero]
  simp only [roots, List.filter_append, hfirst, ← hsize]

/-- **Two tables with one thinned table** have the same edges found among those that are not left
out, if the nodes outside `D` that edges lead to are the same. -/
theorem mem_find_iff {other : Array (List Out)} {f' : ℕ → Option ℕ} {i j k : ℕ}
    (hT : Thins D f outgoing thinned) (hT' : Thins D f' other thinned)
    (hf : ∀ i j k, f i = some k → f j = some k → i = j)
    (hf' : ∀ i j k, f' i = some k → f' j = some k → i = j)
    (hled : ∀ w ∉ D, LedTo outgoing w ↔ LedTo other w) (hi : f i = some k) (hj : f' j = some k) :
    i ∈ find outgoing ↔ j ∈ find other := by
  have hsize : outgoing.size = other.size := hT.size.symm.trans hT'.size
  have hsame : (find outgoing).filterMap f = (find other).filterMap f' := by
    rw [find_filterMap hT, find_filterMap hT', filter_roots_congr hsize hled, hsize]
  have hmem : i ∈ find outgoing ↔ k ∈ (find outgoing).filterMap f := by
    rw [List.mem_filterMap]
    exact ⟨fun h => ⟨i, h, hi⟩, fun ⟨i', h, hi'⟩ => hf i' i k hi' hi ▸ h⟩
  have hmem' : j ∈ find other ↔ k ∈ (find other).filterMap f' := by
    rw [List.mem_filterMap]
    exact ⟨fun h => ⟨j, h, hj⟩, fun ⟨j', h, hj'⟩ => hf' j' j k hj' hj ▸ h⟩
  rw [hmem, hmem', hsame]

end DataLineage.CycleEdges
