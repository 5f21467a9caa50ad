import DataLineage.Proofs.KeptEdges

/-!
# Breaking cycles

The edges a layout ignores are just enough to break every cycle: no cycle is left without them, and
each of them closes a cycle with kept edges alone.

* `Layout.ignored_breaks_cycles`: the statement, with the order of the report and the end of the
  search.
-/

namespace DataLineage

namespace Layout

variable {g : Graph} {settings : LayoutSettings}

/-- Picking the entries with certain numbers is picking the entries themselves. -/
theorem filterMap_filter_range {α : Type*} (l : List α) (p : α → Bool) (c : ℕ → Bool)
    (h : ∀ (i : ℕ) x, l[i]? = some x → p x = c i) :
    ((List.range l.length).filter c).filterMap (fun i => l[i]?) = l.filter p := by
  induction l using List.reverseRecOn with
  | nil => rfl
  | append_singleton l x ih =>
    have hx : p x = c l.length := h l.length x (by simp)
    have hl :
        ((List.range l.length).filter c).filterMap (fun i => (l ++ [x])[i]?) = l.filter p := by
      have hl : ∀ (i : ℕ) y, l[i]? = some y → p y = c i := by
        intro i y hy
        apply h
        rw [List.getElem?_append_left (List.getElem?_eq_some_iff.1 hy).1, hy]
      rw [← ih hl]
      apply List.filterMap_congr
      intro i hi
      have := List.mem_range.1 (List.mem_of_mem_filter hi)
      rw [List.getElem?_append_left this]
    rw [List.length_append, List.length_singleton, List.range_succ, List.filter_append,
      List.filterMap_append, hl, List.filter_append]
    cases hc : c l.length <;> simp [hx, hc]

/-- A layout reports the ids of the ignored edges in the order of the edges. -/
theorem ignoredEdges_eq (h : g.Consistent) :
    (ofGraph settings g).ignoredEdges = (ignored settings g).map Edge.id := by
  have hpick : (closingEdges g).filterMap (fun i => g.edges.toList[i]?) = ignored settings g := by
    rw [closingEdges, show g.edges.size = g.edges.toList.length by simp]
    apply filterMap_filter_range
    intro i e he
    rw [Array.getElem?_toList] at he
    rw [Bool.eq_iff_iff, List.contains_iff_mem, List.contains_iff_mem,
      mem_ignoredEdges_iff h he, mem_closingEdges h]
  rw [← hpick, List.map_filterMap]
  simp [ofGraph]

theorem mem_edges_of_ignored {e : Edge} (he : e ∈ ignored settings g) : e ∈ g.edges.toList :=
  List.mem_of_mem_filter he

theorem notMem_ignored_of_kept {e : Edge} (he : e ∈ kept settings g) : e ∉ ignored settings g := by
  intro hi
  have h₁ := (List.mem_filter.1 he).2
  have h₂ := (List.mem_filter.1 hi).2
  rw [h₂] at h₁
  cases h₁

/-- An ignored edge that is put back closes a cycle. -/
theorem not_acyclic_of_ignored (h : g.Consistent) {es : List Edge} {e : Edge}
    (he : e ∈ ignored settings g) (hes : e ∈ es) (hkept : kept settings g ⊆ es) :
    ¬ Acyclic (Joins es) := by
  intro hac
  obtain ⟨n, hn⟩ := walk_of_ignored h he
  refine hac.not_walk ⟨e, hes, rfl, rfl⟩ (hn.mono (n := n) ?_)
  rintro a b ⟨f, hf, hs, ht⟩
  exact ⟨f, hkept hf, hs, ht⟩

/-- **A layout ignores just enough edges to break all cycles.** Without the ignored edges there is
no cycle, each ignored edge closes a cycle of kept edges, so no smaller set will do and none is
ignored in a graph without cycles. They are reported once each, in the order of the edges, and the
search for them comes to an empty stack from wherever it stands, on any table. -/
theorem ignored_breaks_cycles (settings : LayoutSettings) (nodes : List Node) (edges : List Edge) :
    let g := Graph.ofParts nodes edges
    Acyclic (Joins (kept settings g)) ∧
    (∀ e ∈ ignored settings g, ∃ n, Walk (Joins (kept settings g)) e.target e.source n) ∧
    (∀ J ⊆ ignored settings g,
      Acyclic (Joins (g.edges.toList.filter fun e => e ∉ J)) → ignored settings g ⊆ J) ∧
    (ignored settings g = [] ↔ Acyclic (Joins g.edges.toList)) ∧
    (ofGraph settings g).ignoredEdges = (ignored settings g).map Edge.id ∧
    ((ignored settings g).map Edge.id).Nodup ∧
    ∀ (outgoing : Array (List CycleEdges.Out)) (s : CycleEdges.State) (stack : CycleEdges.Stack),
      ∃ k, (CycleEdges.turn outgoing)^[k] (s, stack) =
        (CycleEdges.search outgoing s stack, []) := by
  intro g
  have h : g.Consistent := Graph.consistent_ofParts nodes edges
  refine ⟨acyclic_kept settings h, fun e he => walk_of_ignored h he, fun J hJ hac e he => ?_, ?_,
    ignoredEdges_eq h, ?_, CycleEdges.exists_turns⟩
  · by_contra hnot
    -- an ignored edge that stays closes a cycle with the kept edges, which all stay too
    refine not_acyclic_of_ignored h he ?_ (fun f hf => ?_) hac
    · exact List.mem_filter.2 ⟨mem_edges_of_ignored he, by simpa using hnot⟩
    · refine List.mem_filter.2 ⟨List.mem_of_mem_filter hf, ?_⟩
      simpa using fun hfJ => notMem_ignored_of_kept hf (hJ hfJ)
  · constructor
    · intro hnil
      refine (acyclic_kept settings h).mono ?_
      rintro a b ⟨e, he, hs, ht⟩
      have hnot : e ∉ ignored settings g := by rw [hnil]; simp
      refine ⟨e, List.mem_filter.2 ⟨he, ?_⟩, hs, ht⟩
      rw [Bool.not_eq_true', ← Bool.not_eq_true]
      exact fun hid => hnot (List.mem_filter.2 ⟨he, hid⟩)
    · intro hac
      refine List.eq_nil_iff_forall_not_mem.2 fun e he => ?_
      exact not_acyclic_of_ignored h he (mem_edges_of_ignored he)
        (fun f hf => List.mem_of_mem_filter hf) hac
  · exact (List.filter_sublist.map Edge.id).nodup h.edgeIds

end Layout

end DataLineage
