import Mathlib.Data.Fintype.Pigeonhole
import Mathlib.Logic.Function.Iterate
import Mathlib.Order.Bounds.Basic

/-!
# Walks

Walks along a relation, with their number of steps, and relations without cycles.

* `Walk.exists_isLeast_of_le`: on the way to a node at some distance there is one at each less one.
* `Walk.lt_card_of_isLeast`: distances in a finite set are less than the number of its elements.
* `acyclic_of_lt`: a relation along which some measure grows has no cycles.
* `acyclic_or`: one more step keeps a relation free of cycles when no walk leads back over it.
* `Acyclic.exists_source`: in a nonempty finite set, some element has no predecessor in the set.
-/

namespace DataLineage

variable {α β : Type*} {r s : α → α → Prop} {a b c x y : α} {m n : ℕ}

/-- A walk along a relation and its number of steps. -/
inductive Walk (r : α → α → Prop) : α → α → ℕ → Prop
  | nil (a : α) : Walk r a a 0
  | snoc {a b c : α} {n : ℕ} (w : Walk r a b n) (h : r b c) : Walk r a c (n + 1)

/-- Only the empty walk ends where it began. -/
def Acyclic (r : α → α → Prop) : Prop := ∀ a n, Walk r a a n → n = 0

namespace Walk

theorem single (h : r a b) : Walk r a b 1 := .snoc (.nil a) h

theorem append (h₁ : Walk r a b m) (h₂ : Walk r b c n) : Walk r a c (m + n) := by
  induction h₂ with
  | nil => exact h₁
  | snoc _ h ih => exact .snoc ih h

/-- A function that keeps steps keeps walks. -/
theorem map {t : β → β → Prop} (f : α → β) (hf : ∀ a b, r a b → t (f a) (f b))
    (h : Walk r a b n) : Walk t (f a) (f b) n := by
  induction h with
  | nil => exact .nil _
  | snoc _ h ih => exact .snoc ih (hf _ _ h)

theorem mono (hrs : ∀ a b, r a b → s a b) (h : Walk r a b n) : Walk s a b n := h.map id hrs

theorem cons (h : r a b) (w : Walk r b c n) : Walk r a c (n + 1) := by
  rw [Nat.add_comm]
  exact (single h).append w

/-- A walk taken backwards. -/
theorem reverse (w : Walk r a b n) : Walk (fun x y => r y x) b a n := by
  induction w with
  | nil => exact .nil a
  | snoc _ h ih => exact cons h ih

/-- A walk parts after any number of its steps. -/
theorem exists_of_le (w : Walk r a b n) (hm : m ≤ n) : ∃ c, Walk r a c m ∧ Walk r c b (n - m) := by
  induction w with
  | nil =>
    obtain rfl : m = 0 := by omega
    exact ⟨a, .nil a, .nil a⟩
  | @snoc b c k w h ih =>
    rcases Nat.eq_or_lt_of_le hm with rfl | hlt
    · refine ⟨c, w.snoc h, ?_⟩
      rw [Nat.sub_self]
      exact .nil c
    · obtain ⟨x, hx, hrest⟩ := ih (by omega)
      refine ⟨x, hx, ?_⟩
      rw [show k + 1 - m = k - m + 1 by omega]
      exact hrest.snoc h

/-- A node that is reached has a distance. -/
theorem exists_isLeast (w : Walk r a b n) : ∃ d ≤ n, IsLeast {k | Walk r a b k} d := by
  classical
  have hex : ∃ k, Walk r a b k := ⟨n, w⟩
  exact ⟨Nat.find hex, Nat.find_min' hex w, Nat.find_spec hex, fun k hk => Nat.find_min' hex hk⟩

/-- **On the way to a node at some distance** there is one at each less distance. -/
theorem exists_isLeast_of_le (h : IsLeast {k | Walk r a b k} n) (hm : m ≤ n) :
    ∃ c, IsLeast {k | Walk r a c k} m := by
  obtain ⟨c, hc, hrest⟩ := exists_of_le h.1 hm
  refine ⟨c, hc, ?_⟩
  intro k hk
  -- a shorter way there would make the whole way shorter
  have hle : n ≤ k + (n - m) := h.2 (hk.append hrest)
  omega

/-- In a finite set that no walk leaves, distances are less than the number of elements. -/
theorem lt_card_of_isLeast {S : Finset α} (hS : ∀ c k, Walk r a c k → c ∈ S)
    (h : IsLeast {k | Walk r a b k} n) : n < S.card := by
  choose f hf using fun m : Fin (n + 1) => exists_isLeast_of_le h (Nat.le_of_lt_succ m.2)
  have hinj : Function.Injective f := by
    intro m m' hmm
    have hm := hf m
    rw [hmm] at hm
    exact Fin.ext (hm.unique (hf m'))
  have hcard : (Finset.univ : Finset (Fin (n + 1))).card ≤ S.card :=
    Finset.card_le_card_of_injOn f (fun m _ => hS (f m) m (hf m).1) hinj.injOn
  rwa [Finset.card_univ, Fintype.card_fin] at hcard

/-- A walk does not leave a set that its steps do not leave. -/
theorem closed {S : α → Prop} (hS : ∀ a b, S a → r a b → S b) (h : Walk r a b n) (ha : S a) :
    S b := by
  induction h with
  | nil => exact ha
  | snoc _ h ih => exact hS _ _ ih h

/-- A walk is one among the nodes picked if all that lead from its start in no more steps are. -/
theorem within {P : α → Prop} (w : Walk r a b n) (hP : ∀ c k, k ≤ n → Walk r a c k → P c) :
    Walk (fun x y => r x y ∧ P x ∧ P y) a b n := by
  induction w with
  | nil => exact .nil _
  | @snoc b c n w h ih =>
    have hb : P b := hP b n (Nat.le_succ n) w
    have hc : P c := hP c (n + 1) (Nat.le_refl _) (w.snoc h)
    exact (ih fun x k hk => hP x k (Nat.le_succ_of_le hk)).snoc ⟨h, hb, hc⟩

/-- A walk with one more step allowed either does without it or goes to it and on from it. -/
theorem or_cases (h : Walk (fun a b => r a b ∨ a = x ∧ b = y) a b n) :
    Walk r a b n ∨ ∃ k m, Walk r a x k ∧ Walk r y b m := by
  induction h with
  | nil => exact Or.inl (.nil _)
  | snoc _ h ih =>
    rcases h with h | ⟨rfl, rfl⟩
    · rcases ih with ih | ⟨k, m, h₁, h₂⟩
      · exact Or.inl (ih.snoc h)
      · exact Or.inr ⟨k, m + 1, h₁, h₂.snoc h⟩
    · rcases ih with ih | ⟨k, m, h₁, -⟩
      · exact Or.inr ⟨_, 0, ih, .nil _⟩
      · exact Or.inr ⟨k, 0, h₁, .nil _⟩

end Walk

theorem Acyclic.mono (h : Acyclic s) (hrs : ∀ a b, r a b → s a b) : Acyclic r :=
  fun a n w => h a n (w.mono hrs)

/-- A relation along which some measure grows has no cycles. -/
theorem acyclic_of_lt (f : α → ℕ) (hf : ∀ a b, r a b → f a < f b) : Acyclic r := by
  have hwalk : ∀ {a b n}, Walk r a b n → f a + n ≤ f b := by
    intro a b n w
    induction w with
    | nil => exact Nat.le_refl _
    | snoc _ h ih =>
      have hlt := hf _ _ h
      omega
  intro a n w
  have hle := hwalk w
  omega

/-- One more step keeps a relation free of cycles when no walk leads back over it. -/
theorem acyclic_or (h : Acyclic r) (hxy : ∀ n, ¬ Walk r y x n) :
    Acyclic (fun a b => r a b ∨ a = x ∧ b = y) := by
  intro a n w
  rcases w.or_cases with w | ⟨k, m, h₁, h₂⟩
  · exact h a n w
  · exact absurd (h₂.append h₁) (hxy _)

/-- A step and a walk back over it are a cycle. -/
theorem Acyclic.not_walk (h : Acyclic r) (hab : r a b) : ¬ Walk r b a n := by
  intro w
  have := h b _ (w.append (.single hab))
  omega

/-- In a nonempty finite set some element has no predecessor in the set. -/
theorem Acyclic.exists_source (h : Acyclic r) {S : Finset α} (hS : S.Nonempty) :
    ∃ b ∈ S, ∀ a ∈ S, ¬ r a b := by
  by_contra hno
  push Not at hno
  -- walking back for ever through a finite set meets an element twice
  choose p hp using fun b : S => hno b b.2
  let back : S → S := fun b => ⟨p b, (hp b).1⟩
  obtain ⟨b, hb⟩ := hS
  have hback : ∀ k (c : S), Walk r (back^[k] c).1 c.1 k := by
    intro k
    induction k with
    | zero => intro c; exact .nil _
    | succ k ih =>
      intro c
      rw [Function.iterate_succ_apply]
      exact (ih (back c)).snoc (hp c).2
  obtain ⟨i, j, hne, hij⟩ := Finite.exists_ne_map_eq_of_infinite (fun k => back^[k] ⟨b, hb⟩)
  wlog hlt : i < j generalizing i j
  · exact this j i hne.symm hij.symm (by omega)
  obtain ⟨k, rfl⟩ : ∃ k, j = k + i := ⟨j - i, by omega⟩
  have hw := hback k (back^[i] ⟨b, hb⟩)
  rw [← Function.iterate_add_apply, ← hij] at hw
  have := h _ _ hw
  omega

end DataLineage
