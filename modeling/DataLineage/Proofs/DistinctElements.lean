import Mathlib.Data.List.Induction
import Mathlib.Data.List.Nodup

/-!
# Lists with each element once

`List.eraseDups` keeps each element where it first comes.

* `eraseDups_concat`: one element more, at the end.
* `eraseDups_map`: a map that keeps elements apart keeps the places where they first come.
-/

namespace DataLineage

variable {α β : Type*} [BEq α] [LawfulBEq α] [BEq β] [LawfulBEq β] {xs : List α}

/-- What came before adds nothing to the distinct elements. -/
theorem eraseDups_concat (xs : List α) (x : α) :
    (xs ++ [x]).eraseDups = xs.eraseDups ++ if x ∈ xs then [] else [x] := by
  rw [List.eraseDups_append]
  by_cases hmem : x ∈ xs <;> simp [List.removeAll, hmem, List.eraseDups_cons]

theorem nodup_eraseDups (xs : List α) : xs.eraseDups.Nodup := by
  induction xs using List.reverseRecOn with
  | nil => simp
  | append_singleton xs x ih =>
    rw [eraseDups_concat]
    by_cases hmem : x ∈ xs
    · rwa [if_pos hmem, List.append_nil]
    · rw [if_neg hmem, List.nodup_append]
      refine ⟨ih, List.nodup_singleton x, ?_⟩
      intro a ha b hb
      obtain rfl := List.mem_singleton.1 hb
      rintro rfl
      exact hmem (List.mem_eraseDups.1 ha)

/-- Elements that a map keeps apart first come where their images do. -/
theorem eraseDups_map {f : α → β} (hf : ∀ a ∈ xs, ∀ b ∈ xs, f a = f b → a = b) :
    (xs.map f).eraseDups = xs.eraseDups.map f := by
  induction xs using List.reverseRecOn with
  | nil => simp
  | append_singleton xs x ih =>
    have hfront : ∀ a ∈ xs, ∀ b ∈ xs, f a = f b → a = b := fun a ha b hb =>
      hf a (List.mem_append_left _ ha) b (List.mem_append_left _ hb)
    have hmem : f x ∈ xs.map f ↔ x ∈ xs := by
      refine ⟨fun h => ?_, List.mem_map_of_mem⟩
      obtain ⟨a, ha, hax⟩ := List.mem_map.1 h
      rwa [← hf a (List.mem_append_left _ ha) x (by simp) hax]
    rw [List.map_append, List.map_singleton, eraseDups_concat, eraseDups_concat, ih hfront,
      List.map_append]
    by_cases hx : x ∈ xs
    · rw [if_pos hx, if_pos (hmem.2 hx)]
      rfl
    · rw [if_neg hx, if_neg (hmem.not.2 hx)]
      rfl

end DataLineage
