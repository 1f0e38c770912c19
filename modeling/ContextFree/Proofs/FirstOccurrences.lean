import ContextFree.OrderedSet
import Mathlib.Data.List.Basic
import Mathlib.Data.List.Induction

/-!
# Keeping first occurrences

Keeping the first occurrence of every member of a list goes along with other
things that are done to the list. It may come before or after a filter and an
injective map, and what has been done in the middle makes no difference at the
end: members that are expanded into lists of their own may have lost their
repetitions before (`eraseDups_flatMap`).
-/

namespace ContextFree.OrderedSet

variable {α β : Type} [BEq α] [LawfulBEq α] [BEq β] [LawfulBEq β]

theorem eraseDups_concat (xs : List α) (a : α) :
    (xs ++ [a]).eraseDups = if a ∈ xs then xs.eraseDups else xs.eraseDups ++ [a] := by
  split
  · rw [eraseDups_append_cons_of_mem ‹_›, List.append_nil]
  · simp [List.eraseDups_append, List.removeAll, List.eraseDups_cons, *]

theorem eraseDups_append_of_subset {xs ys : List α} (h : ∀ a ∈ ys, a ∈ xs) :
    (xs ++ ys).eraseDups = xs.eraseDups := by
  have hnone : ys.removeAll xs = [] := by
    simpa [List.removeAll] using h
  rw [List.eraseDups_append, hnone, List.eraseDups_nil, List.append_nil]

theorem eraseDups_append_congr {xs xs' ys : List α} (h : xs.eraseDups = xs'.eraseDups) :
    (xs ++ ys).eraseDups = (xs' ++ ys).eraseDups := by
  have hm : ∀ a, a ∈ xs ↔ a ∈ xs' := fun a => by
    rw [← List.mem_eraseDups, h, List.mem_eraseDups]
  rw [List.eraseDups_append, List.eraseDups_append, h]
  simp only [List.removeAll, List.elem_eq_mem, hm]

theorem eraseDups_flatMap (xs : List α) (f : α → List β) :
    (xs.eraseDups.flatMap f).eraseDups = (xs.flatMap f).eraseDups := by
  induction xs using List.reverseRecOn with
  | nil => rfl
  | append_singleton xs a ih =>
    rw [eraseDups_concat, List.flatMap_append, List.flatMap_singleton]
    split
    · rename_i ha
      rw [ih, eraseDups_append_of_subset fun b hb => List.mem_flatMap.mpr ⟨a, ha, hb⟩]
    · rw [List.flatMap_append, List.flatMap_singleton, eraseDups_append_congr ih]

theorem filter_eraseDups (p : α → Bool) (xs : List α) :
    xs.eraseDups.filter p = (xs.filter p).eraseDups := by
  induction xs using List.reverseRecOn with
  | nil => rfl
  | append_singleton xs a ih =>
    rw [eraseDups_concat]
    by_cases hp : p a <;> by_cases ha : a ∈ xs <;> simp [eraseDups_concat, *]

theorem map_eraseDups {f : α → β} (hf : Function.Injective f) (xs : List α) :
    xs.eraseDups.map f = (xs.map f).eraseDups := by
  induction xs using List.reverseRecOn with
  | nil => rfl
  | append_singleton xs a ih =>
    rw [List.map_append, List.map_singleton, eraseDups_concat, eraseDups_concat]
    simp only [List.mem_map_of_injective hf]
    split <;> simp [ih]

end ContextFree.OrderedSet
