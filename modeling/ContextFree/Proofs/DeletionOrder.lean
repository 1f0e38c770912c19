import ContextFree.Proofs.EmptyWord
import ContextFree.Proofs.RuleLists

/-!
# The order of the rules without ε

Deletion keeps the non-empty productions of a head in their places and puts the
variants that are new behind them: production by production, the variants of
each in their own order, and each at its first occurrence
(`productions_withoutEpsilon`). A variant that is a production already, its own
source among them, or that has come from an earlier production, adds nothing.

As there is no ε then, nothing is nullable, and deleting once more changes
nothing (`withoutEpsilon_exact`).
-/

namespace ContextFree.Grammar

variable {g : Grammar} {nullable : OrderedSet String} {head : String} {p : Production}

def nonempty (g : Grammar) (head : String) : List Production :=
  (g.productions head).filter (· ≠ [])

@[simp] theorem mem_nonempty : p ∈ g.nonempty head ↔ p ∈ g.productions head ∧ p ≠ [] := by
  simp [nonempty]

theorem variantRules_eq (g : Grammar) : g.variantRules nullable = g.heads.flatMap fun head =>
    ((g.nonempty head).flatMap fun p =>
      (Production.variants nullable p).filter (· ≠ p)).map fun q => (head, q) := by
  unfold variantRules
  rw [rules_eq_flatMap, List.filter_flatMap, List.flatMap_assoc]
  refine List.flatMap_congr fun head _ => ?_
  rw [List.filter_map, List.flatMap_map, List.map_flatMap]
  rfl

theorem variantRules_of_head (g : Grammar) (head : String) :
    ((g.variantRules nullable).filter (·.1 = head)).map Prod.snd =
      (g.nonempty head).flatMap fun p => (Production.variants nullable p).filter (· ≠ p) := by
  rw [variantRules_eq]
  refine map_snd_filter_flatMap g.nodup_heads ?_
  by_cases hh : head ∈ g.heads
  · exact Or.inl hh
  · simp [nonempty, productions_of_not_mem hh]

/-- The gain that is new is what is not among the non-empty productions: a variant is never ε, and
the production it comes from is one of them. -/
theorem removeAll_variants (g : Grammar) (head : String) :
    ((g.nonempty head).flatMap fun p => (Production.variants nullable p).filter (· ≠ p)).removeAll
        (g.productions head) =
      ((g.nonempty head).flatMap (Production.variants nullable)).filter
        (· ∉ g.nonempty head) := by
  rw [List.removeAll, List.filter_flatMap, List.filter_flatMap]
  refine List.flatMap_congr fun p hp => ?_
  rw [List.filter_filter]
  refine List.filter_congr fun q hq => ?_
  have hne : q ≠ [] := (Production.mem_variants.mp hq).1
  have hold : q ∉ g.productions head → q ≠ p := by
    rintro hn rfl
    exact hn (mem_nonempty.mp hp).1
  simpa [hne] using hold

theorem productions_withoutEpsilon (g : Grammar) (head : String) :
    g.withoutEpsilon.productions head = g.nonempty head ++
      (((g.nonempty head).flatMap (Production.variants g.nullable)).filter
        (· ∉ g.nonempty head)).eraseDups := by
  rw [withoutEpsilon, productions_removeAll, productions_addAll, variantRules_of_head,
    List.eraseDups_append, OrderedSet.eraseDups_of_nodup (g.nodup_productions head),
    removeAll_variants, List.filter_append]
  congr 1
  · refine List.filter_congr fun p hp => ?_
    simp [hp]
  · -- No variant is ε, so none of the additions goes.
    refine List.filter_eq_self.mpr fun q hq => ?_
    simp only [List.mem_eraseDups, List.mem_filter, List.mem_flatMap, Production.mem_variants] at hq
    obtain ⟨⟨_, _, hne, _⟩, _⟩ := hq
    simp [hne]

/-- Deletion keeps the heads and gives each the non-empty lists that its productions drop to, the
productions themselves first, then the new variants. A second deletion changes nothing. -/
theorem withoutEpsilon_exact (g : Grammar) :
    g.withoutEpsilon.heads = g.heads ∧
    (∀ A q, q ∈ g.withoutEpsilon.productions A ↔
      q ≠ [] ∧ ∃ p ∈ g.productions A, p.DropsTo g.nullable q) ∧
    (∀ A, g.withoutEpsilon.productions A = g.nonempty A ++
      (((g.nonempty A).flatMap (Production.variants g.nullable)).filter
        (· ∉ g.nonempty A)).eraseDups) ∧
    g.withoutEpsilon.withoutEpsilon = g.withoutEpsilon := by
  have hnone : ∀ A, [] ∉ g.withoutEpsilon.productions A :=
    fun _ hm => (mem_productions_withoutEpsilon.mp hm).1 rfl
  exact ⟨g.heads_withoutEpsilon, fun _ _ => mem_productions_withoutEpsilon,
    g.productions_withoutEpsilon, withoutEpsilon_eq_self hnone⟩

end ContextFree.Grammar
