import ContextFree.Proofs.RuleOrder
import Mathlib.Logic.Function.Iterate

/-!
# The passes of the search for nullable names

The search ends with the names known after some number of passes, the first
number at which another pass finds nothing; that last pass is counted as well
(`searchNullable_spec`). Every pass before it finds a name not yet known, so
there are no more such passes than nullable names (`passes_nullableSearch_le`),
and all of those are heads.

A pass uses at once what it has found, so what is known in the middle of the
search depends on the order of the heads. What is known in the end does not
(`nullableSearch_exact`): it is what derives the empty word.
-/

namespace ContextFree.Grammar

def knownAfter (g : Grammar) (n : Nat) : OrderedSet String := g.nullablePass^[n] .empty

/-- The passes of a search in order: those that find a name, then the one that does not. Each of
the former leaves fewer heads to find. -/
theorem searchNullable_spec (g : Grammar) (known : OrderedSet String) (passes : Nat) :
    ∃ n, (∀ i < n, g.nullablePass (g.nullablePass^[i] known) ≠ g.nullablePass^[i] known) ∧
      g.nullablePass (g.nullablePass^[n] known) = g.nullablePass^[n] known ∧
      g.searchNullable known passes = ⟨g.nullablePass^[n] known, passes + n + 1⟩ ∧
      n + g.unknownHeads (g.nullablePass^[n] known) ≤ g.unknownHeads known := by
  fun_induction searchNullable g known passes with
  | case1 known passes hfix => exact ⟨0, by simp, hfix, rfl, by simp⟩
  | case2 known passes hne ih =>
    obtain ⟨n, hbusy, hfix, hsearch, hleft⟩ := ih
    refine ⟨n + 1, fun i hi => ?_, hfix, ?_, ?_⟩
    · cases i with
      | zero => exact hne
      | succ i => exact hbusy i (by omega)
    · have hcount : passes + 1 + n + 1 = passes + (n + 1) + 1 := by omega
      rw [hsearch, hcount]
      rfl
    · have hlt := unknownHeads_lt hne
      simp only [Function.iterate_succ_apply]
      omega

theorem nullableSearch_spec (g : Grammar) :
    ∃ n, (∀ i < n, g.nullablePass (g.knownAfter i) ≠ g.knownAfter i) ∧
      g.nullablePass (g.knownAfter n) = g.knownAfter n ∧
      g.nullableSearch = ⟨g.knownAfter n, n + 1⟩ ∧
      n + g.unknownHeads g.nullable ≤ g.heads.length := by
  obtain ⟨n, hbusy, hfix, hsearch, hleft⟩ := g.searchNullable_spec .empty 0
  have hnames : g.nullable = g.knownAfter n := congrArg NullableSearch.names hsearch
  rw [Nat.zero_add] at hsearch
  refine ⟨n, hbusy, hfix, hsearch, ?_⟩
  rw [hnames]
  exact Nat.le_trans hleft List.countP_le_length

theorem size_nullable_add_unknownHeads (g : Grammar) :
    g.nullable.size + g.unknownHeads g.nullable = g.heads.length := by
  have hknown : g.heads.countP (g.Derives · []) = g.heads.countP (· ∈ g.nullable) :=
    List.countP_congr fun name _ => by simp [mem_nullable_iff]
  rw [size_nullable, hknown, unknownHeads,
    List.length_eq_countP_add_countP fun name => decide (name ∈ g.nullable)]
  simp

theorem passes_nullableSearch_le (g : Grammar) :
    g.nullableSearch.passes ≤ g.nullable.size + 1 := by
  obtain ⟨n, _, _, hsearch, hleft⟩ := g.nullableSearch_spec
  have hsize := g.size_nullable_add_unknownHeads
  simp only [hsearch]
  omega

/-- The search ends after at most one pass more than there are heads, with the names that derive
the empty word, and finds the same names in the same rules in any other order. -/
theorem nullableSearch_exact (g : Grammar) :
    (∃ n, (∀ i < n, g.nullablePass (g.knownAfter i) ≠ g.knownAfter i) ∧
      g.nullablePass (g.knownAfter n) = g.knownAfter n ∧
      g.nullableSearch = ⟨g.knownAfter n, n + 1⟩) ∧
    g.nullableSearch.passes ≤ g.heads.length + 1 ∧
    (∀ A, A ∈ g.nullable ↔ g.Derives A []) ∧
    ∀ h, g.Same h → ∀ A, A ∈ g.nullable ↔ A ∈ h.nullable := by
  obtain ⟨n, hbusy, hfix, hsearch, _⟩ := g.nullableSearch_spec
  refine ⟨⟨n, hbusy, hfix, hsearch⟩, ?_, fun _ => mem_nullable_iff,
    fun h hs _ => hs.mem_nullable_iff⟩
  have hpasses := g.passes_nullableSearch_le
  have hsize := g.size_nullable_add_unknownHeads
  omega

end ContextFree.Grammar
