import ContextFree.Grammar.Lemmas

/-!
# Nullable nonterminals

A nonterminal is nullable if it derives the empty word. The set is the least
fixpoint of one step: a head with a production of known nullable nonterminals
only (ε among them) is nullable. A pass visits the heads in order and uses what
it finds at once; passes repeat until one finds nothing.
-/

namespace ContextFree

/-- All symbols are nonterminals among the given names. -/
def Production.Vanishes (known : OrderedSet String) (p : Production) : Prop :=
  ∀ s ∈ p, ∃ name ∈ known.toList, s = .nonterminal name

instance (known : OrderedSet String) (p : Production) : Decidable (p.Vanishes known) := by
  unfold Production.Vanishes
  infer_instance

namespace Grammar

def nullableVisit (g : Grammar) (known : OrderedSet String) (head : String) : OrderedSet String :=
  if ∃ p ∈ g.productions head, p.Vanishes known then known.insert head else known

def nullablePass (g : Grammar) (known : OrderedSet String) : OrderedSet String :=
  g.heads.foldl g.nullableVisit known

-- ---------------------------------------------------------------------------
-- A pass that changes something leaves fewer heads to find
-- ---------------------------------------------------------------------------

variable {g : Grammar} {known : OrderedSet String} {heads : List String} {name : String}

theorem mem_nullableVisit {head : String} (h : name ∈ known) :
    name ∈ g.nullableVisit known head := by
  unfold nullableVisit
  split
  · exact OrderedSet.mem_insert.mpr (Or.inl h)
  · exact h

theorem mem_foldl_nullableVisit (h : name ∈ known) : name ∈ heads.foldl g.nullableVisit known := by
  induction heads generalizing known with
  | nil => exact h
  | cons head rest ih => exact ih (mem_nullableVisit h)

theorem mem_nullablePass (h : name ∈ known) : name ∈ g.nullablePass known :=
  mem_foldl_nullableVisit h

theorem nullableVisit_eq_or (g : Grammar) (known : OrderedSet String) (head : String) :
    g.nullableVisit known head = known ∨
      head ∉ known ∧ head ∈ g.nullableVisit known head := by
  unfold nullableVisit
  split
  · by_cases hm : head ∈ known
    · exact Or.inl (OrderedSet.ext (OrderedSet.toList_insert_of_mem hm))
    · exact Or.inr ⟨hm, OrderedSet.mem_insert.mpr (Or.inr rfl)⟩
  · exact Or.inl rfl

theorem exists_new_of_foldl_ne (h : heads.foldl g.nullableVisit known ≠ known) :
    ∃ head ∈ heads, head ∉ known ∧ head ∈ heads.foldl g.nullableVisit known := by
  induction heads generalizing known with
  | nil => exact absurd rfl h
  | cons head rest ih =>
    rw [List.foldl_cons] at h ⊢
    rcases nullableVisit_eq_or g known head with he | ⟨hn, hm⟩
    · rw [he] at h ⊢
      obtain ⟨other, ho, h₁, h₂⟩ := ih h
      exact ⟨other, List.mem_cons_of_mem _ ho, h₁, h₂⟩
    · exact ⟨head, List.mem_cons_self, hn, mem_foldl_nullableVisit hm⟩

def unknownHeads (g : Grammar) (known : OrderedSet String) : Nat :=
  g.heads.countP (· ∉ known)

theorem unknownHeads_lt (h : g.nullablePass known ≠ known) :
    g.unknownHeads (g.nullablePass known) < g.unknownHeads known := by
  obtain ⟨head, hh, hn, hm⟩ := exists_new_of_foldl_ne h
  have hm' : head ∈ g.nullablePass known := hm
  apply countP_lt_countP hh
  · simpa using hm'
  · simpa using hn
  · intro name _ hname
    simp only [decide_eq_true_eq] at hname ⊢
    exact fun hk => hname (mem_nullablePass hk)

-- ---------------------------------------------------------------------------
-- The fixpoint
-- ---------------------------------------------------------------------------

structure NullableSearch where
  names : OrderedSet String
  passes : Nat

def searchNullable (g : Grammar) (known : OrderedSet String) (passes : Nat) : NullableSearch :=
  if g.nullablePass known = known then ⟨known, passes + 1⟩
  else g.searchNullable (g.nullablePass known) (passes + 1)
termination_by g.unknownHeads known
decreasing_by exact unknownHeads_lt (by assumption)

def nullableSearch (g : Grammar) : NullableSearch := g.searchNullable .empty 0

/-- The nonterminals that derive the empty word. -/
def nullable (g : Grammar) : OrderedSet String := g.nullableSearch.names

end Grammar
end ContextFree
