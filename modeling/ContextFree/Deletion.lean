import ContextFree.Nullable

/-!
# Deletion variants

What a production becomes when some occurrences of nullable nonterminals are
left out. Every occurrence is a choice of its own; variants that keep more of
the leading symbols come first, beginning with the production itself. Adding
the variants of every rule makes the empty productions superfluous, and
`withoutEpsilon` removes them. Only the empty word is lost.
-/

namespace ContextFree

namespace Production

def Optional (nullable : OrderedSet String) (s : Symbol) : Prop :=
  ∃ name ∈ nullable.toList, s = .nonterminal name

instance (nullable : OrderedSet String) (s : Symbol) : Decidable (Optional nullable s) := by
  unfold Optional
  infer_instance

/-- Extends every partial variant by a symbol, and by nothing if the symbol is optional. -/
def extend (nullable : OrderedSet String) (partials : OrderedSet Production) (s : Symbol) :
    OrderedSet Production :=
  .ofList (partials.toList.flatMap fun kept =>
    if Optional nullable s then [kept ++ [s], kept] else [kept ++ [s]])

def variants (nullable : OrderedSet String) (p : Production) : List Production :=
  (p.foldl (extend nullable) (OrderedSet.ofList [[]])).toList.filter (· ≠ [])

end Production

namespace Grammar

/-- For every rule with a non-empty production, its variants other than itself. -/
def variantRules (g : Grammar) (nullable : OrderedSet String) : List Rule :=
  (g.rules.filter (·.2 ≠ [])).flatMap fun rule =>
    ((rule.2.variants nullable).filter (· ≠ rule.2)).map fun p => (rule.1, p)

def withoutEpsilon (g : Grammar) : Grammar :=
  (g.addAll (g.variantRules g.nullable)).removeAll (g.rules.filter (·.2 = []))

end Grammar
end ContextFree
