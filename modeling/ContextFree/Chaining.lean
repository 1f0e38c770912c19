import ContextFree.FreshNames

/-!
# Chaining long productions

A production `x₁ x₂ … xₖ` with `k > 2` becomes a chain of pairs over fresh
links: `x₁ Y₁` in its place, then `Y₁ → x₂ Y₂` and so on to `Yₖ₋₂ → xₖ₋₁ xₖ`.
All links of a production are allocated before the grammar changes.
-/

namespace ContextFree

/-- The productions of a chain: the first takes the place of the long production, each later one
belongs to the link that the one before it ends with. -/
def Production.chain : Production → List String → List Production
  | first :: rest, link :: links => [first, .nonterminal link] :: Production.chain rest links
  | p, _ => [p]

def Rewriting.freshNames : Nat → Rewriting (List String)
  | 0 => pure []
  | n + 1 => do
    let name ← Rewriting.fresh
    let names ← Rewriting.freshNames n
    pure (name :: names)

def Grammar.install (g : Grammar) (rule : Rule) (links : List String) : Grammar :=
  match rule.2.chain links with
  | [] => g
  | first :: rest => (g.replace rule.1 rule.2 first).addAll (links.zip rest)

def Rewriting.chainRule (rule : Rule) : Rewriting Unit := do
  let links ← Rewriting.freshNames (rule.2.length - 2)
  Rewriting.edit (·.install rule links)

def Grammar.longRules (g : Grammar) : List Rule :=
  g.rules.filter fun rule => 2 < rule.2.length

def Rewriting.chainLong : Rewriting Nat := do
  let w ← get
  w.grammar.longRules.forM Rewriting.chainRule
  pure w.grammar.longRules.length

example : Production.chain (Production.compact "aBcD") ["X", "Y"] =
    [[.terminal "a", .nonterminal "X"], [.nonterminal "B", .nonterminal "Y"],
      [.terminal "c", .nonterminal "D"]] := by decide +kernel

end ContextFree
