import ContextFree.FreshNames

/-!
# Wrapping terminals

In a production of two or more symbols every terminal `t` gives way to a
wrapper, a fresh nonterminal with the single production `t`. All occurrences of
a terminal share one wrapper, made at the first. A production is put in place
of the old one only when all its wrappers are there.
-/

namespace ContextFree

/-- The wrappers made so far, a terminal and its wrapper, oldest first. -/
abbrev Wrappers := List (String × String)

namespace Wrappers

def find (wrappers : Wrappers) (terminal : String) : Rewriting (String × Wrappers) :=
  match wrappers.lookup terminal with
  | some wrapper => pure (wrapper, wrappers)
  | none => do
    let wrapper ← Rewriting.fresh
    Rewriting.edit (·.add wrapper [.terminal terminal])
    pure (wrapper, wrappers ++ [(terminal, wrapper)])

def wrap (wrappers : Wrappers) : Production → Rewriting (Production × Wrappers)
  | [] => pure ([], wrappers)
  | .nonterminal name :: rest => do
    let (rest, wrappers) ← wrappers.wrap rest
    pure (.nonterminal name :: rest, wrappers)
  | .terminal name :: rest => do
    let (wrapper, wrappers) ← wrappers.find name
    let (rest, wrappers) ← wrappers.wrap rest
    pure (.nonterminal wrapper :: rest, wrappers)

def wrapRules (wrappers : Wrappers) : List Rule → Rewriting Wrappers
  | [] => pure wrappers
  | (head, p) :: rest => do
    let (wrapped, wrappers) ← wrappers.wrap p
    Rewriting.edit (·.replace head p wrapped)
    wrappers.wrapRules rest

end Wrappers

def Grammar.mixedRules (g : Grammar) : List Rule :=
  g.rules.filter fun rule => 2 ≤ rule.2.length ∧ rule.2.hasTerminal

def Rewriting.wrapTerminals : Rewriting Wrappers := do
  let w ← get
  Wrappers.wrapRules [] w.grammar.mixedRules

end ContextFree
