import ContextFree.Grammar.Basic

/-!
# Pointed grammars

A grammar together with its start symbol. The start symbol need not be a head;
one that is not derives nothing.
-/

namespace ContextFree

structure PointedGrammar where
  grammar : Grammar
  start : String
  deriving DecidableEq

namespace PointedGrammar

def sample : PointedGrammar := ⟨.sample, "S"⟩

/-- `S → ASA | aB`, `A → B | S`, `B → b | ε`: every shape that normal form forbids. -/
def textbook : PointedGrammar where
  grammar := .ofRules (
    [("S", "ASA"), ("S", "aB"), ("A", "B"), ("A", "S"), ("B", "b"), ("B", "")].map
      fun (head, body) => (head, Production.compact body))
  start := "S"

/-- `S → aSb | ε`: nested pairs, the empty word among them. -/
def nested : PointedGrammar where
  grammar := .ofRules ([("S", "aSb"), ("S", "")].map
    fun (head, body) => (head, Production.compact body))
  start := "S"

end PointedGrammar

end ContextFree
