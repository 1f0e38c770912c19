import ContextFree.Grammar.Basic
import ContextFree.Ordering

/-!
# Writing grammars

A grammar is written one line per head, heads sorted by name, the productions
of a head behind an arrow and separated by bars. A production whose symbols all
have names of one character is written without gaps, any other with a space
between two symbols; the empty production is `ε`.
-/

namespace ContextFree

open Text

/-- All names are single characters, so no gaps are needed to tell them apart. -/
def Production.Compact (p : Production) : Prop := ∀ s ∈ p, s.name.toList.length = 1

instance (p : Production) : Decidable p.Compact := by
  unfold Production.Compact
  infer_instance

def Production.chars (p : Production) : List Char :=
  if p = [] then ['ε']
  else if p.Compact then p.flatMap (·.name.toList)
  else [' '].intercalate (p.map (·.name.toList))

def Production.text (p : Production) : String := String.ofList p.chars

namespace Grammar

/-- `head -> p | q | r`, or `head ->` for a head without productions. -/
def lineChars (head : String) (ps : List Production) : List Char :=
  head.toList ++ [' ', '-', '>'] ++ [' ', '|'].intercalate (ps.map fun p => ' ' :: p.chars)

def lines (g : Grammar) : List (List Char) :=
  (inOrder g.heads).map fun head => lineChars head (g.productions head)

def chars (g : Grammar) : List Char := g.lines.flatMap (· ++ ['\n'])

def text (g : Grammar) : String := String.ofList g.chars

end Grammar

example : (Production.compact "aSb").text = "aSb" := by decide +kernel

example : Production.text [.nonterminal "NP", .terminal "dog"] = "NP dog" := by decide +kernel

end ContextFree
