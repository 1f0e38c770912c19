import ContextFree.Text.CharClass

/-!
# Symbols

A symbol is a nonterminal or a terminal, each with a name. The same name may
be used for one of each; they are two different symbols.
-/

namespace ContextFree

inductive Symbol
  | nonterminal (name : String)
  | terminal (name : String)
  deriving DecidableEq, Repr

namespace Symbol

def name : Symbol → String
  | nonterminal name => name
  | terminal name => name

def isNonterminal : Symbol → Bool
  | nonterminal _ => true
  | terminal _ => false

def isTerminal : Symbol → Bool
  | nonterminal _ => false
  | terminal _ => true

def nonterminal? : Symbol → Option String
  | nonterminal name => some name
  | terminal _ => none

def terminal? : Symbol → Option String
  | nonterminal _ => none
  | terminal name => some name

/-- All nonterminals come before all terminals; within a kind the names decide. -/
instance : Ord Symbol where
  compare
    | nonterminal a, nonterminal b => compare a b
    | nonterminal _, terminal _ => .lt
    | terminal _, nonterminal _ => .gt
    | terminal a, terminal b => compare a b

def ofChar (c : Char) : Symbol :=
  if Text.isUppercase c then nonterminal (String.singleton c) else terminal (String.singleton c)

@[simp] theorem nonterminal?_eq_some_iff {s : Symbol} {name : String} :
    s.nonterminal? = some name ↔ s = nonterminal name := by
  cases s <;> simp [nonterminal?]

@[simp] theorem terminal?_eq_some_iff {s : Symbol} {name : String} :
    s.terminal? = some name ↔ s = terminal name := by
  cases s <;> simp [terminal?]

theorem isTerminal_iff {s : Symbol} : s.isTerminal = true ↔ ∃ name, s = terminal name := by
  cases s <;> simp [isTerminal]

end Symbol
end ContextFree
