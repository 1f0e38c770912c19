import ContextFree.Symbol

/-!
# Productions

A production is one right-hand side of a rule, a list of symbols. The empty
list is the empty production ε. Four shapes matter: ε, a single nonterminal (a
unit), a single terminal, and exactly two nonterminals; the last two are the
shapes of Chomsky normal form.
-/

namespace ContextFree

abbrev Production := List Symbol

instance : LawfulBEq Production := inferInstance

namespace Production

def unit? : Production → Option String
  | [.nonterminal name] => some name
  | _ => none

def terminal? : Production → Option String
  | [.terminal name] => some name
  | _ => none

def binary? : Production → Option (String × String)
  | [.nonterminal left, .nonterminal right] => some (left, right)
  | _ => none

inductive IsNormal : Production → Prop
  | terminal (name : String) : IsNormal [.terminal name]
  | binary (left right : String) : IsNormal [.nonterminal left, .nonterminal right]

theorem isNormal_iff {p : Production} :
    IsNormal p ↔ (p.terminal?.isSome || p.binary?.isSome) = true := by
  constructor
  · rintro (_ | _) <;> rfl
  · intro h
    match p, h with
    | [.terminal name], _ => exact .terminal name
    | [.nonterminal left, .nonterminal right], _ => exact .binary left right

instance (p : Production) : Decidable p.IsNormal := decidable_of_iff _ isNormal_iff.symm

def hasTerminal (p : Production) : Bool := p.any Symbol.isTerminal

def nonterminals (p : Production) : List String := p.filterMap Symbol.nonterminal?

def terminals (p : Production) : List String := p.filterMap Symbol.terminal?

/-- Reads every character as one symbol and passes over the character ε. -/
def ofChars (cs : List Char) : Production := (cs.filter (· != 'ε')).map Symbol.ofChar

def compact (text : String) : Production := ofChars text.toList

-- ---------------------------------------------------------------------------
-- Shapes
-- ---------------------------------------------------------------------------

theorem unit?_eq_some_iff {p : Production} {name : String} :
    p.unit? = some name ↔ p = [.nonterminal name] := by
  constructor
  · intro h
    match p, h with
    | [.nonterminal _], h => simpa [unit?] using h
  · rintro rfl; rfl

@[simp] theorem mem_nonterminals {p : Production} {name : String} :
    name ∈ p.nonterminals ↔ Symbol.nonterminal name ∈ p := by
  simp [nonterminals]

@[simp] theorem mem_terminals {p : Production} {name : String} :
    name ∈ p.terminals ↔ Symbol.terminal name ∈ p := by
  simp [terminals]

theorem hasTerminal_iff {p : Production} :
    p.hasTerminal = true ↔ ∃ name, Symbol.terminal name ∈ p := by
  simp only [hasTerminal, List.any_eq_true, Symbol.isTerminal_iff]
  exact ⟨fun ⟨_, hs, name, h⟩ => ⟨name, h ▸ hs⟩, fun ⟨name, h⟩ => ⟨_, h, name, rfl⟩⟩

end Production
end ContextFree
