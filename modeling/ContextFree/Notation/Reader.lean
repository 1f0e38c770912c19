import ContextFree.Grammar.Basic
import ContextFree.PointedGrammar
import ContextFree.Text.Blank
import ContextFree.Text.Lines

/-!
# Reading grammars

A grammar is read from lines. A `#` starts a comment; a line with nothing else
on it is passed over. Any other line is a rule line: a head, one arrow (`->` or
`→`) and alternatives separated by bars. The start symbol is the head of the
first rule line.

Reading takes two passes. The first cuts every line into a head and
alternatives and finds faults; of several, the first line's is reported, and of
several in one line the first that `ruleLine?` looks for. The second reads the
alternatives: by then all heads are known, also those defined further down, and
a name is a nonterminal if it is one of them or starts with an uppercase
character.
-/

namespace ContextFree.Notation

open Text

-- ---------------------------------------------------------------------------
-- Rule lines
-- ---------------------------------------------------------------------------

inductive Fault
  | missingArrow
  | multipleArrows
  | emptyHead
  | spacedHead (head : String)
  deriving DecidableEq, Repr

inductive ReadError
  | badLine (number : Nat) (fault : Fault)
  | noRules
  deriving DecidableEq, Repr

def Fault.message : Fault → String
  | .missingArrow => "missing `->` separator"
  | .multipleArrows => "more than one `->` separator"
  | .emptyHead => "empty nonterminal"
  | .spacedHead head => "nonterminal `" ++ head ++ "` contains whitespace"

def ReadError.message : ReadError → String
  | .badLine number fault => "line " ++ toString number ++ ": " ++ fault.message
  | .noRules => "no rules found"

structure RuleLine where
  head : List Char
  alternatives : List (List Char)
  deriving DecidableEq, Repr

def cutAtArrows : List Char → List (List Char)
  | [] => [[]]
  | '→' :: rest => [] :: cutAtArrows rest
  | '-' :: '>' :: rest => [] :: cutAtArrows rest
  | c :: rest => (cutAtArrows rest).modifyHead (c :: ·)

def withoutComment (line : List Char) : List Char := line.takeWhile (· != '#')

/-- The rule on a line, `none` for a blank line. -/
def ruleLine? (line : List Char) : Except Fault (Option RuleLine) :=
  let code := withoutComment line
  if code.all isBlank then .ok none
  else match cutAtArrows code with
    | [before, body] =>
      let head := trim before
      if head = [] then .error .emptyHead
      else if head.any isBlank then .error (.spacedHead (String.ofList head))
      else .ok (some ⟨head, (body.splitOn '|').map trim⟩)
    | _ :: _ :: _ :: _ => .error .multipleArrows
    | _ => .error .missingArrow

/-- The rule lines of a list of lines whose first has the given number. -/
def ruleLines (number : Nat) : List (List Char) → Except ReadError (List RuleLine)
  | [] => .ok []
  | line :: rest =>
    match ruleLine? line with
    | .error fault => .error (.badLine number fault)
    | .ok none => ruleLines (number + 1) rest
    | .ok (some rule) =>
      match ruleLines (number + 1) rest with
      | .error e => .error e
      | .ok rules => .ok (rule :: rules)

-- ---------------------------------------------------------------------------
-- Alternatives
-- ---------------------------------------------------------------------------

/-- A name that is a head or starts with an uppercase character is a nonterminal. -/
def classify (heads : OrderedSet (List Char)) (name : List Char) : Symbol :=
  if name.head?.any isUppercase || name ∈ heads then .nonterminal (String.ofList name)
  else .terminal (String.ofList name)

/-- An alternative that is a head is that nonterminal. One with blanks in it is read word by word,
any other character by character; ε stands for nothing in both. -/
def readAlternative (heads : OrderedSet (List Char)) (alternative : List Char) : Production :=
  if alternative ∈ heads then [.nonterminal (String.ofList alternative)]
  else if alternative.any isBlank then
    ((words alternative).filter (· != ['ε'])).map (classify heads)
  else (alternative.filter (· != 'ε')).map fun c => classify heads [c]

/-- The heads of all rule lines, also those that stand further down. -/
def headsOf (rules : List RuleLine) : OrderedSet (List Char) := .ofList (rules.map RuleLine.head)

def grammarOf (rules : List RuleLine) : Grammar :=
  let heads := headsOf rules
  rules.foldl
    (fun g rule =>
      let head := String.ofList rule.head
      (g.declare head).addAll (rule.alternatives.map fun a => (head, readAlternative heads a)))
    .empty

-- ---------------------------------------------------------------------------
-- Grammars
-- ---------------------------------------------------------------------------

def readLines (lines : List (List Char)) : Except ReadError PointedGrammar :=
  match ruleLines 1 lines with
  | .error e => .error e
  | .ok [] => .error .noRules
  | .ok (first :: rest) =>
    .ok ⟨grammarOf (first :: rest), String.ofList first.head⟩

def readText (text : String) : Except ReadError PointedGrammar :=
  readLines (linesOf '\n' '\r' text.toList)

end ContextFree.Notation
