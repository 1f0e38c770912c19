import ContextFree.PointedGrammar
import ContextFree.Recognizer.ParentIndex
import ContextFree.Recognizer.Table

/-!
# Recognizing words

The recognizer of a grammar in Chomsky normal form decides for every stretch of
a word which nonterminals derive it, shorter stretches first. The rules are
compiled once into two parent indexes over numbered names; a production that
is neither a single terminal nor two nonterminals is passed over.

A session keeps the table of its last word. The empty word is rejected and
leaves the empty table.
-/

namespace ContextFree

structure RuleIndex where
  names : NameTable
  lexical : ParentIndex String
  binary : ParentIndex (NameId × NameId)

namespace RuleIndex

def empty : RuleIndex := ⟨.empty, .empty, .empty⟩

def addLexical (ix : RuleIndex) (parent terminal : String) : RuleIndex :=
  let (parent, names) := ix.names.intern parent
  { ix with names, lexical := ix.lexical.add terminal parent }

def addBinary (ix : RuleIndex) (parent left right : String) : RuleIndex :=
  let (parent, names) := ix.names.intern parent
  let (left, names) := names.intern left
  let (right, names) := names.intern right
  { ix with names, binary := ix.binary.add (left, right) parent }

def addRule (ix : RuleIndex) : Rule → RuleIndex
  | (head, [.terminal t]) => ix.addLexical head t
  | (head, [.nonterminal left, .nonterminal right]) => ix.addBinary head left right
  | _ => ix

def ofGrammar (g : Grammar) : RuleIndex := g.rules.foldl addRule empty

-- ---------------------------------------------------------------------------
-- Filling the table
-- ---------------------------------------------------------------------------

/-- The numbers of the nonterminals of a cell, in no particular order. -/
abbrev Cell := List NameId

abbrev Rows := Array (Array Cell)

def cellAt (rows : Rows) (span start : Nat) : Cell :=
  match rows[span - 1]? with
  | none => []
  | some row => row[start]?.getD []

abbrev Marks := Array Bool

/-- A cell being filled. The marks spare a search of what has been found. -/
structure Gathering where
  found : Cell
  marks : Marks

namespace Gathering

def take (x : Gathering) (id : NameId) : Gathering :=
  if x.marks[id.index]?.getD false then x
  else ⟨x.found ++ [id], x.marks.setIfInBounds id.index true⟩

def clear (x : Gathering) : Marks :=
  x.found.foldl (fun marks id => marks.setIfInBounds id.index false) x.marks

end Gathering

def noMarks (ix : RuleIndex) : Marks := Array.replicate ix.names.size false

def join (ix : RuleIndex) (x : Gathering) (left right : Cell) : Gathering :=
  left.foldl
    (fun x l => right.foldl (fun x r => (ix.binary.lookup (l, r)).foldl Gathering.take x) x) x

/-- A cell from the cells of all shorter spans: the stretch is cut in two in every way. -/
def joinAll (ix : RuleIndex) (rows : Rows) (marks : Marks) (span start : Nat) : Gathering :=
  (List.range' 1 (span - 1)).foldl
    (fun x k => ix.join x (cellAt rows k start) (cellAt rows (span - k) (start + k))) ⟨[], marks⟩

def baseRow (ix : RuleIndex) (tokens : List String) : Array Cell :=
  (tokens.map ix.lexical.lookup).toArray

/-- Puts the next cell of a row behind those before it, which leave their marks to it. -/
def joinNext (ix : RuleIndex) (rows : Rows) (span : Nat) (done : Array Cell × Marks)
    (start : Nat) : Array Cell × Marks :=
  let x := ix.joinAll rows done.2 span start
  (done.1.push x.found, x.clear)

def joinRow (ix : RuleIndex) (wordLength : Nat) (rows : Rows) (marks : Marks) (span : Nat) :
    Array Cell × Marks :=
  (List.range (wordLength - span + 1)).foldl (ix.joinNext rows span) (#[], marks)

def rowsUpTo (ix : RuleIndex) (tokens : List String) : Nat → Rows × Marks
  | 0 => (#[], ix.noMarks)
  | 1 => (#[ix.baseRow tokens], ix.noMarks)
  | span + 1 =>
    let (rows, marks) := ix.rowsUpTo tokens span
    let (row, marks) := ix.joinRow tokens.length rows marks (span + 1)
    (rows.push row, marks)

def fill (ix : RuleIndex) (tokens : List String) : Table :=
  .ofCells ((ix.rowsUpTo tokens tokens.length).1.map fun row => row.map ix.names.resolve)

end RuleIndex

structure Recognizer where
  index : RuleIndex
  start : NameId

namespace Recognizer

def ofGrammar (input : PointedGrammar) : Recognizer :=
  let index := RuleIndex.ofGrammar input.grammar
  let (start, names) := index.names.intern input.start
  ⟨{ index with names }, start⟩

def startName (r : Recognizer) : String := (r.index.names.name? r.start).getD ""

def fill (r : Recognizer) (tokens : List String) : Table := r.index.fill tokens

/-- The start symbol derives the whole word, which is not empty. -/
def Accepts (r : Recognizer) (t : Table) : Prop :=
  0 < t.wordLength ∧ t.Contains t.wordLength 0 r.startName

instance (r : Recognizer) (t : Table) : Decidable (r.Accepts t) := by
  unfold Accepts
  infer_instance

def letters (word : String) : List String := word.toList.map String.singleton

theorem startName_ofGrammar (input : PointedGrammar) :
    (ofGrammar input).startName = input.start := by
  show (((RuleIndex.ofGrammar input.grammar).names.intern input.start).2.name?
    ((RuleIndex.ofGrammar input.grammar).names.intern input.start).1).getD "" = input.start
  rw [NameTable.name?_intern, Option.getD_some]

end Recognizer

-- ---------------------------------------------------------------------------
-- One word after another
-- ---------------------------------------------------------------------------

structure Session where
  recognizer : Recognizer
  last : Table

namespace Session

def start (input : PointedGrammar) : Session := ⟨.ofGrammar input, .empty⟩

def recognize (s : Session) (tokens : List String) : Bool × Session :=
  let table := s.recognizer.fill tokens
  (decide (s.recognizer.Accepts table), { s with last := table })

end Session
end ContextFree
