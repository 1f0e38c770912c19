import ContextFree.Grammar.Lemmas

/-!
# Edits

The four edits of a grammar as data, so that a history is a list of edits.
`apply` carries an edit out, and `answer` is what the operation says about it.
-/

namespace ContextFree

inductive Edit
  | add (head : String) (production : Production)
  | remove (head : String) (production : Production)
  | replace (head : String) (old new : Production)
  | declare (head : String)
  deriving DecidableEq, Repr

namespace Edit

def head : Edit → String
  | add head _ => head
  | remove head _ => head
  | replace head _ _ => head
  | declare head => head

def apply : Edit → Grammar → Grammar
  | add head p, g => g.add head p
  | remove head p, g => g.remove head p
  | replace head old new, g => g.replace head old new
  | declare head, g => g.declare head

/-- What comes back with the grammar. Declaring answers nothing. -/
def answer : Edit → Grammar → Option Bool
  | add head p, g => some (g.tryAdd head p).1
  | remove head p, g => some (g.tryRemove head p).1
  | replace head old new, g => some (g.tryReplace head old new).1
  | declare _, _ => none

def applyAll (edits : List Edit) (g : Grammar) : Grammar :=
  edits.foldl (fun g edit => edit.apply g) g

theorem answer_add {g : Grammar} {head : String} {p : Production} :
    (add head p).answer g = some (decide (p ∉ g.productions head)) := by
  rw [answer, Option.some.injEq, Bool.eq_iff_iff, Grammar.fst_tryAdd, decide_eq_true_iff]

theorem answer_remove {g : Grammar} {head : String} {p : Production} :
    (remove head p).answer g = some (decide (p ∈ g.productions head)) := by
  rw [answer, Option.some.injEq, Bool.eq_iff_iff, Grammar.fst_tryRemove, decide_eq_true_iff]

theorem answer_replace {g : Grammar} {head : String} {old new : Production} :
    (replace head old new).answer g = some (decide (old ∈ g.productions head)) := by
  rw [answer, Option.some.injEq, Bool.eq_iff_iff, Grammar.fst_tryReplace, decide_eq_true_iff]

theorem productions_apply_of_ne {edit : Edit} {g : Grammar} {other : String}
    (hne : other ≠ edit.head) : (edit.apply g).productions other = g.productions other := by
  cases edit with
  | add head p => exact Grammar.productions_add_of_ne hne
  | remove head p => exact Grammar.productions_remove_of_ne hne
  | replace head old new => exact Grammar.productions_replace_of_ne hne
  | declare head => exact Grammar.productions_declare

end Edit
end ContextFree
