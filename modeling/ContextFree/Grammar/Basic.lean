import ContextFree.OrderedSet
import ContextFree.Production

/-!
# Grammars

A grammar lists its heads in the order of their first appearance and gives
each an ordered set of productions, which may be empty. It is seen through
three views: `heads`, `productions A` (empty for a name that is no head) and
`rules`, the pairs of a head and one of its productions in order.

Heads never disappear. `add`, `remove`, `replace` and `declare` touch the
productions of the named head only; the first three come with an answer, whether
there was something to do (`tryAdd`, `tryRemove`, `tryReplace`). The module
`Grammar.Lemmas` says what each does to the views.
-/

namespace ContextFree

structure Grammar where
  entries : List (String × OrderedSet Production)
  nodup_heads : (entries.map Prod.fst).Nodup

abbrev Rule := String × Production

namespace Grammar

def empty : Grammar := ⟨[], List.nodup_nil⟩

theorem ext_entries {g h : Grammar} (he : g.entries = h.entries) : g = h := by
  cases g; cases h; cases he; rfl

instance : DecidableEq Grammar := fun g h =>
  decidable_of_iff (g.entries = h.entries) ⟨ext_entries, fun hg => hg ▸ rfl⟩

-- ---------------------------------------------------------------------------
-- Views
-- ---------------------------------------------------------------------------

def heads (g : Grammar) : List String := g.entries.map Prod.fst

def find? (g : Grammar) (head : String) : Option (OrderedSet Production) :=
  g.entries.lookup head

def productions (g : Grammar) (head : String) : List Production :=
  match g.find? head with
  | some set => set.toList
  | none => []

def rules (g : Grammar) : List Rule :=
  g.entries.flatMap fun entry => entry.2.toList.map fun p => (entry.1, p)

def size (g : Grammar) : Nat := g.rules.length

def terminals (g : Grammar) : List String :=
  (OrderedSet.ofList (g.rules.flatMap fun rule => rule.2.terminals)).toList

/-- `name` is a head or stands on a right-hand side as a nonterminal. -/
def Mentions (g : Grammar) (name : String) : Prop :=
  name ∈ g.heads ∨ ∃ entry ∈ g.entries, ∃ p ∈ entry.2.toList, Symbol.nonterminal name ∈ p

instance (g : Grammar) (name : String) : Decidable (g.Mentions name) := by
  unfold Mentions
  infer_instance

def InNormalForm (g : Grammar) : Prop := ∀ rule ∈ g.rules, rule.2.IsNormal

instance (g : Grammar) : Decidable g.InNormalForm := by
  unfold InNormalForm
  infer_instance

def violations (g : Grammar) : List Rule := g.rules.filter fun rule => ¬ rule.2.IsNormal

/-- The same heads with the same productions, in whatever order. A head without productions
counts. -/
def Same (g h : Grammar) : Prop :=
  (∀ head, head ∈ g.heads ↔ head ∈ h.heads) ∧
    ∀ head p, p ∈ g.productions head ↔ p ∈ h.productions head

-- ---------------------------------------------------------------------------
-- Operations
-- ---------------------------------------------------------------------------

def declare (g : Grammar) (head : String) : Grammar :=
  if h : head ∈ g.heads then g
  else ⟨g.entries ++ [(head, .empty)], by
    rw [List.map_append, List.nodup_append]
    refine ⟨g.nodup_heads, List.pairwise_singleton _ head, fun a ha b hb hab => h ?_⟩
    have hb' : b = head := by simpa using hb
    exact hb' ▸ hab ▸ ha⟩

def adjust (g : Grammar) (head : String) (f : OrderedSet Production → OrderedSet Production) :
    Grammar where
  entries := g.entries.map fun entry => if entry.1 = head then (entry.1, f entry.2) else entry
  nodup_heads := by
    have h : (g.entries.map fun entry =>
        if entry.1 = head then (entry.1, f entry.2) else entry).map Prod.fst =
        g.entries.map Prod.fst := by
      rw [List.map_map]
      apply List.map_congr_left
      intro entry _
      by_cases he : entry.1 = head <;> simp [he]
    rw [h]
    exact g.nodup_heads

/-- Has an operation on the productions of a head and its answer. Where there is no entry nothing
happens, and the answer is no. -/
def tryAdjust (g : Grammar) (head : String)
    (f : OrderedSet Production → Bool × OrderedSet Production) : Bool × Grammar :=
  match g.find? head with
  | none => (false, g)
  | some set => ((f set).1, g.adjust head fun _ => (f set).2)

def tryAdd (g : Grammar) (head : String) (p : Production) : Bool × Grammar :=
  (g.declare head).tryAdjust head (·.tryInsert p)

def tryRemove (g : Grammar) (head : String) (p : Production) : Bool × Grammar :=
  g.tryAdjust head (·.tryErase p)

def tryReplace (g : Grammar) (head : String) (old new : Production) : Bool × Grammar :=
  g.tryAdjust head (·.tryReplace old new)

def add (g : Grammar) (head : String) (p : Production) : Grammar := (g.tryAdd head p).2

def remove (g : Grammar) (head : String) (p : Production) : Grammar := (g.tryRemove head p).2

def replace (g : Grammar) (head : String) (old new : Production) : Grammar :=
  (g.tryReplace head old new).2

def addAll (g : Grammar) (rules : List Rule) : Grammar :=
  rules.foldl (fun g rule => g.add rule.1 rule.2) g

def removeAll (g : Grammar) (rules : List Rule) : Grammar :=
  rules.foldl (fun g rule => g.remove rule.1 rule.2) g

def ofRules (rules : List Rule) : Grammar := empty.addAll rules

/-- `S → AB | BC`, `A → BA | a`, `B → CC | b`, `C → AB | a`, with start symbol `S`. -/
def sample : Grammar :=
  ofRules (
    [("S", "AB"), ("S", "BC"), ("A", "BA"), ("A", "a"), ("B", "CC"), ("B", "b"), ("C", "AB"),
      ("C", "a")].map fun (head, body) => (head, Production.compact body))

end Grammar
end ContextFree
