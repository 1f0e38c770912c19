import ContextFree.Grammar.Basic

/-!
# Fresh names

A supply of nonterminal names: a stem followed by a number below a limit. The
counter only moves forward, so no name is handed out twice; names that the
grammar mentions are passed over. Counter, limit and tally are 32-bit words.
The supply also keeps a record of the names it has handed out, in order.

A workspace is a grammar under rewriting with its supply. A rewriting step that
runs out of names stops there: the workspace keeps what was done up to that
point.
-/

namespace ContextFree

structure FreshNames where
  stem : String
  limit : UInt32
  /-- The number of the next name to try. -/
  next : UInt32
  allocated : UInt32
  /-- The names handed out, oldest first. -/
  issued : List String
  deriving DecidableEq, Repr

/-- All names of the stem below the limit have been tried. -/
structure Exhausted where
  stem : String
  limit : UInt32
  deriving DecidableEq, Repr

def Exhausted.message (e : Exhausted) : String :=
  "no more nonterminal identifiers available (" ++ e.stem ++ "0.." ++ e.stem ++
    toString e.limit.toNat ++ " are all taken)"

namespace FreshNames

def numbered (stem : String) (n : Nat) : String := stem ++ toString n

def fullLimit : UInt32 := 4294967295

def start (stem : String) (limit : UInt32) : FreshNames :=
  ⟨stem, limit, 0, 0, []⟩

def remaining (names : FreshNames) : UInt32 := names.limit - names.next

def candidate (names : FreshNames) : String := numbered names.stem names.next.toNat

def skip (names : FreshNames) : FreshNames := { names with next := names.next + 1 }

def take (names : FreshNames) : FreshNames :=
  { names with
    next := names.next + 1
    allocated := names.allocated + 1
    issued := names.issued ++ [names.candidate] }

theorem toNat_next_skip {names : FreshNames} (h : names.next < names.limit) :
    names.skip.next.toNat = names.next.toNat + 1 := by
  have hlt := UInt32.lt_iff_toNat_lt.mp h
  have hmax := names.limit.toNat_lt
  simp only [skip, UInt32.toNat_add, UInt32.toNat_one]
  omega

theorem skip_lt {names : FreshNames} (h : names.next < names.limit) :
    names.skip.limit.toNat - names.skip.next.toNat < names.limit.toNat - names.next.toNat := by
  have hn := toNat_next_skip h
  have hlt := UInt32.lt_iff_toNat_lt.mp h
  have hl : names.skip.limit = names.limit := rfl
  rw [hn, hl]
  omega

/-- The first name from the counter on that the grammar does not mention, or nothing once the
limit is reached. -/
def allocate (g : Grammar) (names : FreshNames) : Option String × FreshNames :=
  if names.next < names.limit then
    if g.Mentions names.candidate then allocate g names.skip
    else (some names.candidate, names.take)
  else (none, names)
termination_by names.limit.toNat - names.next.toNat
decreasing_by exact skip_lt (by assumption)

end FreshNames

-- ---------------------------------------------------------------------------
-- Rewriting
-- ---------------------------------------------------------------------------

structure Workspace where
  grammar : Grammar
  names : FreshNames
  deriving DecidableEq

/-- A step that may stop for lack of names; the state is kept in either case. -/
abbrev Rewriting := EStateM Exhausted Workspace

instance instDecidableEqResult {ε σ α : Type} [DecidableEq ε] [DecidableEq σ] [DecidableEq α] :
    DecidableEq (EStateM.Result ε σ α)
  | .ok a s, .ok b t => decidable_of_iff (a = b ∧ s = t) (by simp)
  | .error e s, .error f t => decidable_of_iff (e = f ∧ s = t) (by simp)
  | .ok _ _, .error _ _ => isFalse nofun
  | .error _ _, .ok _ _ => isFalse nofun

namespace Rewriting

def fresh : Rewriting String := fun w =>
  match w.names.allocate w.grammar with
  | (some name, names) => .ok name { w with names }
  | (none, names) => .error ⟨names.stem, names.limit⟩ { w with names }

def edit (f : Grammar → Grammar) : Rewriting Unit :=
  modify fun w => { w with grammar := f w.grammar }

end Rewriting
end ContextFree
