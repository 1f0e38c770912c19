import ContextFree.Recognizer.NameTable
import Std.Data.HashMap

/-!
# Parent indexes

A parent index answers which nonterminals have a production with a given
right-hand side: under every key stand the parents in the order in which they
were added.
-/

namespace ContextFree

structure ParentIndex (κ : Type) [BEq κ] [Hashable κ] where
  parents : Std.HashMap κ (List NameId)
  /-- How many parents have been added in all. -/
  size : Nat

namespace ParentIndex

variable {κ : Type} [BEq κ] [Hashable κ]

def empty : ParentIndex κ := ⟨∅, 0⟩

def lookup (ix : ParentIndex κ) (key : κ) : List NameId := ix.parents.getD key []

def add (ix : ParentIndex κ) (key : κ) (parent : NameId) : ParentIndex κ :=
  ⟨ix.parents.insert key (ix.lookup key ++ [parent]), ix.size + 1⟩

def isEmpty (ix : ParentIndex κ) : Bool := ix.size == 0

@[simp] theorem lookup_empty (key : κ) : (empty : ParentIndex κ).lookup key = [] := by
  simp [lookup, empty]

theorem lookup_add [LawfulBEq κ] [DecidableEq κ] (ix : ParentIndex κ) (key other : κ)
    (parent : NameId) :
    (ix.add key parent).lookup other =
      if other = key then ix.lookup key ++ [parent] else ix.lookup other := by
  by_cases h : other = key
  · subst h
    simp [lookup, add]
  · have hne : (key == other) = false := by simpa using Ne.symm h
    simp [lookup, add, Std.HashMap.getD_insert, hne, h]

end ParentIndex
end ContextFree
