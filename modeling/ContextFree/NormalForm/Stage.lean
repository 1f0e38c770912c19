/-!
# Stages, settings and statistics of a conversion

The five stages that bring a grammar into normal form, what a caller may
choose, and what is counted along the way.
-/

namespace ContextFree

inductive Stage
  | freshStart
  | dropEpsilon
  | closeUnits
  | wrapTerminals
  | chainLong
  deriving DecidableEq, Repr

namespace Stage

def title : Stage → String
  | freshStart => "fresh start symbol"
  | dropEpsilon => "epsilon elimination"
  | closeUnits => "unit elimination"
  | wrapTerminals => "terminal replacement"
  | chainLong => "binarization"

def all : List Stage := [freshStart, dropEpsilon, closeUnits, wrapTerminals, chainLong]

end Stage

namespace Conversion

structure Settings where
  freshStart : Bool
  stem : String
  /-- The number of names to draw from; without a limit, all that the counter can reach. -/
  limit : Option UInt32
  deriving DecidableEq, Repr

def Settings.standard : Settings := ⟨true, "X", none⟩

structure Statistics where
  nullable : Nat
  /-- The start symbol was nullable at some deletion of ε, so the empty word has been lost. -/
  startNullable : Bool
  unitPasses : Nat
  unitsRemoved : Nat
  wrappers : Nat
  chained : Nat
  freshNames : UInt32
  deriving DecidableEq, Repr

def Statistics.zero : Statistics := ⟨0, false, 0, 0, 0, 0, 0⟩

end Conversion

def Conversion.Settings.stages (settings : Conversion.Settings) : List Stage :=
  Stage.all.filter fun stage => stage ≠ .freshStart ∨ settings.freshStart

end ContextFree
