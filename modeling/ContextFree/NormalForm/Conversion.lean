import ContextFree.Chaining
import ContextFree.Deletion
import ContextFree.NormalForm.Stage
import ContextFree.PointedGrammar
import ContextFree.UnitClosure
import ContextFree.Wrapping

/-!
# Conversion to Chomsky normal form

A conversion works on a grammar and its start symbol through five stages. Each
can be run at any time and as often as wanted; `convert` runs them once in
order. A stage that runs out of names leaves the grammar partly rewritten and
the statistics as they were.
-/

namespace ContextFree

structure Conversion where
  grammar : Grammar
  start : String
  names : FreshNames
  settings : Conversion.Settings
  stats : Conversion.Statistics

namespace Conversion

abbrev Step := EStateM Exhausted Conversion

def begin (input : PointedGrammar) (settings : Settings) : Conversion where
  grammar := input.grammar
  start := input.start
  names := .start settings.stem (settings.limit.getD FreshNames.fullLimit)
  settings := settings
  stats := .zero

def result (c : Conversion) : PointedGrammar := ⟨c.grammar, c.start⟩

def onWorkspace {α : Type} (step : Rewriting α) : Step α := fun c =>
  match step ⟨c.grammar, c.names⟩ with
  | .ok a w => .ok a { c with grammar := w.grammar, names := w.names }
  | .error e w => .error e { c with grammar := w.grammar, names := w.names }

def count (f : Statistics → Statistics) : Step Unit :=
  modify fun c => { c with stats := f c.stats }

/-- A fresh start symbol with the old one as its only production. -/
def freshStart : Step Unit := do
  let name ← onWorkspace Rewriting.fresh
  modify fun c =>
    { c with grammar := c.grammar.add name [.nonterminal c.start], start := name }

def dropEpsilon : Step Unit :=
  modify fun c =>
    let nullable := c.grammar.nullable
    { c with
      grammar := c.grammar.withoutEpsilon
      stats := { c.stats with
        nullable := nullable.size
        startNullable := c.stats.startNullable || decide (c.start ∈ nullable) } }

def closeUnits : Step Unit :=
  modify fun c =>
    let closure := c.grammar.unitClosure
    { c with
      grammar := closure.grammar
      stats := { c.stats with
        unitPasses := c.stats.unitPasses + closure.passes
        unitsRemoved := c.stats.unitsRemoved + closure.removed } }

def wrapTerminals : Step Unit := do
  let wrappers ← onWorkspace Rewriting.wrapTerminals
  count fun s => { s with wrappers := s.wrappers + wrappers.length }

def chainLong : Step Unit := do
  let chained ← onWorkspace Rewriting.chainLong
  count fun s => { s with chained := s.chained + chained }

def stepOf : Stage → Step Unit
  | .freshStart => freshStart
  | .dropEpsilon => dropEpsilon
  | .closeUnits => closeUnits
  | .wrapTerminals => wrapTerminals
  | .chainLong => chainLong

/-- Runs one stage; when it succeeds, the tally of fresh names is brought up to date. -/
def runStage (stage : Stage) : Step Unit := do
  stepOf stage
  modify fun c => { c with stats := { c.stats with freshNames := c.names.allocated } }

def convert : Step Unit := do
  let c ← get
  c.settings.stages.forM runStage

end Conversion

def PointedGrammar.toNormalForm (input : PointedGrammar) (settings : Conversion.Settings) :
    Except Exhausted PointedGrammar :=
  match Conversion.convert (Conversion.begin input settings) with
  | .ok _ c => .ok c.result
  | .error e _ => .error e

end ContextFree
