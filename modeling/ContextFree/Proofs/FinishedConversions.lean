import ContextFree.Proofs.StageShapes

/-!
# How a conversion comes out

A conversion that finishes has opened with a new start symbol or with the old
one, trimmed the grammar of ε and units, wrapped the terminals of all mixed
rules and chained all long rules; `Finished` holds the outcome of every stage
and the statistics made of them. One that fails ran out of names at the start,
over a wrapper or over a link, and `Failed` says at which. There is no third
way (`convert_cases`).
-/

namespace ContextFree

open FreshNames (Short)
open Rewriting (Triple)

namespace Conversion

variable {c d : Conversion} {stage : Stage} {stages : List Stage}

-- ---------------------------------------------------------------------------
-- Outcomes of the stages
-- ---------------------------------------------------------------------------

def recount (c : Conversion) : Conversion :=
  { c with stats := { c.stats with freshNames := c.names.allocated } }

theorem runStage_of_triple (stage : Stage) {α : Type} {step : Rewriting α}
    {f : α → Conversion → Conversion} {P : α → Workspace → Prop} {E : Exhausted → Workspace → Prop}
    (ht : Triple step ⟨c.grammar, c.names⟩ P E)
    (hstep : stepOf stage = (onWorkspace step >>= fun a => modify (f a))) :
    (∃ a u, P a u ∧
      runStage stage c = .ok () (f a { c with grammar := u.grammar, names := u.names }).recount) ∨
    ∃ e u, E e u ∧
      runStage stage c = .error e { c with grammar := u.grammar, names := u.names } := by
  have hrun : runStage stage c = EStateM.bind (stepOf stage) (fun _ => modify recount) c := rfl
  rw [hrun, EStateM.bind, hstep, onWorkspace_bind]
  unfold Triple at ht
  cases hs : step ⟨c.grammar, c.names⟩ with
  | ok a u => exact Or.inl ⟨a, u, by simpa [hs] using ht, rfl⟩
  | error e u => exact Or.inr ⟨e, u, by simpa [hs] using ht, rfl⟩

theorem forM_cons_of_ok {d : Conversion} (h : runStage stage c = .ok () d) :
    (stage :: stages).forM runStage c = stages.forM runStage d := by
  rw [forM_cons, EStateM.bind, h]

theorem forM_cons_of_error {e : Exhausted} (h : runStage stage c = .error e d) :
    (stage :: stages).forM runStage c = .error e d := by
  rw [forM_cons, EStateM.bind, h]

end Conversion

-- ---------------------------------------------------------------------------
-- The whole conversion
-- ---------------------------------------------------------------------------

/-- The grammar without ε and without units. -/
def Grammar.trimmed (g : Grammar) : Grammar := g.withoutEpsilon.unitClosure.grammar

def Conversion.Settings.supply (settings : Conversion.Settings) : FreshNames :=
  .start settings.stem (settings.limit.getD FreshNames.fullLimit)

namespace Conversion

/-- What the first stage makes of the input, if it is asked for. -/
inductive Opened (input : PointedGrammar) (settings : Settings) :
    PointedGrammar → FreshNames → Prop
  | kept (off : settings.freshStart = false) : Opened input settings input settings.supply
  | renewed {n : Nat} (on : settings.freshStart = true)
    (free : settings.supply.FirstFree input.grammar n) :
    Opened input settings
      ⟨input.grammar.add (FreshNames.numbered settings.stem n) [.nonterminal input.start],
        FreshNames.numbered settings.stem n⟩
      (settings.supply.past n)

inductive Finished (input : PointedGrammar) (settings : Settings) (c : Conversion) : Prop
  | through {opened : PointedGrammar} {names : FreshNames} {ws : Wrappers}
    {links : Rule → List String} {u v : Workspace} (first : Opened input settings opened names)
    (wrapped : Wrapped ⟨opened.grammar.trimmed, names⟩ opened.grammar.trimmed.mixedRules [] ws u)
    (linked : Linked u u.grammar.longRules links v)
    (grammar_eq : c.grammar = v.grammar) (start_eq : c.start = opened.start)
    (names_eq : c.names = v.names)
    (stats_eq : c.stats = {
      nullable := opened.grammar.nullable.size
      startNullable := decide (opened.start ∈ opened.grammar.nullable)
      unitPasses := opened.grammar.withoutEpsilon.unitClosure.passes
      unitsRemoved := opened.grammar.withoutEpsilon.unitClosure.removed
      wrappers := ws.length
      chained := u.grammar.longRules.length
      freshNames := v.names.allocated })

inductive Failed (input : PointedGrammar) (settings : Settings) : Prop
  | start (on : settings.freshStart = true) (dry : settings.supply.Dry input.grammar)
  | wrapper {opened : PointedGrammar} {names last : FreshNames} {drawn : List String}
    (first : Opened input settings opened names)
    (short : Short opened.grammar.trimmed names opened.grammar.trimmed.wrappersNeeded drawn last)
  | link {opened : PointedGrammar} {names last : FreshNames} {ws : Wrappers} {u : Workspace}
    {drawn : List String} (first : Opened input settings opened names)
    (wrapped : Wrapped ⟨opened.grammar.trimmed, names⟩ opened.grammar.trimmed.mixedRules [] ws u)
    (short : Short u.grammar u.names u.grammar.linksNeeded drawn last)

variable {input opened : PointedGrammar} {settings : Settings} {names : FreshNames}

theorem forM_tail_cases (c : Conversion)
    (first : Opened input settings ⟨c.grammar, c.start⟩ c.names)
    (hstats : c.stats.startNullable = false ∧ c.stats.unitPasses = 0 ∧ c.stats.unitsRemoved = 0 ∧
      c.stats.wrappers = 0 ∧ c.stats.chained = 0) :
    (∃ d, Stage.all.tail.forM runStage c = .ok () d ∧ Finished input settings d) ∨
      ∃ e d, Stage.all.tail.forM runStage c = .error e d ∧ Failed input settings := by
  have hepsilon : runStage .dropEpsilon c = .ok () (recount { c with
      grammar := c.grammar.withoutEpsilon
      stats := { c.stats with
        nullable := c.grammar.nullable.size
        startNullable := c.stats.startNullable || decide (c.start ∈ c.grammar.nullable) } }) := rfl
  have hunits : ∀ c, runStage .closeUnits c = .ok () (recount { c with
      grammar := c.grammar.unitClosure.grammar
      stats := { c.stats with
        unitPasses := c.stats.unitPasses + c.grammar.unitClosure.passes
        unitsRemoved := c.stats.unitsRemoved + c.grammar.unitClosure.removed } }) := fun _ => rfl
  simp only [Stage.all, List.tail_cons]
  rw [forM_cons_of_ok hepsilon, forM_cons_of_ok (hunits _)]
  obtain ⟨ws, u, hw, hrun⟩ | ⟨e, u, hs, hrun⟩ :=
    runStage_of_triple .wrapTerminals (Rewriting.wrapTerminals_triple _) rfl
  · rw [forM_cons_of_ok hrun]
    obtain ⟨n, v, ⟨hn, links, hl⟩, hrun⟩ | ⟨e, v, hs, hrun⟩ :=
      runStage_of_triple .chainLong (Rewriting.chainLong_triple _) rfl
    · rw [forM_cons_of_ok hrun]
      refine Or.inl ⟨_, rfl, .through first hw hl rfl rfl rfl ?_⟩
      obtain ⟨h₁, h₂, h₃, h₄, h₅⟩ := hstats
      simp [recount, h₁, h₂, h₃, h₄, h₅, hn]
    · rw [forM_cons_of_error hrun]
      obtain ⟨drawn, last, hshort, -⟩ := hs.short
      exact Or.inr ⟨_, _, rfl, .link first hw hshort⟩
  · rw [forM_cons_of_error hrun]
    obtain ⟨drawn, last, hshort, -⟩ := hs.short
    exact Or.inr ⟨_, _, rfl, .wrapper first hshort⟩

theorem convert_cases (input : PointedGrammar) (settings : Settings) :
    (∃ d, convert (begin input settings) = .ok () d ∧ Finished input settings d) ∨
      ∃ e d, convert (begin input settings) = .error e d ∧ Failed input settings := by
  have hconvert : convert (begin input settings) =
      settings.stages.forM runStage (begin input settings) := rfl
  rw [hconvert, stages_eq]
  cases hf : settings.freshStart with
  | false => exact forM_tail_cases _ (.kept hf) (by simp [begin, Statistics.zero])
  | true =>
    have hall : (if true = true then Stage.all else Stage.all.tail) =
      .freshStart :: Stage.all.tail := rfl
    rw [hall]
    obtain ⟨name, u, ⟨n, hn, rfl, rfl⟩, hrun⟩ | ⟨e, u, ⟨_, _, hdry⟩, hrun⟩ :=
      runStage_of_triple .freshStart (c := begin input settings)
        (Rewriting.fresh_triple _) rfl
    · rw [forM_cons_of_ok hrun]
      exact forM_tail_cases _ (.renewed hf hn) (by simp [recount, begin, Statistics.zero])
    · rw [forM_cons_of_error hrun]
      exact Or.inr ⟨_, _, rfl, .start hf hdry⟩

theorem finished_of_convert (h : convert (begin input settings) = .ok () c) :
    Finished input settings c := by
  obtain ⟨d, hd, hf⟩ | ⟨e, d, hd, _⟩ := convert_cases input settings
  · rw [h] at hd
    obtain rfl := (EStateM.Result.ok.inj hd).2
    exact hf
  · rw [h] at hd
    exact nomatch hd

end Conversion
end ContextFree
