import ContextFree.NormalForm.Conversion
import ContextFree.Proofs.ChainedRules
import ContextFree.Proofs.EmptyWord
import ContextFree.Proofs.UnitChains
import ContextFree.Proofs.WrappedRules

/-!
# Runs of stages

A conversion may be sent through its stages in any order and as often as one
likes. A stage that runs out of names leaves what it has done so far, and the
next stage goes on from there. `afterAll` is the state such a run ends in, and
`log` says of each call whether it finished.

`effect` is all that later modules need to know about a stage: what can have
become of the grammar and the start symbol, by stage and by outcome.
-/

namespace ContextFree

open Wrappers (Reached)
open Rewriting (Triple)

namespace Conversion

variable {c d : Conversion} {stage : Stage} {stages : List Stage}

-- ---------------------------------------------------------------------------
-- Runs
-- ---------------------------------------------------------------------------

def finishes (c : Conversion) (stage : Stage) : Bool :=
  match runStage stage c with
  | .ok _ _ => true
  | .error _ _ => false

/-- The state that a stage leaves behind, whether it finishes or not. -/
def after (c : Conversion) (stage : Stage) : Conversion :=
  match runStage stage c with
  | .ok _ c' => c'
  | .error _ c' => c'

def afterAll (c : Conversion) (stages : List Stage) : Conversion := stages.foldl after c

def log : Conversion → List Stage → List (Stage × Bool)
  | _, [] => []
  | c, stage :: stages => (stage, c.finishes stage) :: (c.after stage).log stages

@[simp] theorem afterAll_nil : c.afterAll [] = c := rfl

@[simp] theorem afterAll_cons : c.afterAll (stage :: stages) = (c.after stage).afterAll stages :=
  rfl

theorem afterAll_append (before later : List Stage) :
    c.afterAll (before ++ later) = (c.afterAll before).afterAll later :=
  List.foldl_append

theorem exists_of_log_eq {before later : List (Stage × Bool)} {finished : Bool}
    (h : c.log stages = before ++ (stage, finished) :: later) :
    ∃ first last, stages = first ++ stage :: last ∧ c.log first = before ∧
      (c.afterAll first).finishes stage = finished ∧
      ((c.afterAll first).after stage).log last = later := by
  induction before generalizing c stages with
  | nil =>
    cases stages with
    | nil => simp [log] at h
    | cons s stages =>
      simp only [log, List.nil_append, List.cons.injEq, Prod.mk.injEq] at h
      obtain ⟨⟨rfl, hf⟩, hl⟩ := h
      exact ⟨[], stages, rfl, rfl, hf, hl⟩
  | cons entry before ih =>
    cases stages with
    | nil => simp [log] at h
    | cons s stages =>
      simp only [log, List.cons_append, List.cons.injEq] at h
      obtain ⟨he, hl⟩ := h
      obtain ⟨first, last, rfl, hb, hf, ha⟩ := ih hl
      exact ⟨s :: first, last, rfl, by rw [log, he, hb], hf, ha⟩

theorem exists_of_mem_log {finished : Bool} (h : (stage, finished) ∈ c.log stages) :
    ∃ first last, stages = first ++ stage :: last ∧
      (c.afterAll first).finishes stage = finished := by
  obtain ⟨before, later, he⟩ := List.append_of_mem h
  obtain ⟨first, last, hs, _, hf, _⟩ := exists_of_log_eq he
  exact ⟨first, last, hs, hf⟩

-- ---------------------------------------------------------------------------
-- Effects
-- ---------------------------------------------------------------------------

/-- What a stage can make of a grammar and its start symbol; the flag says whether it finishes. -/
inductive Effect (before : PointedGrammar) : Stage → Bool → PointedGrammar → Prop
  | newStart {name : String} (fresh : ¬ before.grammar.Mentions name) :
    Effect before .freshStart true
      ⟨before.grammar.add name [.nonterminal before.start], name⟩
  | oldStart : Effect before .freshStart false before
  | dropEpsilon :
    Effect before .dropEpsilon true ⟨before.grammar.withoutEpsilon, before.start⟩
  | closeUnits :
    Effect before .closeUnits true ⟨before.grammar.unitClosure.grammar, before.start⟩
  | wrapTerminals {finished : Bool} {g : Grammar} {ws : Wrappers}
    (reached : Reached before.grammar g ws)
    (done : finished = true → ∀ head, ∀ p ∈ g.productions head, ¬ p.Mixed) :
    Effect before .wrapTerminals finished ⟨g, before.start⟩
  | chainLong {finished : Bool} {g : Grammar} (chained : Chained before.grammar g)
    (done : finished = true → ∀ head, ∀ p ∈ g.productions head, p.length ≤ 2) :
    Effect before .chainLong finished ⟨g, before.start⟩

theorem effect_of_step
    (hok : ∀ c', stepOf stage c = .ok () c' → Effect c.result stage true c'.result)
    (herror : ∀ e c', stepOf stage c = .error e c' → Effect c.result stage false c'.result) :
    Effect c.result stage (c.finishes stage) (c.after stage).result := by
  -- the tally of fresh names, brought up to date at the end, is of no account here
  have hrun : runStage stage c = EStateM.bind (stepOf stage) _ c := rfl
  unfold finishes after
  rw [hrun]
  unfold EStateM.bind
  cases hs : stepOf stage c with
  | ok a c' => exact hok c' hs
  | error e c' => exact herror e c' hs

theorem onWorkspace_bind {α : Type} (step : Rewriting α) (next : α → Step Unit) (c : Conversion) :
    (onWorkspace step >>= next) c =
      match step ⟨c.grammar, c.names⟩ with
      | .ok a u => next a { c with grammar := u.grammar, names := u.names }
      | .error e u => .error e { c with grammar := u.grammar, names := u.names } := by
  show EStateM.bind (onWorkspace step) next c = _
  unfold EStateM.bind onWorkspace
  cases step ⟨c.grammar, c.names⟩ <;> rfl

theorem effect_of_triple {α : Type} {step : Rewriting α} {next : α → Step Unit}
    {P : α → Workspace → Prop} {E : Exhausted → Workspace → Prop}
    (ht : Triple step ⟨c.grammar, c.names⟩ P E) (hstep : stepOf stage = (onWorkspace step >>= next))
    (hok : ∀ a u c', P a u → next a { c with grammar := u.grammar, names := u.names } = .ok () c' →
      Effect c.result stage true c'.result)
    (herror : ∀ e u, E e u → Effect c.result stage false ⟨u.grammar, c.start⟩)
    (hnext : ∀ a c' e c'', next a c' ≠ .error e c'') :
    Effect c.result stage (c.finishes stage) (c.after stage).result := by
  unfold Triple at ht
  refine effect_of_step (fun c' h => ?_) fun e c' h => ?_ <;> rw [hstep, onWorkspace_bind] at h
  · split at h
    · rename_i a u hu
      rw [hu] at ht
      exact hok a u c' ht h
    · simp at h
  · split at h
    · exact absurd h (hnext _ _ _ _)
    · rename_i e' u hu
      rw [hu] at ht
      obtain ⟨rfl, rfl⟩ : e' = e ∧ _ = c' := by simpa using h
      exact herror e' u ht

theorem effect (c : Conversion) (stage : Stage) :
    Effect c.result stage (c.finishes stage) (c.after stage).result := by
  cases stage with
  | freshStart =>
    refine effect_of_triple (Rewriting.fresh_triple _) rfl ?_ ?_ ?_
    · rintro name _ c' ⟨n, hf, rfl, rfl⟩ h
      obtain rfl := (EStateM.Result.ok.inj h).2
      exact .newStart hf.free
    · rintro _ _ ⟨rfl, _, _⟩
      exact .oldStart
    · exact fun _ _ _ _ h => nomatch h
  | dropEpsilon =>
    refine effect_of_step (fun c' h => ?_) fun e c' h => nomatch h
    obtain rfl := (EStateM.Result.ok.inj h).2
    exact .dropEpsilon
  | closeUnits =>
    refine effect_of_step (fun c' h => ?_) fun e c' h => nomatch h
    obtain rfl := (EStateM.Result.ok.inj h).2
    exact .closeUnits
  | wrapTerminals =>
    refine effect_of_triple (Rewriting.wrapTerminals_triple _) rfl ?_ ?_ ?_
    · intro ws u c' hw h
      obtain rfl := (EStateM.Result.ok.inj h).2
      exact .wrapTerminals hw.reached fun _ => hw.not_mixed
    · intro _ u hs
      obtain ⟨ws, hr⟩ := hs.reached
      exact .wrapTerminals hr (by simp)
    · exact fun _ _ _ _ h => nomatch h
  | chainLong =>
    refine effect_of_triple (Rewriting.chainLong_triple _) rfl ?_ ?_ ?_
    · rintro n u c' ⟨_, links, hl⟩ h
      obtain rfl := (EStateM.Result.ok.inj h).2
      exact .chainLong hl.chained fun _ => hl.length_le_two
    · intro _ u hs
      exact .chainLong hs.chained (by simp)
    · exact fun _ _ _ _ h => nomatch h

end Conversion
end ContextFree
