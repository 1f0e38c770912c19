import ContextFree.Proofs.StageRuns

/-!
# The language along a run of stages

Whatever stages a conversion is sent through, in whatever order, and however
many of them run out of names half-way: the old heads derive the non-empty
words they derived at the beginning, and the start symbol of the moment derives
those of the first one (`derives_afterAll_iff`).
-/

namespace ContextFree

variable {input before result : PointedGrammar} {stage : Stage} {finished : Bool}

/-- The heads of the input keep their words, and the new start symbol has those of the old; the
empty word is left out of account. -/
structure PointedGrammar.Faithful (input result : PointedGrammar) : Prop where
  keeps : input.grammar.KeepsWords result.grammar
  start_mem : result.start ∈ result.grammar.heads
  start_derives : ∀ w, w ≠ [] →
    (result.grammar.Derives result.start w ↔ input.grammar.Derives input.start w)

namespace PointedGrammar.Faithful

theorem of_keepsWords {g : Grammar} (hs : input.start ∈ input.grammar.heads)
    (hk : input.grammar.KeepsWords g) : input.Faithful ⟨g, input.start⟩ where
  keeps := hk
  start_mem := hk.heads _ hs
  start_derives := hk.derives _ hs

theorem trans (h₁ : input.Faithful before) (h₂ : before.Faithful result) :
    input.Faithful result where
  keeps := h₁.keeps.trans h₂.keeps
  start_mem := h₂.start_mem
  start_derives w hw := (h₂.start_derives w hw).trans (h₁.start_derives w hw)

end PointedGrammar.Faithful

namespace Conversion

variable {c : Conversion} {stages : List Stage}

/-- Even a start symbol that is no head may be put under a new one: both derive nothing. -/
theorem Effect.faithful_of_newStart (h : Effect before .freshStart true result) :
    before.Faithful result := by
  cases h with
  | newStart fresh =>
    refine ⟨Grammar.keepsWords_add_unit fresh, by simp, fun w _ => ?_⟩
    exact Grammar.derives_add_unit_iff fresh

theorem Effect.faithful (h : Effect before stage finished result)
    (hs : before.start ∈ before.grammar.heads) : before.Faithful result := by
  cases h with
  | newStart fresh => exact faithful_of_newStart (.newStart fresh)
  | oldStart => exact .of_keepsWords hs (.refl _)
  | dropEpsilon => exact .of_keepsWords hs (Grammar.keepsWords_withoutEpsilon _)
  | closeUnits => exact .of_keepsWords hs (Grammar.keepsWords_unitClosure _)
  | wrapTerminals reached _ => exact .of_keepsWords hs reached.keepsWords
  | chainLong chained _ => exact .of_keepsWords hs chained.keepsWords

theorem faithful_after (h : input.Faithful c.result) (stage : Stage) :
    input.Faithful (c.after stage).result :=
  h.trans ((effect c stage).faithful h.start_mem)

theorem faithful_afterAll (h : input.Faithful c.result) (stages : List Stage) :
    input.Faithful (c.afterAll stages).result := by
  induction stages generalizing c with
  | nil => exact h
  | cons stage stages ih => exact ih (faithful_after h stage)

theorem derives_afterAll_iff (input : PointedGrammar) (settings : Settings)
    (stages : List Stage) (hs : input.start ∈ input.grammar.heads) :
    (∀ head ∈ input.grammar.heads, ∀ w, w ≠ [] →
      (((begin input settings).afterAll stages).grammar.Derives head w ↔
        input.grammar.Derives head w)) ∧
    ((begin input settings).afterAll stages).start ∈
      ((begin input settings).afterAll stages).grammar.heads ∧
    ∀ w, w ≠ [] →
      (((begin input settings).afterAll stages).grammar.Derives
          ((begin input settings).afterAll stages).start w ↔
        input.grammar.Derives input.start w) := by
  have hstart : input.Faithful (begin input settings).result := .of_keepsWords hs (.refl _)
  have h := faithful_afterAll hstart stages
  exact ⟨h.keeps.derives, h.start_mem, h.start_derives⟩

/-- One name is not enough for the links and wrappers, but `a` is not lost. -/
theorem derives_afterAll_textbook :
    PointedGrammar.textbook.start ∈ PointedGrammar.textbook.grammar.heads ∧
    (begin .textbook ⟨true, "X", some 1⟩).log
        [.freshStart, .chainLong, .wrapTerminals, .dropEpsilon, .closeUnits] =
      [(.freshStart, true), (.chainLong, false), (.wrapTerminals, false), (.dropEpsilon, true),
        (.closeUnits, true)] ∧
    ((begin .textbook ⟨true, "X", some 1⟩).afterAll
        [.freshStart, .chainLong, .wrapTerminals, .dropEpsilon, .closeUnits]).grammar.Derives
      ((begin .textbook ⟨true, "X", some 1⟩).afterAll
        [.freshStart, .chainLong, .wrapTerminals, .dropEpsilon, .closeUnits]).start ["a"] := by
  have hs : PointedGrammar.textbook.start ∈ PointedGrammar.textbook.grammar.heads := by
    decide +kernel
  have hS : [.terminal "a", .nonterminal "B"] ∈
      PointedGrammar.textbook.grammar.productions "S" := by decide +kernel
  have hB : [] ∈ PointedGrammar.textbook.grammar.productions "B" := by decide +kernel
  refine ⟨hs, by decide +kernel, ?_⟩
  refine ((derives_afterAll_iff _ _ _ hs).2.2 ["a"] (by simp)).mpr ?_
  exact Grammar.derives_of_mem hS (.terminal "a" (.nonterminal hB .nil .nil))

end Conversion
end ContextFree
