import ContextFree.Proofs.CompiledGrammars
import ContextFree.Proofs.StageLanguage
import ContextFree.Proofs.StageShapes
import ContextFree.Recognizer.Basic

/-!
# Recognizing the words of any grammar

Convert a grammar and recognize with the result: what comes out is the language
of the grammar one began with, the empty word apart (`recognize_convert_iff`).
A conversion that finishes is faithful and ends in normal form, where the
recognizer passes over nothing.

The numbers of names have no bound here. Where there are fewer than 2³² names a
number is the same in 32 bits (`Recognizer.toNat_ofNat_index`).
-/

namespace ContextFree

variable {input : PointedGrammar} {A : String} {w : List String} {span start : Nat}

-- ---------------------------------------------------------------------------
-- Numbers
-- ---------------------------------------------------------------------------

theorem Recognizer.toNat_ofNat_index {id : NameId} {name : String}
    (hfew : (input.grammar.rules.flatMap ruleNames ++ [input.start]).eraseDups.length <
      UInt32.size)
    (hid : (ofGrammar input).index.names.name? id = some name) :
    (UInt32.ofNat id.index).toNat = id.index := by
  rw [names_ofGrammar] at hid
  rw [← NameTable.size_ofNames] at hfew
  exact NameTable.toNat_ofNat_index hfew hid

-- ---------------------------------------------------------------------------
-- Sessions
-- ---------------------------------------------------------------------------

namespace Session

theorem recognize_start_iff (h : input.grammar.InNormalForm) :
    ((Session.start input).recognize w).1 = true ↔
      w ≠ [] ∧ input.grammar.Derives input.start w := by
  refine decide_eq_true_iff.trans ((Recognizer.accepts_fill_iff input).trans ?_)
  rw [Grammar.derives_normalPart_of_inNormalForm h, List.length_pos_iff]

theorem contains_recognize_start_iff (h : input.grammar.InNormalForm) (hs : 1 ≤ span)
    (hn : start + span ≤ w.length) :
    ((Session.start input).recognize w).2.last.Contains span start A ↔
      input.grammar.Derives A (stretch w span start) := by
  refine (RuleIndex.contains_fill (Recognizer.describes input)).trans ?_
  simp [hs, hn, Grammar.derives_normalPart_of_inNormalForm h]

end Session

-- ---------------------------------------------------------------------------
-- Conversions that finish
-- ---------------------------------------------------------------------------

namespace Conversion

variable {settings : Settings} {c : Conversion}

theorem faithful_convert
    (hs : input.start ∈ input.grammar.heads ∨ settings.freshStart = true)
    (h : convert (begin input settings) = .ok () c) : input.Faithful c.result := by
  obtain ⟨rfl, hl⟩ := convert_eq_ok_iff.mp h
  rcases hs with hs | hf
  · exact faithful_afterAll (.of_keepsWords hs (.refl _)) _
  · have hstages : (begin input settings).settings.stages = .freshStart :: Stage.all.tail := by
      rw [stages_eq]
      exact if_pos hf
    rw [hstages] at hl ⊢
    obtain ⟨hfinish, -⟩ := List.cons.inj hl
    have he := effect (begin input settings) .freshStart
    rw [(Prod.mk.inj hfinish).2] at he
    exact faithful_afterAll he.faithful_of_newStart _

/-- After a conversion that finishes, the recognizer accepts the non-empty words of the original
grammar, and its tables tell for each of the original heads which stretches it derives. Numbers of
32 bits do for this where there are fewer than 2³² names (`Recognizer.toNat_ofNat_index`). -/
theorem recognize_convert_iff
    (hs : input.start ∈ input.grammar.heads ∨ settings.freshStart = true)
    (h : convert (begin input settings) = .ok () c) :
    (∀ w, ((Session.start c.result).recognize w).1 = true ↔
      w ≠ [] ∧ input.grammar.Derives input.start w) ∧
    ∀ w, ∀ A ∈ input.grammar.heads, ∀ span start, 1 ≤ span → start + span ≤ w.length →
      (((Session.start c.result).recognize w).2.last.Contains span start A ↔
        input.grammar.Derives A (stretch w span start)) := by
  have hf := faithful_convert hs h
  have hn : c.result.grammar.InNormalForm := inNormalForm_convert h
  refine ⟨fun w => ?_, fun w A hA span start hspan hfits => ?_⟩
  · rw [Session.recognize_start_iff hn]
    exact and_congr_right fun hw => hf.start_derives w hw
  · have hne : stretch w span start ≠ [] := by
      rw [← List.length_pos_iff, length_stretch hfits]
      exact hspan
    rw [Session.contains_recognize_start_iff hn hspan hfits]
    exact hf.keeps.derives A hA _ hne

/-- `a` is in the language, so the recognizer of the converted grammar accepts it. -/
theorem recognize_convert_textbook :
    PointedGrammar.textbook.start ∈ PointedGrammar.textbook.grammar.heads ∧
    convert (begin .textbook .standard) =
      .ok () ((begin .textbook .standard).afterAll Settings.standard.stages) ∧
    ((Session.start ((begin .textbook .standard).afterAll
      Settings.standard.stages).result).recognize ["a"]).1 = true := by
  have hs : PointedGrammar.textbook.start ∈ PointedGrammar.textbook.grammar.heads := by
    decide +kernel
  have hconvert : convert (begin .textbook .standard) =
      .ok () ((begin .textbook .standard).afterAll Settings.standard.stages) :=
    convert_eq_ok_iff.mpr ⟨rfl, by decide +kernel⟩
  have hS : [.terminal "a", .nonterminal "B"] ∈
      PointedGrammar.textbook.grammar.productions "S" := by decide +kernel
  have hB : [] ∈ PointedGrammar.textbook.grammar.productions "B" := by decide +kernel
  refine ⟨hs, hconvert, ((recognize_convert_iff (Or.inl hs) hconvert).1 ["a"]).mpr ⟨by simp, ?_⟩⟩
  exact Grammar.derives_of_mem hS (.terminal "a" (.nonterminal hB .nil .nil))

end Conversion
end ContextFree
