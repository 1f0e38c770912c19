import ContextFree.Proofs.ConvertedLayout
import ContextFree.Proofs.EmptyWordGap
import ContextFree.Proofs.Recognition

/-!
# Start symbols without an entry

A start symbol that is no head derives nothing, and a conversion should leave
it at that. It does so if it puts a new start symbol over the old one. Without
a new one it may hand out the old name to a wrapper or a link, since a name is
fresh when the grammar does not mention it, and the grammar does not know its
start symbol. Then the name is `Captured`: it has the production of the wrapper
or the link, and the recognizer may accept a word. A start symbol that is not
captured derives nothing afterwards either (`undefinedStart_convert`).
-/

namespace ContextFree

/-- `S → ab` with a start symbol that has no productions but looks like a fresh name. -/
def PointedGrammar.stray : PointedGrammar where
  grammar := .ofRules [("S", .compact "ab")]
  start := "X0"

namespace Conversion

variable {input : PointedGrammar} {settings : Settings} {c : Conversion} {name : String}

/-- The old start symbol is still the start symbol and has been handed out as a fresh name. -/
def Captured (input : PointedGrammar) (settings : Settings) (c : Conversion) : Prop :=
  settings.freshStart = false ∧ input.start ∈ c.names.issued

theorem not_derives_of_not_mem_heads {g : Grammar} (hn : name ∉ g.heads) (w : List String) :
    ¬ g.Derives name w :=
  fun hd => hn (Grammar.mem_heads_of_derives hd)

theorem recognize_eq_false {g : PointedGrammar} (hn : g.grammar.InNormalForm)
    (hd : ∀ w, ¬ g.grammar.Derives g.start w) (w : List String) :
    ((Session.start g).recognize w).1 = false := by
  refine Bool.eq_false_iff.mpr fun ht => ?_
  exact hd w ((Session.recognize_start_iff hn).mp ht).2

theorem not_derives_of_freshStart (on : settings.freshStart = true)
    (hs : input.start ∉ input.grammar.heads) (h : convert (begin input settings) = .ok () c)
    (w : List String) : ¬ c.grammar.Derives c.start w := by
  intro hd
  by_cases hw : w = []
  · subst hw
    exact Grammar.not_derives_nil_of_inNormalForm (inNormalForm_convert h) hd
  · have hold := ((faithful_convert (Or.inr on) h).start_derives w hw).mp hd
    exact not_derives_of_not_mem_heads hs w hold

namespace Finished

/-- Without a new start symbol the old one stays, and the names handed out are numbers behind the
stem, with one production each. -/
theorem of_kept (hf : Finished input settings c) (off : settings.freshStart = false) :
    c.start = input.start ∧ c.grammar.heads = input.grammar.heads ++ c.names.issued ∧
      ∀ name ∈ c.names.issued, (∃ n, name = FreshNames.numbered settings.stem n) ∧
        ∃ p, c.grammar.productions name = [p] := by
  obtain @⟨opened, names, ws, links, u, v, opens, wrapped, linked, grammar_eq, start_eq, names_eq,
    -⟩ := hf
  have hheads := heads_eq wrapped linked opens
  have hissued := issued_eq wrapped linked opens
  cases opens with
  | renewed on _ => simp [off] at on
  | kept _ =>
    rw [grammar_eq, names_eq]
    refine ⟨start_eq, hheads, fun name hm => ?_⟩
    rw [hissued, off, if_neg Bool.false_ne_true, List.nil_append, List.mem_append] at hm
    rcases hm with hm | hm
    · obtain ⟨pair, hpair, rfl⟩ := List.mem_map.mp hm
      obtain ⟨n, _, _, he, _⟩ := wrapped.drawn.exists_number (List.mem_map_of_mem hpair)
      exact ⟨⟨n, he⟩, _, productions_wrapper wrapped linked hpair⟩
    · obtain ⟨n, _, _, he, _⟩ := linked.drawn.exists_number hm
      obtain ⟨p, _, hp⟩ := linked.exists_production hm
      rw [wrapped.drawn.stem_eq] at he
      exact ⟨⟨n, he⟩, p, hp⟩

end Finished

/-- A start symbol without an entry derives nothing, before and after, unless it is captured; then
it is a number behind the stem and has one production. -/
theorem undefinedStart_convert (hs : input.start ∉ input.grammar.heads)
    (h : convert (begin input settings) = .ok () c) :
    (∀ w, ¬ input.grammar.Derives input.start w) ∧
    (¬ Captured input settings c → (∀ w, ¬ c.grammar.Derives c.start w) ∧
      ∀ w, ((Session.start c.result).recognize w).1 = false) ∧
    (Captured input settings c → (∃ n, c.start = FreshNames.numbered settings.stem n) ∧
      ∃ p, c.grammar.productions c.start = [p]) := by
  have hnormal : c.result.grammar.InNormalForm := inNormalForm_convert h
  refine ⟨not_derives_of_not_mem_heads hs, fun hfree => ?_, ?_⟩
  · have hd : ∀ w, ¬ c.grammar.Derives c.start w := by
      cases hf : settings.freshStart with
      | true => exact not_derives_of_freshStart hf hs h
      | false =>
        obtain ⟨hstart, hheads, _⟩ := (finished_of_convert h).of_kept hf
        refine not_derives_of_not_mem_heads fun hm => ?_
        rw [hheads, hstart, List.mem_append] at hm
        exact hfree ⟨hf, hm.resolve_left hs⟩
    exact ⟨hd, recognize_eq_false hnormal hd⟩
  · rintro ⟨off, hm⟩
    obtain ⟨hstart, _, hissued⟩ := (finished_of_convert h).of_kept off
    rw [hstart]
    exact hissued _ hm

/-- The new start symbol is the stray one itself: it is put over itself, and still derives
nothing. -/
theorem undefinedStart_convert_stray :
    convert (begin .stray .standard) =
      .ok () ((begin .stray .standard).afterAll Settings.standard.stages) ∧
    ∀ w, ((Session.start ((begin .stray .standard).afterAll
      Settings.standard.stages).result).recognize w).1 = false := by
  have hconvert : convert (begin .stray .standard) =
      .ok () ((begin .stray .standard).afterAll Settings.standard.stages) :=
    convert_eq_ok_iff.mpr ⟨rfl, by decide +kernel⟩
  have hs : PointedGrammar.stray.start ∉ PointedGrammar.stray.grammar.heads := by decide +kernel
  obtain ⟨_, hfree, _⟩ := undefinedStart_convert hs hconvert
  exact ⟨hconvert, (hfree fun hcap => Bool.noConfusion hcap.1).2⟩

/-- Without a new start symbol the stray one becomes the wrapper of `a`, and `a` is accepted. -/
theorem captured_stray :
    PointedGrammar.stray.start ∉ PointedGrammar.stray.grammar.heads ∧
    ∃ c, convert (begin .stray ⟨false, "X", none⟩) = .ok () c ∧
      Captured .stray ⟨false, "X", none⟩ c ∧ c.grammar.Derives c.start ["a"] ∧
      ((Session.start c.result).recognize ["a"]).1 = true := by
  have hconvert : convert (begin .stray ⟨false, "X", none⟩) =
      .ok () ((begin .stray ⟨false, "X", none⟩).afterAll
        (Settings.stages ⟨false, "X", none⟩)) :=
    convert_eq_ok_iff.mpr ⟨rfl, by decide +kernel⟩
  have hwrapper : [.terminal "a"] ∈ ((begin .stray ⟨false, "X", none⟩).afterAll
      (Settings.stages ⟨false, "X", none⟩)).grammar.productions "X0" := by decide +kernel
  have hstart : ((begin .stray ⟨false, "X", none⟩).afterAll
      (Settings.stages ⟨false, "X", none⟩)).start = "X0" := by decide +kernel
  have hd := Grammar.derives_of_mem (hstart ▸ hwrapper) (.terminal "a" .nil)
  refine ⟨by decide +kernel, _, hconvert, ⟨rfl, by decide +kernel⟩, hd, ?_⟩
  exact (Session.recognize_start_iff (inNormalForm_convert hconvert)).mpr ⟨by simp, hd⟩

end Conversion
end ContextFree
