import ContextFree.Proofs.FinishedConversions

/-!
# The gap at the empty word

A conversion loses the empty word and says so. Afterwards no name derives it;
the statistics tell whether the start symbol did and how many names did, all
in the grammar one began with (`emptyWord_convert`). The new start symbol, if
there is one, is counted among the names when the old one is nullable, and
otherwise leaves the count as it is.
-/

namespace ContextFree

variable {g : Grammar} {name head : String}

namespace Grammar

/-- The names that derive the empty word can be computed. -/
instance (g : Grammar) (name : String) : Decidable (g.Derives name []) :=
  decidable_of_iff (name ∈ g.nullable) mem_nullable_iff

theorem mem_heads_of_derives {w : List String} (hd : g.Derives name w) : name ∈ g.heads := by
  obtain ⟨p, hp, _⟩ := derives_iff.mp hd
  exact mem_heads_of_mem_productions hp

theorem size_nullable (g : Grammar) : g.nullable.size = g.heads.countP (g.Derives · []) := by
  have hperm : (g.heads.filter (g.Derives · [])).Perm g.nullable.toList := by
    refine (List.perm_ext_iff_of_nodup (g.nodup_heads.filter _) (OrderedSet.nodup _)).mpr ?_
    intro name
    rw [List.mem_filter, decide_eq_true_eq, OrderedSet.mem_toList, mem_nullable_iff]
    exact and_iff_right_of_imp mem_heads_of_derives
  rw [OrderedSet.size, ← hperm.length_eq, List.countP_eq_length_filter]

theorem countP_nullable_add_unit (hn : ¬ g.Mentions name) :
    (g.add name [.nonterminal head]).heads.countP
        ((g.add name [.nonterminal head]).Derives · []) =
      g.heads.countP (g.Derives · []) + if g.Derives head [] then 1 else 0 := by
  have hold : ∀ other ∈ g.heads, (g.add name [.nonterminal head]).Derives other [] ↔
      g.Derives other [] := by
    intro other ho
    refine derives_add_unit_of_ne hn ?_
    rintro rfl
    exact not_mem_heads_of_not_mentions hn ho
  rw [heads_add, if_neg (not_mem_heads_of_not_mentions hn), List.countP_append,
    List.countP_singleton]
  congr 1
  · exact List.countP_congr fun other ho => by simpa using hold other ho
  · simp only [decide_eq_true_eq, derives_add_unit_iff hn]

theorem not_derives_nil_of_inNormalForm (h : g.InNormalForm) : ¬ g.Derives name [] := by
  intro hd
  have hne : ∀ head, [] ∉ g.productions head :=
    fun head hp => (inNormalForm_iff.mp h).1 head [] hp rfl
  exact List.cons_ne_nil _ _ (Yields.eq_nil hne hd rfl)

end Grammar

namespace Conversion

variable {input opened : PointedGrammar} {settings : Settings} {names : FreshNames}
variable {c : Conversion}

theorem Opened.derives_nil_iff (ho : Opened input settings opened names) :
    opened.grammar.Derives opened.start [] ↔ input.grammar.Derives input.start [] := by
  cases ho with
  | kept => exact Iff.rfl
  | renewed _ free => exact Grammar.derives_add_unit_iff free.free

theorem Opened.size_nullable (ho : Opened input settings opened names) :
    opened.grammar.nullable.size = input.grammar.heads.countP (input.grammar.Derives · []) +
      if settings.freshStart = true ∧ input.grammar.Derives input.start [] then 1 else 0 := by
  rw [Grammar.size_nullable]
  cases ho with
  | kept off => simp [off]
  | renewed on free => exact (Grammar.countP_nullable_add_unit free.free).trans (by simp [on])

/-- A finished conversion has lost the empty word, has noted whether that was a word of the start
symbol, and has counted the names that derived it. -/
theorem emptyWord_convert (h : convert (begin input settings) = .ok () c) :
    (∀ A, ¬ c.grammar.Derives A []) ∧
    (c.stats.startNullable = true ↔ input.grammar.Derives input.start []) ∧
    c.stats.nullable = input.grammar.heads.countP (input.grammar.Derives · []) +
      if settings.freshStart = true ∧ input.grammar.Derives input.start [] then 1 else 0 := by
  obtain ⟨first, _, _, _, _, _, stats⟩ := finished_of_convert h
  rw [stats]
  refine ⟨fun A => ?_, ?_, first.size_nullable⟩
  · exact Grammar.not_derives_nil_of_inNormalForm (inNormalForm_convert h)
  · rw [decide_eq_true_eq, Grammar.mem_nullable_iff, first.derives_nil_iff]

/-- `S` and the new start symbol over it are the two names counted. -/
theorem emptyWord_convert_nested :
    convert (begin .nested .standard) =
      .ok () ((begin .nested .standard).afterAll Settings.standard.stages) ∧
    (∀ A, ¬ ((begin .nested .standard).afterAll Settings.standard.stages).grammar.Derives A []) ∧
    ((begin .nested .standard).afterAll Settings.standard.stages).stats.startNullable = true ∧
    ((begin .nested .standard).afterAll Settings.standard.stages).stats.nullable = 2 := by
  have hconvert : convert (begin .nested .standard) =
      .ok () ((begin .nested .standard).afterAll Settings.standard.stages) :=
    convert_eq_ok_iff.mpr ⟨rfl, by decide +kernel⟩
  obtain ⟨hlost, hstart, hcount⟩ := emptyWord_convert hconvert
  have hnil : PointedGrammar.nested.grammar.Derives PointedGrammar.nested.start [] :=
    Grammar.derives_of_mem (p := []) (by decide +kernel) .nil
  exact ⟨hconvert, hlost, hstart.mpr hnil, hcount.trans (by decide +kernel)⟩

end Conversion
end ContextFree
