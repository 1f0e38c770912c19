import ContextFree.Proofs.WrappedRules

/-!
# Taking the wrappers off

A run of wrapping that finishes can be undone: with the terminals back in the
place of their wrappers, every old head has the productions that it had, in
their order (`Wrapped.map_bare_productions`). So no two productions have become
one and none has moved. `wrapTerminals_undone` says this together with which
terminals have got a wrapper, which names these are, and what a wrapper has for
productions.
-/

namespace ContextFree

variable {g : Grammar} {w w' : Workspace} {ws : Wrappers} {done : List Rule} {part : List String}
variable {head : String} {p : Production}

-- ---------------------------------------------------------------------------
-- The terminals that are wrapped
-- ---------------------------------------------------------------------------

namespace Grammar

/-- The terminals that stand in productions of two or more symbols, each where it is met first. -/
def innerTerminals (g : Grammar) : List String :=
  ((g.rules.filter fun rule => 2 ≤ rule.2.length).flatMap fun rule => rule.2.terminals).eraseDups

theorem terminals_eq_nil (h : p.hasTerminal = false) : p.terminals = [] := by
  refine List.eq_nil_iff_forall_not_mem.mpr fun t ht => ?_
  have hp := Production.hasTerminal_iff.mpr ⟨t, Production.mem_terminals.mp ht⟩
  exact Bool.noConfusion (h.symm.trans hp)

theorem flatMap_terminals_filter (rules : List Rule) :
    (rules.filter fun rule => rule.2.hasTerminal).flatMap (fun rule => rule.2.terminals) =
      rules.flatMap fun rule => rule.2.terminals := by
  induction rules with
  | nil => rfl
  | cons rule rules ih =>
    cases ht : rule.2.hasTerminal with
    | true => simp only [List.filter_cons, ht, if_true, List.flatMap_cons, ih]
    | false =>
      simp only [List.filter_cons, ht, Bool.false_eq_true, if_false, List.flatMap_cons, ih,
        terminals_eq_nil ht, List.nil_append]

theorem toList_mixedTerminals (g : Grammar) :
    (OrderedSet.ofList g.mixedTerminals).toList = g.innerTerminals := by
  have hmixed : g.mixedRules =
      (g.rules.filter fun rule => 2 ≤ rule.2.length).filter fun rule => rule.2.hasTerminal := by
    rw [List.filter_filter]
    exact List.filter_congr fun rule _ => by simp [Bool.and_comm]
  rw [OrderedSet.toList_ofList, mixedTerminals, hmixed, flatMap_terminals_filter]
  rfl

end Grammar

-- ---------------------------------------------------------------------------
-- The old heads
-- ---------------------------------------------------------------------------

namespace Wrapped

theorem ruleOf_fst_ne (hw : Wrapped w done part ws w') (hh : head ∈ w.grammar.heads) :
    ∀ r ∈ ws.map Wrappers.ruleOf, r.1 ≠ head := by
  rintro _ hm rfl
  obtain ⟨pair, hp, rfl⟩ := List.mem_map.mp hm
  exact hw.drawn.not_mentions pair.2 (List.mem_map_of_mem hp) (Or.inl hh)

theorem map_bare_productions (hw : Wrapped w done part ws w') (hh : head ∈ w.grammar.heads) :
    (w'.grammar.productions head).map ws.bare = w.grammar.productions head := by
  have hf : ∀ r : Rule, (if r ∈ done then r.dressed ws.nameOf else r).1 = r.1 := fun r => by
    split <;> rfl
  rw [Grammar.productions_of_rules hw.rules hf (hw.ruleOf_fst_ne hh), List.map_map]
  refine (List.map_congr_left fun p hp => ?_).trans (List.map_id _)
  exact hw.bare_dressed (r := (head, p)) (Grammar.mem_rules_iff.mpr hp)

theorem productions_wrapper (hw : Wrapped w done part ws w') {pair : String × String}
    (hm : pair ∈ ws) : w'.grammar.productions pair.2 = [[.terminal pair.1]] :=
  Grammar.productions_eq_singleton fun _ => hw.reached.mem_productions_wrapper hm

end Wrapped

-- ---------------------------------------------------------------------------
-- The run
-- ---------------------------------------------------------------------------

namespace Rewriting

/-- Every terminal of a long production has a wrapper of its own, and nothing is lost behind the
wrappers. -/
theorem wrapTerminals_undone (h : wrapTerminals w = .ok ws w') :
    ws.map Prod.fst = w.grammar.innerTerminals ∧
    (ws.map Prod.snd).Nodup ∧ (∀ name ∈ ws.map Prod.snd, ¬ w.grammar.Mentions name) ∧
    w'.grammar.heads = w.grammar.heads ++ ws.map Prod.snd ∧
    (∀ pair ∈ ws, w'.grammar.productions pair.2 = [[.terminal pair.1]]) ∧
    (∀ rule ∈ w'.grammar.rules, 2 ≤ rule.2.length → ∀ t, .terminal t ∉ rule.2) ∧
    ∀ head ∈ w.grammar.heads,
      (w'.grammar.productions head).map ws.bare = w.grammar.productions head := by
  have hw := (wrapTerminals_triple w).of_ok h
  refine ⟨?_, hw.drawn.nodup, hw.drawn.not_mentions, hw.heads,
    fun _ => hw.productions_wrapper, ?_, fun _ => hw.map_bare_productions⟩
  · rw [hw.terminals, List.append_nil]
    exact w.grammar.toList_mixedTerminals
  · rintro ⟨head, p⟩ hr hl t ht
    exact hw.not_mixed head p (Grammar.mem_rules_iff.mp hr)
      ⟨hl, Production.hasTerminal_iff.mpr ⟨t, ht⟩⟩

/-- `a` stands in two long productions, `b` stands alone, and a head is called like a wrapper. -/
def shared : Workspace where
  grammar := .ofRules [("S", .compact "aSc"), ("S", .compact "aB"), ("B", .compact "b"),
    ("X0", .compact "B")]
  names := .start "X" 3

def sharedWrapped : Workspace where
  grammar := .ofRules [("S", [.nonterminal "X1", .nonterminal "S", .nonterminal "X2"]),
    ("S", [.nonterminal "X1", .nonterminal "B"]), ("B", .compact "b"), ("X0", .compact "B"),
    ("X1", .compact "a"), ("X2", .compact "c")]
  names := ⟨"X", 3, 3, 2, ["X1", "X2"]⟩

/-- The names suffice, and with the wrappers off `S` has its productions again. -/
theorem wrapTerminals_undone_shared :
    wrapTerminals shared = .ok [("a", "X1"), ("c", "X2")] sharedWrapped ∧
    (sharedWrapped.grammar.productions "S").map (Wrappers.bare [("a", "X1"), ("c", "X2")]) =
      shared.grammar.productions "S" := by
  have hrun : wrapTerminals shared = .ok [("a", "X1"), ("c", "X2")] sharedWrapped := by
    decide +kernel
  obtain ⟨-, -, -, -, -, -, hback⟩ := wrapTerminals_undone hrun
  exact ⟨hrun, hback "S" (by decide +kernel)⟩

end Rewriting

end ContextFree
