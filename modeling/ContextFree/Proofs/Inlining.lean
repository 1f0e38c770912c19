import ContextFree.Proofs.ConvertedLayout
import ContextFree.Proofs.Unwrapping
import Mathlib.Logic.Function.Iterate

/-!
# Inlining the chains

A run of chaining that finishes can be undone: where a production ends in a
link, the body of the link is put in its place, and so on until no production
ends in one. A chain over `n` links takes `n` rounds
(`iterate_inlineLast_chain`), and then nothing changes any more. So after as
many rounds as there are links every old head has the productions that it had,
in their order (`Linked.map_inlineLast_productions`). `chainLong_undone` says
this together with how many links there are, which names they have, and where
they stand.
-/

namespace ContextFree

open scoped List

variable {g : Grammar} {w w' : Workspace} {links : List String} {chains : Rule → List String}
variable {done : List Rule} {rule : Rule} {head name : String} {p q front : Production} {n : Nat}

-- ---------------------------------------------------------------------------
-- The last symbol
-- ---------------------------------------------------------------------------

namespace Grammar

/-- Where a production ends in a link, puts the body of the link in its place. -/
def inlineLast (g : Grammar) (links : List String) (p : Production) : Production :=
  match p.getLast? with
  | some (.nonterminal name) =>
    if name ∈ links then p.dropLast ++ (g.productions name).headD [] else p
  | _ => p

theorem inlineLast_append (hm : name ∈ links) (hq : g.productions name = [q]) :
    g.inlineLast links (front ++ [.nonterminal name]) = front ++ q := by
  simp [inlineLast, hm, hq]

theorem inlineLast_eq_self (h : ∀ link ∈ links, .nonterminal link ∉ p) :
    g.inlineLast links p = p := by
  unfold inlineLast
  split
  · rename_i name hlast
    exact if_neg fun hm => h name hm (List.mem_of_getLast? hlast)
  · rfl

/-- Each link of a chain, inlined in its turn, brings one more symbol of the production back. -/
theorem iterate_inlineLast_chain {chain : List String} (front : Production)
    (hl : chain.length ≤ p.length) (hlink : ∀ rule ∈ chain.zip (p.chain chain).tail,
      rule.1 ∈ links ∧ g.productions rule.1 = [rule.2]) :
    (g.inlineLast links)^[chain.length] (front ++ (p.chain chain).headD []) = front ++ p := by
  induction chain generalizing p front with
  | nil => rw [Production.chain_nil]; rfl
  | cons link chain ih =>
    cases p with
    | nil => simp at hl
    | cons x rest =>
      rw [Production.chain_cons] at hlink ⊢
      cases hc : Production.chain rest chain with
      | nil => exact absurd hc (Production.chain_ne_nil rest chain)
      | cons first later =>
        have hrest := ih (p := rest) (front ++ [x]) (by simpa using hl)
        rw [hc] at hlink hrest
        simp only [List.tail_cons, List.zip_cons_cons, List.forall_mem_cons] at hlink hrest
        have hfirst : front ++ [x, .nonterminal link] = front ++ [x] ++ [.nonterminal link] := by
          simp
        rw [List.headD_cons, List.length_cons, Function.iterate_succ_apply, hfirst,
          inlineLast_append hlink.1.1 hlink.1.2]
        exact (hrest hlink.2).trans (by simp)

end Grammar

-- ---------------------------------------------------------------------------
-- The old heads
-- ---------------------------------------------------------------------------

namespace Linked

theorem productions_link (hl : Linked w done chains w') (hr : rule ∈ done)
    (hm : (name, q) ∈ rule.continuation (chains rule)) : w'.grammar.productions name = [q] := by
  have hcontinued : (name, q) ∈ done.flatMap fun r => r.continuation (chains r) :=
    List.mem_flatMap.mpr ⟨rule, hr, hm⟩
  have hlink : name ∈ done.flatMap chains := by
    rw [← hl.map_fst_continuations]
    exact List.mem_map_of_mem hcontinued
  obtain ⟨p, -, hp⟩ := hl.exists_production hlink
  have hq : q ∈ w'.grammar.productions name :=
    Grammar.mem_rules_iff.mp (hl.mem_rules_iff.mpr (Or.inr ⟨rule, hr, hm⟩))
  rw [hp, List.mem_singleton] at hq
  rw [hp, hq]

theorem iterate_inlineLast_opening (hl : Linked w done chains w') (hr : rule ∈ w.grammar.rules)
    (hn : (done.flatMap chains).length ≤ n) :
    (w'.grammar.inlineLast (done.flatMap chains))^[n] (rule.opening (chains rule)).2 = rule.2 := by
  have hold : w'.grammar.inlineLast (done.flatMap chains) rule.2 = rule.2 :=
    Grammar.inlineLast_eq_self fun link hm hs => hl.drawn.not_mentions link hm
      (Grammar.mentions_iff.mpr (Or.inr ⟨rule, hr, hs⟩))
  have hchain : (w'.grammar.inlineLast (done.flatMap chains))^[(chains rule).length]
      (rule.opening (chains rule)).2 = rule.2 ∧ (chains rule).length ≤ n := by
    by_cases hd : rule ∈ done
    · have hlength := hl.length rule hd
      have hpart : chains rule <+ done.flatMap chains :=
        List.sublist_flatten_of_mem (List.mem_map_of_mem hd)
      refine ⟨?_, Nat.le_trans hpart.length_le hn⟩
      refine Grammar.iterate_inlineLast_chain [] (by omega) fun r hm => ⟨?_, ?_⟩
      · exact List.mem_flatMap.mpr ⟨rule, hd, (List.of_mem_zip hm).1⟩
      · exact hl.productions_link hd hm
    · rw [hl.others rule hd, Rule.opening_nil]
      exact ⟨rfl, Nat.zero_le n⟩
  obtain ⟨m, rfl⟩ := Nat.exists_eq_add_of_le hchain.2
  rw [Nat.add_comm, Function.iterate_add_apply, hchain.1, Function.iterate_fixed hold]

theorem continuation_fst_ne (hl : Linked w done chains w') (hh : head ∈ w.grammar.heads) :
    ∀ r ∈ done.flatMap fun r => r.continuation (chains r), r.1 ≠ head := by
  rintro r hm rfl
  refine hl.drawn.not_mentions r.1 ?_ (Or.inl hh)
  rw [← hl.map_fst_continuations]
  exact List.mem_map_of_mem hm

theorem map_inlineLast_productions (hl : Linked w done chains w') (hh : head ∈ w.grammar.heads)
    (hn : (done.flatMap chains).length ≤ n) :
    (w'.grammar.productions head).map (w'.grammar.inlineLast (done.flatMap chains))^[n] =
      w.grammar.productions head := by
  rw [Grammar.productions_of_rules hl.rules (fun _ => rfl) (hl.continuation_fst_ne hh),
    List.map_map]
  refine (List.map_congr_left fun p hp => ?_).trans (List.map_id _)
  have hr : (head, p) ∈ w.grammar.rules := Grammar.mem_rules_iff.mpr hp
  exact hl.iterate_inlineLast_opening hr hn

end Linked

-- ---------------------------------------------------------------------------
-- The run
-- ---------------------------------------------------------------------------

namespace Rewriting

/-- Every long production has a chain of its own, and nothing is lost in the chains. -/
theorem chainLong_undone (h : chainLong w = .ok n w') :
    n = w.grammar.rules.countP (fun rule => 2 < rule.2.length) ∧
    (∀ rule ∈ w'.grammar.rules, rule.2.length ≤ 2) ∧
    ∃ links, w'.grammar.heads = w.grammar.heads ++ links ∧
      links.length = w.grammar.linksNeeded ∧ (∀ link ∈ links, ¬ w.grammar.Mentions link) ∧
      (∀ link ∈ links, (∃ body, body.length = 2 ∧ w'.grammar.productions link = [body]) ∧
        w'.grammar.occurrences link = 1) ∧
      ∀ rounds, links.length ≤ rounds → ∀ head ∈ w.grammar.heads,
        (w'.grammar.productions head).map (w'.grammar.inlineLast links)^[rounds] =
          w.grammar.productions head := by
  obtain ⟨rfl, chains, hl⟩ := (chainLong_triple w).of_ok h
  refine ⟨List.countP_eq_length_filter.symm, ?_, w.grammar.longRules.flatMap chains, hl.heads,
    hl.length_links, hl.drawn.not_mentions, fun link hm => ?_, fun _ hn _ hh => ?_⟩
  · rintro ⟨head, p⟩ hr
    exact hl.length_le_two head p (Grammar.mem_rules_iff.mp hr)
  · exact ⟨hl.exists_production hm, hl.occurrences_link hm⟩
  · exact hl.map_inlineLast_productions hh hn

/-- Two heads with one long production, and a head that is called like a link. -/
def twins : Workspace where
  grammar := .ofRules [("S", .compact "aBcD"), ("S", .compact "aB"), ("T", .compact "aBcD"),
    ("X0", .compact "b")]
  names := .start "X" 6

def twinsChained : Workspace where
  grammar := .ofRules [("S", [.terminal "a", .nonterminal "X1"]), ("S", .compact "aB"),
    ("T", [.terminal "a", .nonterminal "X3"]), ("X0", .compact "b"),
    ("X1", [.nonterminal "B", .nonterminal "X2"]), ("X2", .compact "cD"),
    ("X3", [.nonterminal "B", .nonterminal "X4"]), ("X4", .compact "cD")]
  names := ⟨"X", 6, 5, 4, ["X1", "X2", "X3", "X4"]⟩

/-- The chains are kept apart, though they say the same. -/
theorem chainLong_undone_twins :
    chainLong twins = .ok 2 twinsChained ∧
    ∃ links, twinsChained.grammar.heads = ["S", "T", "X0"] ++ links ∧
      ∀ rounds, links.length ≤ rounds →
        [[.terminal "a", .nonterminal "X1"], Production.compact "aB"].map
            (twinsChained.grammar.inlineLast links)^[rounds] =
          [Production.compact "aBcD", Production.compact "aB"] := by
  have hrun : chainLong twins = .ok 2 twinsChained := by decide +kernel
  obtain ⟨-, -, links, hheads, -, -, -, hback⟩ := chainLong_undone hrun
  have hold : twins.grammar.heads = ["S", "T", "X0"] := by decide +kernel
  have hchained : twinsChained.grammar.productions "S" =
      [[.terminal "a", .nonterminal "X1"], Production.compact "aB"] := by decide +kernel
  have hs : twins.grammar.productions "S" =
      [Production.compact "aBcD", Production.compact "aB"] := by decide +kernel
  rw [hold] at hheads hback
  refine ⟨hrun, links, hheads, fun rounds hn => ?_⟩
  rw [← hchained, hback rounds hn "S" (by simp), hs]

end Rewriting

end ContextFree
