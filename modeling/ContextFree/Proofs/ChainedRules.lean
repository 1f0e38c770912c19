import ContextFree.Proofs.Chains
import ContextFree.Proofs.DrawnNames
import ContextFree.Proofs.RuleLists
import Mathlib.Algebra.GroupWithZero.Nat

/-!
# The rules that chaining leaves

`Linked` says exactly what a workspace holds when some long rules have been
chained: each of them gives way to the opening of its chain where it stood, the
links come behind the old heads in the order in which they were drawn, and
behind the old rules come the continuations. `chainLong_triple` says that a run
of chaining leads to such a workspace with all long rules chained; or that the
names ran out over one of them, with those before it chained and that one
untouched.
-/

namespace ContextFree

open FreshNames (Drawn Short)
open scoped List

variable {g source : Grammar} {p q : Production} {head name : String}
variable {links new : List String} {rule r : Rule}

-- ---------------------------------------------------------------------------
-- The chain of a rule
-- ---------------------------------------------------------------------------

namespace Production

theorem length_chain (hl : links.length ≤ p.length) :
    (p.chain links).length = links.length + 1 := by
  induction links generalizing p with
  | nil => rw [chain_nil]; rfl
  | cons link links ih =>
    cases p with
    | nil => simp at hl
    | cons x rest =>
      rw [chain_cons, List.length_cons, List.length_cons, ih (by simpa using hl)]

theorem flatten_chain_perm (hl : links.length ≤ p.length) :
    (p.chain links).flatten.Perm (p ++ links.map .nonterminal) := by
  induction links generalizing p with
  | nil => simp [chain_nil]
  | cons link links ih =>
    cases p with
    | nil => simp at hl
    | cons x rest =>
      have hrest := ih (p := rest) (by simpa using hl)
      rw [chain_cons, List.flatten_cons, List.map_cons, List.cons_append, List.cons_append]
      refine .cons x ?_
      exact (List.Perm.cons (.nonterminal link) hrest).trans List.perm_middle.symm

end Production

namespace Rule

/-- What stands in the place of the rule: the first production of its chain. -/
def opening (links : List String) (rule : Rule) : Rule :=
  (rule.1, (rule.2.chain links).headD [])

def continuation (links : List String) (rule : Rule) : List Rule :=
  links.zip (rule.2.chain links).tail

theorem opening_nil (rule : Rule) : opening [] rule = rule := by
  rw [opening, Production.chain_nil]
  rfl

theorem opening_cons_continuation (links : List String) (rule : Rule) :
    opening links rule :: continuation links rule =
      (rule.1 :: links).zip (rule.2.chain links) := by
  cases hc : rule.2.chain links with
  | nil => exact absurd hc (Production.chain_ne_nil _ _)
  | cons first later => simp [opening, continuation, hc]

theorem map_fst_continuation (hl : links.length ≤ rule.2.length) :
    (continuation links rule).map Prod.fst = links := by
  refine List.map_fst_zip ?_
  rw [List.length_tail, Production.length_chain hl]
  exact Nat.le_refl _

theorem symbols_chain_perm (hl : links.length ≤ rule.2.length) :
    ((opening links rule :: continuation links rule).flatMap Prod.snd).Perm
      (rule.2 ++ links.map .nonterminal) := by
  have hsnd : ((rule.1 :: links).zip (rule.2.chain links)).map Prod.snd = rule.2.chain links := by
    refine List.map_snd_zip ?_
    rw [Production.length_chain hl]
    exact Nat.le_refl _
  rw [opening_cons_continuation, List.flatMap_def, hsnd]
  exact Production.flatten_chain_perm hl

theorem mem_chain_of_mem_opening (hr : r = opening links rule ∨ r ∈ continuation links rule) :
    r.2 ∈ rule.2.chain links := by
  cases hc : rule.2.chain links with
  | nil => exact absurd hc (Production.chain_ne_nil _ _)
  | cons first later =>
    rcases hr with rfl | hr
    · simp [opening, hc]
    · rw [continuation, hc] at hr
      exact List.mem_cons_of_mem _ (List.of_mem_zip hr).2

end Rule

-- ---------------------------------------------------------------------------
-- One chain
-- ---------------------------------------------------------------------------

namespace Grammar

variable (hp : rule ∈ g.rules) (hl : rule.2.length = links.length + 2) (hne : links ≠ [])
variable (hn : links.Nodup) (hf : ∀ link ∈ links, ¬ g.Mentions link)
include hp hl hne hn hf

theorem install_eq :
    (g.install rule links).heads = g.heads ++ links ∧
    (g.install rule links).rules =
      (g.rules.map fun r => if r = rule then r.opening links else r) ++
        rule.continuation links := by
  obtain ⟨head, p⟩ := rule
  cases hc : p.chain links with
  | nil => exact absurd hc (Production.chain_ne_nil _ _)
  | cons first later =>
    obtain ⟨link, more, rfl⟩ := List.exists_cons_of_ne_nil hne
    have hfirst : ∃ x, first = [x, .nonterminal link] := by
      cases p with
      | nil => simp at hl
      | cons x rest => exact ⟨x, (List.cons.inj hc).1.symm⟩
    obtain ⟨x, rfl⟩ := hfirst
    have hq : [x, .nonterminal link] ∉ g.productions head := fun hm =>
      not_mem_of_not_mentions (hf link List.mem_cons_self) hm (by simp)
    have hcont : Rule.continuation (link :: more) (head, p) = (link :: more).zip later := by
      simp [Rule.continuation, hc]
    have hfst : ((link :: more).zip later).map Prod.fst = link :: more := by
      rw [← hcont]
      exact Rule.map_fst_continuation (by simp only at hl ⊢; omega)
    have hnew : ∀ r ∈ (link :: more).zip later,
        r.1 ∉ (g.replace head p [x, .nonterminal link]).heads := by
      intro r hr hm
      rw [heads_replace] at hm
      exact hf r.1 (List.of_mem_zip hr).1 (Or.inl hm)
    have hall := addAll_of_new (hfst.symm ▸ hn) hnew
    rw [hfst, heads_replace, rules_replace hq] at hall
    have hinstall : g.install (head, p) (link :: more) =
        (g.replace head p [x, .nonterminal link]).addAll ((link :: more).zip later) := by
      simp only [install, hc]
    rw [hinstall, hcont]
    refine ⟨hall.1, hall.2.trans ?_⟩
    congr 1
    refine List.map_congr_left fun r _ => ?_
    by_cases he : r = (head, p)
    · subst he
      simp [Rule.opening, hc]
    · simp [he]

theorem symbols_install_perm :
    (g.install rule links).symbols.Perm (g.symbols ++ links.map .nonterminal) := by
  have hrules := (install_eq hp hl hne hn hf).2
  -- The rule and the others: only the rule changes.
  have hperm : g.rules.Perm (rule :: g.rules.erase rule) := List.perm_cons_erase hp
  have hothers : (g.rules.erase rule).map (fun r => if r = rule then r.opening links else r) =
      g.rules.erase rule := by
    refine (List.map_congr_left fun r hr => if_neg ?_).trans (List.map_id _)
    rintro rfl
    exact g.nodup_rules.not_mem_erase hr
  have hmap := hperm.map fun r => if r = rule then r.opening links else r
  rw [List.map_cons, if_pos rfl, hothers] at hmap
  have hafter : (g.install rule links).rules.Perm
      (g.rules.erase rule ++ (rule.opening links :: rule.continuation links)) := by
    rw [hrules]
    exact (hmap.append_right _).trans List.perm_middle.symm
  have hbefore : g.symbols.Perm ((g.rules.erase rule).flatMap Prod.snd ++ rule.2) :=
    (hperm.flatMap_right Prod.snd).trans List.perm_append_comm
  calc (g.install rule links).symbols
    _ ~ (g.rules.erase rule).flatMap Prod.snd ++
        (rule.opening links :: rule.continuation links).flatMap Prod.snd := by
      rw [← List.flatMap_append]
      exact hafter.flatMap_right Prod.snd
    _ ~ (g.rules.erase rule).flatMap Prod.snd ++ (rule.2 ++ links.map .nonterminal) :=
      (Rule.symbols_chain_perm (by omega)).append_left _
    _ ~ g.symbols ++ links.map .nonterminal := by
      rw [← List.append_assoc]
      exact hbefore.symm.append_right _

end Grammar

-- ---------------------------------------------------------------------------
-- Several chains
-- ---------------------------------------------------------------------------

/-- The workspace when of the rules of `source` those in `done` have been chained, each over its
own links. -/
structure Linked (source : Workspace) (done : List Rule) (links : Rule → List String)
    (u : Workspace) : Prop where
  chained : Chained source.grammar u.grammar
  heads : u.grammar.heads = source.grammar.heads ++ done.flatMap links
  rules : u.grammar.rules = source.grammar.rules.map (fun r => r.opening (links r)) ++
    done.flatMap fun r => r.continuation (links r)
  symbols : u.grammar.symbols ~ source.grammar.symbols ++ (done.flatMap links).map .nonterminal
  drawn : Drawn source.grammar source.names (done.flatMap links) u.names
  length : ∀ r ∈ done, r.2.length = (links r).length + 2
  others : ∀ r, r ∉ done → links r = []

namespace Linked

variable {start u u' : Workspace} {done : List Rule} {links : Rule → List String}
variable {names : FreshNames}

theorem nothing (start : Workspace) : Linked start [] (fun _ => []) start where
  chained := .start
  heads := by simp
  rules := by simp [Rule.opening_nil]
  symbols := by simp
  drawn := .nothing
  length := by simp
  others := by simp

theorem mentions_iff (hl : Linked start done links u) (name : String) :
    u.grammar.Mentions name ↔ start.grammar.Mentions name ∨ name ∈ done.flatMap links := by
  rw [Grammar.mentions_iff_symbols, Grammar.mentions_iff_symbols, hl.heads, hl.symbols.mem_iff]
  simp only [List.mem_append, List.mem_map, Symbol.nonterminal.injEq, exists_eq_right]
  tauto

theorem mem_rules (hl : Linked start done links u) (hr : rule ∈ start.grammar.rules)
    (hd : rule ∉ done) : rule ∈ u.grammar.rules := by
  rw [hl.rules, List.mem_append, List.mem_map]
  exact Or.inl ⟨rule, hr, by rw [hl.others rule hd, Rule.opening_nil]⟩

theorem length_of_mem (hl : Linked start done links u) (hd : rule ∈ done)
    (hr : r = rule.opening (links rule) ∨ r ∈ rule.continuation (links rule)) :
    r.2.length = 2 := by
  obtain ⟨x, s, he, _⟩ :=
    Production.mem_chain (hl.length rule hd) (Rule.mem_chain_of_mem_opening hr)
  rw [he]
  rfl

theorem opening_eq_iff (hl : Linked start done links u) (hd : rule ∉ done)
    (hlong : 2 < rule.2.length) : r.opening (links r) = rule ↔ r = rule := by
  by_cases hr : r ∈ done
  · have h2 := hl.length_of_mem hr (Or.inl rfl)
    refine ⟨fun he => ?_, fun he => absurd (he ▸ hr) hd⟩
    rw [he] at h2
    omega
  · rw [hl.others r hr, Rule.opening_nil]

theorem flatMap_update {β : Type} {f : Rule → List String → List β} (hd : rule ∉ done) :
    (done.flatMap fun r => f r (Function.update links rule new r)) =
      done.flatMap fun r => f r (links r) := by
  refine List.flatMap_congr fun r hr => ?_
  have hne : r ≠ rule := fun he => hd (he ▸ hr)
  rw [Function.update_of_ne hne]

theorem install (hl : Linked start done links u) (hr : rule ∈ start.grammar.rules)
    (hd : rule ∉ done) (hlong : 2 < rule.2.length) (hnew : new.length = rule.2.length - 2)
    (hdraw : Drawn u.grammar u.names new names) :
    Linked start (done ++ [rule]) (Function.update links rule new)
      ⟨u.grammar.install rule new, names⟩ := by
  have hmem := hl.mem_rules hr hd
  have hlen : rule.2.length = new.length + 2 := by omega
  have hne : new ≠ [] := by
    rintro rfl
    simp at hlen
    omega
  have hself : Function.update links rule new rule = new := Function.update_self ..
  have hafter := Grammar.install_eq hmem hlen hne hdraw.nodup hdraw.not_mentions
  have hlinks : (done ++ [rule]).flatMap (Function.update links rule new) =
      done.flatMap links ++ new := by
    rw [List.flatMap_append, flatMap_update (f := fun _ links => links) hd, List.flatMap_singleton,
      hself]
  constructor
  · exact hl.chained.install (Grammar.mem_rules_iff.mp hmem) hlong hnew hdraw.nodup
      hdraw.not_mentions
  · rw [hafter.1, hl.heads, hlinks, List.append_assoc]
  · rw [hafter.2, hl.rules, List.map_append, List.map_map, List.flatMap_append,
      flatMap_update (f := fun r links => r.continuation links) hd, List.flatMap_singleton, hself,
      List.append_assoc]
    congr 1
    · refine List.map_congr_left fun r _ => ?_
      simp only [Function.comp_apply, hl.opening_eq_iff hd hlong]
      by_cases he : r = rule
      · subst he
        rw [if_pos rfl, hself, hl.others r hd, Rule.opening_nil]
      · rw [if_neg he, Function.update_of_ne he]
    · congr 1
      refine (List.map_congr_left fun r hm => if_neg ?_).trans (List.map_id _)
      rintro rfl
      obtain ⟨owner, ho, hm⟩ := List.mem_flatMap.mp hm
      have := hl.length_of_mem ho (Or.inr hm)
      omega
  · rw [hlinks, List.map_append, ← List.append_assoc]
    exact (Grammar.symbols_install_perm hmem hlen hne hdraw.nodup hdraw.not_mentions).trans
      (hl.symbols.append_right _)
  · rw [hlinks]
    exact hl.drawn.extend hl.mentions_iff hdraw
  · intro r hm
    rcases List.mem_append.mp hm with hm | hm
    · have hne : r ≠ rule := fun he => hd (he ▸ hm)
      rw [Function.update_of_ne hne]
      exact hl.length r hm
    · obtain rfl := List.mem_singleton.mp hm
      rw [hself]
      exact hlen
  · intro r hm
    have hne : r ≠ rule := fun he => hm (by simp [he])
    rw [Function.update_of_ne hne]
    exact hl.others r fun hm' => hm (List.mem_append_left _ hm')

theorem length_le_two (hl : Linked start start.grammar.longRules links u) :
    ∀ head, ∀ p ∈ u.grammar.productions head, p.length ≤ 2 := by
  intro head p hp
  have hm : (head, p) ∈ u.grammar.rules := Grammar.mem_rules_iff.mpr hp
  rw [hl.rules, List.mem_append, List.mem_map, List.mem_flatMap] at hm
  rcases hm with ⟨r, hr, he⟩ | ⟨r, hr, hm⟩
  · by_cases hlong : r ∈ start.grammar.longRules
    · exact Nat.le_of_eq (hl.length_of_mem hlong (Or.inl he.symm))
    · rw [hl.others r hlong, Rule.opening_nil] at he
      subst he
      simp only [Grammar.longRules, List.mem_filter, hr, decide_eq_true_eq, true_and] at hlong
      omega
  · exact Nat.le_of_eq (hl.length_of_mem hr (Or.inr hm))

end Linked

-- ---------------------------------------------------------------------------
-- The run
-- ---------------------------------------------------------------------------

def Grammar.linksNeeded (g : Grammar) : Nat := (g.longRules.map fun r => r.2.length - 2).sum

theorem Linked.length_links {start u : Workspace} {done : List Rule} {links : Rule → List String}
    (hl : Linked start done links u) :
    (done.flatMap links).length = (done.map fun r => r.2.length - 2).sum := by
  rw [List.length_flatMap]
  congr 1
  refine List.map_congr_left fun r hr => ?_
  have := hl.length r hr
  omega

/-- A run of chaining has stopped over `rule`: the long rules before it have been chained, and
the supply ran dry over its links. -/
inductive ChainsStopped (start : Workspace) (e : Exhausted) (u : Workspace) : Prop
  | over {done : List Rule} {rule : Rule} {links : Rule → List String} {before last : FreshNames}
    {drawn : List String} (split : (done ++ [rule]) <+: start.grammar.longRules)
    (linked : Linked start done links ⟨u.grammar, before⟩)
    (short : Short u.grammar before (rule.2.length - 2) drawn last)
    (names : u.names = last.spent) (reason : e = ⟨start.names.stem, start.names.limit⟩)

theorem ChainsStopped.chained {start u : Workspace} {e : Exhausted} (hs : ChainsStopped start e u) :
    Chained start.grammar u.grammar := by
  obtain ⟨_, linked, _, _, _⟩ := hs
  exact linked.chained

theorem ChainsStopped.short {start u : Workspace} {e : Exhausted} (hs : ChainsStopped start e u) :
    ∃ drawn last, Short start.grammar start.names start.grammar.linksNeeded drawn last ∧
      u.names = last.spent := by
  obtain ⟨⟨rest, hrest⟩, linked, short, names, _⟩ := hs
  have hall := linked.drawn.short linked.mentions_iff short
  refine ⟨_, _, ⟨hall.draws, hall.dry, Nat.lt_of_lt_of_le hall.few ?_⟩, names⟩
  rw [linked.length_links, Grammar.linksNeeded, ← hrest]
  simp only [List.map_append, List.sum_append, List.map_singleton, List.sum_singleton]
  omega

namespace Rewriting

variable {start u : Workspace} {done : List Rule} {links : Rule → List String}

theorem freshNames_triple (n : Nat) (u : Workspace) :
    Triple (freshNames n) u
      (fun links u' => links.length = n ∧ Drawn u.grammar u.names links u'.names ∧
        u'.grammar = u.grammar)
      (fun e u' => u'.grammar = u.grammar ∧ e = ⟨u.names.stem, u.names.limit⟩ ∧
        ∃ drawn last, Short u.grammar u.names n drawn last ∧ u'.names = last.spent) := by
  induction n generalizing u with
  | zero => exact Triple.pure ⟨rfl, .nothing, rfl⟩
  | succ n ih =>
    refine Triple.bind ((fresh_triple u).mono_stopped ?_) ?_
    · rintro e _ ⟨rfl, he, hdry⟩
      exact ⟨rfl, he, [], u.names, ⟨.nothing, hdry, by simp⟩, rfl⟩
    · rintro name _ ⟨k, hf, rfl, rfl⟩
      refine Triple.bind ((ih { u with names := u.names.past k }).mono_stopped ?_) ?_
      · rintro e u' ⟨hg, he, drawn, last, hs, hn⟩
        refine ⟨hg, he, _, last, ⟨(Drawn.single hf).append hs.draws, hs.dry, ?_⟩, hn⟩
        have := hs.few
        simp only [List.length_append, List.length_singleton]
        omega
      · rintro links u' ⟨hl, hd, hg⟩
        exact Triple.pure ⟨by simp [hl], (Drawn.single hf).append hd, hg⟩

theorem chainRule_triple (hl : Linked start done links u)
    (hsplit : (done ++ [rule]) <+: start.grammar.longRules) :
    Triple (chainRule rule) u
      (fun _ u' => ∃ links, Linked start (done ++ [rule]) links u')
      (ChainsStopped start) := by
  have hmem : rule ∈ start.grammar.longRules := hsplit.subset (by simp)
  obtain ⟨hr, hlong⟩ : rule ∈ start.grammar.rules ∧ 2 < rule.2.length := by
    simpa [Grammar.longRules] using hmem
  have hd : rule ∉ done := by
    have hn : (done ++ [rule]).Nodup := hsplit.sublist.nodup (start.grammar.nodup_rules.filter _)
    simpa using (List.nodup_append.mp hn).2.2 rule
  refine Triple.bind ((freshNames_triple _ u).mono_stopped ?_) ?_
  · rintro e u' ⟨hg, rfl, drawn, last, hs, hn⟩
    have hl' : Linked start done links ⟨u'.grammar, u.names⟩ := by
      rw [hg]
      exact hl
    refine .over hsplit hl' (hg ▸ hs) hn ?_
    rw [hl.drawn.stem_eq, hl.drawn.limit_eq]
  · rintro new u' ⟨hlen, hdraw, hg⟩
    refine Triple.edit ⟨Function.update links rule new, ?_⟩
    rw [hg]
    exact hl.install hr hd hlong hlen hdraw

theorem forM_chainRule_triple (rules : List Rule) (hl : Linked start done links u)
    (hsplit : done ++ rules = start.grammar.longRules) :
    Triple (rules.forM chainRule) u
      (fun _ u' => ∃ links, Linked start start.grammar.longRules links u')
      (ChainsStopped start) := by
  induction rules generalizing u done links with
  | nil => exact Triple.pure ⟨links, by simpa [← hsplit] using hl⟩
  | cons rule rules ih =>
    have hrule : (done ++ [rule]) <+: start.grammar.longRules := ⟨rules, by simpa using hsplit⟩
    refine Triple.bind (chainRule_triple hl hrule) ?_
    rintro _ u' ⟨links', hl'⟩
    exact ih hl' (by simpa using hsplit)

theorem chainLong_triple (u : Workspace) :
    Triple chainLong u
      (fun n u' => n = u.grammar.longRules.length ∧
        ∃ links, Linked u u.grammar.longRules links u')
      (ChainsStopped u) := by
  refine Triple.get (Triple.bind (forM_chainRule_triple _ (.nothing u) (by simp)) ?_)
  exact fun _ _ hl => Triple.pure ⟨rfl, hl⟩

end Rewriting

end ContextFree
