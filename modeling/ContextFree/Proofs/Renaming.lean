import ContextFree.Proofs.ChainedRules
import ContextFree.Proofs.WrappedRules
import Mathlib.Data.Prod.Basic
import Mathlib.Logic.Equiv.Basic

/-!
# Renaming the nonterminals of a grammar

A permutation of names renames a grammar: the heads and the nonterminals on the
right-hand sides, rule by rule (`rules_rename`). Dressing and chaining go along
with it, if the wrappers and the links are renamed too, and so do whole runs of
wrapping and of chaining.
-/

namespace ContextFree

variable {π σ : Equiv.Perm String} {p : Production} {f f' : String → String} {name : String}
variable {links : List String} {rule : Rule} {g h : Grammar}

-- ---------------------------------------------------------------------------
-- Permutations
-- ---------------------------------------------------------------------------

/-- From a list of different names a permutation leads to any other of the same length, and moves
no name that is in neither. -/
theorem exists_perm_map_eq {xs ys : List String} (hx : xs.Nodup) (hy : ys.Nodup)
    (hl : xs.length = ys.length) :
    ∃ π : Equiv.Perm String, xs.map π = ys ∧ ∀ name, name ∉ xs → name ∉ ys → π name = name := by
  induction xs generalizing ys with
  | nil =>
    obtain rfl := List.eq_nil_of_length_eq_zero hl.symm
    exact ⟨Equiv.refl String, rfl, fun _ _ _ => rfl⟩
  | cons x xs ih =>
    obtain ⟨y, ys, rfl⟩ := List.exists_cons_of_length_eq_add_one hl.symm
    rw [List.nodup_cons] at hx hy
    obtain ⟨π, hmap, hfix⟩ := ih hx.2 hy.2 (Nat.succ.inj hl)
    -- What `π` makes of `x` is put right afterwards; it is neither `y` nor in the way of `xs`.
    refine ⟨π.trans (Equiv.swap (π x) y), ?_, fun name hnx hny => ?_⟩
    · rw [List.map_cons, Equiv.trans_apply, Equiv.swap_apply_left]
      refine congrArg (y :: ·) ((List.map_congr_left fun z hz => ?_).trans hmap)
      have hzy : π z ∈ ys := hmap ▸ List.mem_map_of_mem hz
      refine Equiv.swap_apply_of_ne_of_ne (fun he => hx.1 ?_) fun he => hy.1 (he ▸ hzy)
      exact π.injective he ▸ hz
    · rw [List.mem_cons, not_or] at hnx hny
      have hname := hfix name hnx.2 hny.2
      rw [Equiv.trans_apply, hname]
      refine Equiv.swap_apply_of_ne_of_ne (fun he => hnx.1 ?_) hny.1
      exact π.injective (hname.trans he)

-- ---------------------------------------------------------------------------
-- Symbols and productions
-- ---------------------------------------------------------------------------

def Symbol.rename (π : Equiv.Perm String) : Symbol → Symbol
  | .nonterminal name => .nonterminal (π name)
  | .terminal t => .terminal t

theorem Symbol.rename_injective (π : Equiv.Perm String) : Function.Injective (Symbol.rename π) := by
  intro s s' he
  cases s <;> cases s' <;> simp_all [Symbol.rename]

namespace Production

def rename (π : Equiv.Perm String) (p : Production) : Production := p.map (Symbol.rename π)

theorem rename_injective (π : Equiv.Perm String) : Function.Injective (rename π) :=
  List.map_injective_iff.mpr (Symbol.rename_injective π)

@[simp] theorem length_rename : (p.rename π).length = p.length := List.length_map _

theorem rename_congr (h : ∀ name, .nonterminal name ∈ p → π name = σ name) :
    p.rename π = p.rename σ := by
  refine List.map_congr_left fun s hs => ?_
  cases s with
  | nonterminal name => exact congrArg Symbol.nonterminal (h name hs)
  | terminal t => rfl

theorem rename_refl (p : Production) : p.rename (Equiv.refl String) = p := by
  refine (List.map_congr_left fun s _ => ?_).trans (List.map_id p)
  cases s <;> rfl

@[simp] theorem terminals_rename : (p.rename π).terminals = p.terminals := by
  unfold terminals rename
  rw [List.filterMap_map]
  refine congrArg (List.filterMap · p) (funext fun s => ?_)
  cases s <;> rfl

@[simp] theorem mixed_rename : (p.rename π).Mixed ↔ p.Mixed := by
  unfold Mixed
  rw [length_rename, hasTerminal_iff, hasTerminal_iff]
  simp only [← mem_terminals, terminals_rename]

theorem rename_dress (hf : ∀ t ∈ p.terminals, π (f t) = f' t) :
    (p.dress f).rename π = (p.rename π).dress f' := by
  unfold rename dress
  rw [List.map_map, List.map_map]
  refine List.map_congr_left fun s hs => ?_
  cases s with
  | nonterminal name => rfl
  | terminal t => exact congrArg Symbol.nonterminal (hf t (mem_terminals.mpr hs))

theorem rename_chain : (p.rename π).chain (links.map π) = (p.chain links).map (rename π) := by
  induction links generalizing p with
  | nil => simp [chain_nil]
  | cons link links ih =>
    cases p with
    | nil => rfl
    | cons x rest =>
      have hrest := ih (p := rest)
      unfold rename at hrest ⊢
      rw [List.map_cons, List.map_cons, chain_cons, chain_cons, hrest]
      rfl

end Production

-- ---------------------------------------------------------------------------
-- Rules
-- ---------------------------------------------------------------------------

namespace Rule

def rename (π : Equiv.Perm String) (rule : Rule) : Rule := (π rule.1, rule.2.rename π)

theorem rename_injective (π : Equiv.Perm String) : Function.Injective (rename π) :=
  Function.Injective.prodMap π.injective (Production.rename_injective π)

theorem rename_refl (rule : Rule) : rule.rename (Equiv.refl String) = rule :=
  Prod.ext rfl (Production.rename_refl rule.2)

theorem rename_wrapped (hf : rule.2.Mixed → ∀ t ∈ rule.2.terminals, π (f t) = f' t) :
    (rule.wrapped f).rename π = (rule.rename π).wrapped f' := by
  unfold wrapped
  by_cases hm : rule.2.Mixed
  · have hm' : (rule.rename π).2.Mixed := Production.mixed_rename.mpr hm
    rw [if_pos hm, if_pos hm']
    exact Prod.ext rfl (Production.rename_dress (hf hm))
  · have hm' : ¬ (rule.rename π).2.Mixed := mt Production.mixed_rename.mp hm
    rw [if_neg hm, if_neg hm']

theorem rename_opening :
    (rule.opening links).rename π = (rule.rename π).opening (links.map π) := by
  unfold opening rename
  rw [Production.rename_chain]
  cases hc : rule.2.chain links with
  | nil => exact absurd hc (Production.chain_ne_nil _ _)
  | cons first later => rfl

theorem rename_continuation :
    (rule.continuation links).map (rename π) = (rule.rename π).continuation (links.map π) := by
  unfold continuation rename
  rw [Production.rename_chain, ← List.map_tail, List.zip_map]
  rfl

end Rule

-- ---------------------------------------------------------------------------
-- Grammars
-- ---------------------------------------------------------------------------

namespace Grammar

def rename (π : Equiv.Perm String) (g : Grammar) : Grammar where
  entries := g.entries.map fun entry => (π entry.1,
    ⟨entry.2.toList.map (Production.rename π),
      entry.2.nodup.map (Production.rename_injective π)⟩)
  nodup_heads := by
    have hheads := g.nodup_heads.map π.injective
    rw [List.map_map] at hheads ⊢
    exact hheads

theorem heads_rename (π : Equiv.Perm String) (g : Grammar) :
    (g.rename π).heads = g.heads.map π := by
  unfold heads rename
  rw [List.map_map, List.map_map]
  rfl

theorem rules_rename (π : Equiv.Perm String) (g : Grammar) :
    (g.rename π).rules = g.rules.map (Rule.rename π) := by
  unfold rules rename
  rw [List.flatMap_map, List.map_flatMap]
  simp only [List.map_map]
  rfl

theorem rename_rule_congr (h : ∀ name, g.Mentions name → π name = σ name)
    (hr : rule ∈ g.rules) : rule.rename π = rule.rename σ := by
  have hp : rule.2 ∈ g.productions rule.1 := mem_rules_iff.mp hr
  refine Prod.ext (h _ (Or.inl (mem_heads_of_mem_productions hp)))
    (Production.rename_congr fun name hm => h name ?_)
  exact mentions_iff.mpr (Or.inr ⟨rule, hr, hm⟩)

theorem rename_congr (h : ∀ name, g.Mentions name → π name = σ name) : g.rename π = g.rename σ := by
  have hheads : g.heads.map π = g.heads.map σ :=
    List.map_congr_left fun head hm => h head (Or.inl hm)
  refine ext_rules (by rw [heads_rename, heads_rename, hheads]) ?_
  rw [rules_rename, rules_rename]
  exact List.map_congr_left fun rule => rename_rule_congr h

theorem rename_rule_eq_self (h : ∀ name, g.Mentions name → π name = name)
    (hr : rule ∈ g.rules) : rule.rename π = rule := by
  have hrefl : ∀ name, g.Mentions name → π name = Equiv.refl String name := h
  rw [rename_rule_congr hrefl hr, Rule.rename_refl]

theorem rename_eq_self (h : ∀ name, g.Mentions name → π name = name) : g.rename π = g := by
  have hheads : g.heads.map π = g.heads.map id :=
    List.map_congr_left fun head hm => h head (Or.inl hm)
  have hrules : g.rules.map (Rule.rename π) = g.rules.map id :=
    List.map_congr_left fun rule => rename_rule_eq_self h
  refine ext_rules ?_ ?_
  · rw [heads_rename, hheads, List.map_id]
  · rw [rules_rename, hrules, List.map_id]

theorem longRules_rename (π : Equiv.Perm String) (g : Grammar) :
    (g.rename π).longRules = g.longRules.map (Rule.rename π) := by
  unfold longRules
  rw [rules_rename, List.filter_map]
  congr 1
  refine List.filter_congr fun rule _ => ?_
  simp [Rule.rename]

theorem mixedTerminals_rename (π : Equiv.Perm String) (g : Grammar) :
    (g.rename π).mixedTerminals = g.mixedTerminals := by
  have hmixed : (g.rename π).mixedRules = g.mixedRules.map (Rule.rename π) := by
    unfold mixedRules
    rw [rules_rename, List.filter_map]
    congr 1
    exact List.filter_congr fun rule _ => decide_eq_decide.mpr Production.mixed_rename
  unfold mixedTerminals
  rw [hmixed, List.flatMap_map]
  exact List.flatMap_congr fun rule _ => Production.terminals_rename

theorem linksNeeded_rename (π : Equiv.Perm String) (g : Grammar) :
    (g.rename π).linksNeeded = g.linksNeeded := by
  unfold linksNeeded
  rw [longRules_rename, List.map_map]
  congr 1
  refine List.map_congr_left fun rule _ => ?_
  simp [Rule.rename]

theorem Same.heads_perm (hs : g.Same h) : g.heads.Perm h.heads :=
  (List.perm_ext_iff_of_nodup g.nodup_heads h.nodup_heads).mpr hs.1

theorem same_of_perm (hh : g.heads.Perm h.heads) (hr : g.rules.Perm h.rules) : g.Same h := by
  refine ⟨fun head => hh.mem_iff, fun head p => ?_⟩
  rw [← mem_rules_iff, ← mem_rules_iff, hr.mem_iff]

end Grammar

-- ---------------------------------------------------------------------------
-- Finished runs
-- ---------------------------------------------------------------------------

section
variable {s u : Workspace} {ws : Wrappers} {of of' : Rule → List String}

namespace Wrapped

variable (hw : Wrapped s s.grammar.mixedRules [] ws u)
variable (hmove : ∀ t ∈ ws.map Prod.fst, π (ws.nameOf t) = f' t)
include hw hmove

theorem heads_rename : (u.grammar.rename π).heads =
    (s.grammar.rename π).heads ++ (ws.map Prod.fst).map f' := by
  rw [Grammar.heads_rename, Grammar.heads_rename, hw.heads, List.map_append,
    ← Wrappers.map_nameOf hw.nodup_terminals, List.map_map]
  exact congrArg _ (List.map_congr_left hmove)

theorem rename_wrapped {rule : Rule} (hr : rule ∈ s.grammar.rules) :
    (rule.wrapped ws.nameOf).rename π = (rule.rename π).wrapped f' :=
  Rule.rename_wrapped fun hmixed t ht =>
    hmove t (hw.covers (Grammar.mem_mixedRules.mpr ⟨hr, hmixed⟩) ht)

theorem rules_rename : (u.grammar.rename π).rules =
    (s.grammar.rename π).rules.map (Rule.wrapped f') ++
      (ws.map Prod.fst).map fun t => Wrappers.ruleOf (t, f' t) := by
  have hold : (s.grammar.rules.map (Rule.wrapped ws.nameOf)).map (Rule.rename π) =
      (s.grammar.rename π).rules.map (Rule.wrapped f') := by
    rw [Grammar.rules_rename, List.map_map, List.map_map]
    exact List.map_congr_left fun _ => hw.rename_wrapped hmove
  have hnew : (ws.map Wrappers.ruleOf).map (Rule.rename π) =
      (ws.map Prod.fst).map fun t => Wrappers.ruleOf (t, f' t) := by
    rw [Wrappers.map_ruleOf hw.nodup_terminals, List.map_map]
    exact List.map_congr_left fun t ht => Prod.ext (hmove t ht) rfl
  rw [Grammar.rules_rename, hw.rules_eq, List.map_append, hold, hnew]

end Wrapped

namespace Linked

variable (hu : Linked s s.grammar.longRules of u)
variable (hmove : ∀ r ∈ s.grammar.longRules, (of r).map π = of' (r.rename π))
include hu hmove

theorem heads_rename : (u.grammar.rename π).heads =
    (s.grammar.rename π).heads ++ (s.grammar.rename π).longRules.flatMap of' := by
  have hnew : (s.grammar.longRules.flatMap of).map π =
      (s.grammar.rename π).longRules.flatMap of' := by
    rw [Grammar.longRules_rename, List.map_flatMap, List.flatMap_map]
    exact List.flatMap_congr hmove
  rw [Grammar.heads_rename, Grammar.heads_rename, hu.heads, List.map_append, hnew]

theorem rules_rename (hothers : ∀ r ∉ (s.grammar.rename π).longRules, of' r = []) :
    (u.grammar.rename π).rules =
      (s.grammar.rename π).rules.map (fun r => r.opening (of' r)) ++
        (s.grammar.rename π).longRules.flatMap fun r => r.continuation (of' r) := by
  -- A rule that is not chained has no links on either side.
  have hall : ∀ r, (of r).map π = of' (r.rename π) := by
    intro r
    by_cases hr : r ∈ s.grammar.longRules
    · exact hmove r hr
    · rw [hu.others r hr, hothers, List.map_nil]
      rw [Grammar.longRules_rename]
      exact fun hm => hr ((List.mem_map_of_injective (Rule.rename_injective π)).mp hm)
  have hopen : (s.grammar.rules.map fun r => r.opening (of r)).map (Rule.rename π) =
      (s.grammar.rename π).rules.map fun r => r.opening (of' r) := by
    rw [Grammar.rules_rename, List.map_map, List.map_map]
    exact List.map_congr_left fun r _ => Rule.rename_opening.trans (by rw [hall r]; rfl)
  have hcontinue : (s.grammar.longRules.flatMap fun r => r.continuation (of r)).map
      (Rule.rename π) = (s.grammar.rename π).longRules.flatMap fun r =>
        r.continuation (of' r) := by
    rw [Grammar.longRules_rename, List.map_flatMap, List.flatMap_map]
    refine List.flatMap_congr fun r _ => ?_
    rw [Rule.rename_continuation, hall r]
  rw [Grammar.rules_rename, hu.rules, List.map_append, hopen, hcontinue]

end Linked
end

end ContextFree
