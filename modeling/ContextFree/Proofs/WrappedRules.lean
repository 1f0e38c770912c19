import ContextFree.Proofs.DrawnNames
import ContextFree.Proofs.RuleLists
import ContextFree.Proofs.TerminalWrappers
import Mathlib.Data.List.Perm.Subperm

/-!
# The rules that wrapping leaves

`Wrapped` says exactly what a workspace holds in the course of wrapping: the
rules in `done` have been dressed where they stood, and behind the old rules
come those of the wrappers, one for each terminal met so far, in the order in
which they were met and drawn. `wrapTerminals_triple` says that a run of
wrapping leads to such a workspace with all mixed rules dressed; or that the
supply ran dry over a terminal, with the rules before it dressed and its own
rule untouched.

No rule is lost on the way and no two become one, since a dressed rule can be
stripped again (`Wrapped.bare_dressed`).
-/

namespace ContextFree

open FreshNames (Drawn Short)
open Wrappers (Reached)

variable {g source : Grammar} {ws ws' : Wrappers} {p q : Production}
variable {f f' : String → String} {name t : String}

-- ---------------------------------------------------------------------------
-- Dressing
-- ---------------------------------------------------------------------------

namespace Production

instance (p : Production) : Decidable p.Mixed := by
  unfold Mixed
  infer_instance

def dress (f : String → String) (p : Production) : Production :=
  p.map fun
    | .nonterminal name => .nonterminal name
    | .terminal t => .nonterminal (f t)

@[simp] theorem dress_nil : dress f [] = [] := rfl

@[simp] theorem dress_nonterminal_cons :
    dress f (.nonterminal name :: p) = .nonterminal name :: dress f p := rfl

@[simp] theorem dress_terminal_cons :
    dress f (.terminal t :: p) = .nonterminal (f t) :: dress f p := rfl

@[simp] theorem length_dress : (dress f p).length = p.length := List.length_map _

theorem terminals_nonterminal_cons :
    terminals (.nonterminal name :: p) = terminals p := rfl

theorem terminals_terminal_cons : terminals (.terminal t :: p) = t :: terminals p := rfl

theorem dress_congr (h : ∀ t ∈ p.terminals, f t = f' t) :
    p.dress f = p.dress f' := by
  refine List.map_congr_left fun s hs => ?_
  cases s with
  | nonterminal _ => rfl
  | terminal t => simp only [h t (mem_terminals.mpr hs)]

theorem hasTerminal_dress (f : String → String) (p : Production) :
    (p.dress f).hasTerminal = false := by
  induction p with
  | nil => rfl
  | cons s p ih => cases s <;> exact ih

theorem nonterminal_mem_dress : .nonterminal name ∈ p.dress f ↔
    .nonterminal name ∈ p ∨ ∃ t ∈ p.terminals, name = f t := by
  induction p with
  | nil => simp [terminals]
  | cons s p ih =>
    cases s with
    | nonterminal n =>
      rw [dress_nonterminal_cons, terminals_nonterminal_cons, List.mem_cons, List.mem_cons, ih]
      tauto
    | terminal t =>
      rw [dress_terminal_cons, terminals_terminal_cons, List.mem_cons, ih]
      simp
      tauto

end Production

namespace Rule

def dressed (f : String → String) (rule : Rule) : Rule := (rule.1, rule.2.dress f)

def wrapped (f : String → String) (rule : Rule) : Rule :=
  if rule.2.Mixed then rule.dressed f else rule

@[simp] theorem length_wrapped {rule : Rule} :
    (rule.wrapped f).2.length = rule.2.length := by
  unfold wrapped
  split
  · exact Production.length_dress
  · rfl

end Rule

-- ---------------------------------------------------------------------------
-- The names of the wrappers
-- ---------------------------------------------------------------------------

namespace Wrappers

/-- The wrapper of a terminal, or the terminal itself if it has none. -/
def nameOf (ws : Wrappers) (t : String) : String := (ws.lookup t).getD t

def ruleOf (pair : String × String) : Rule := (pair.2, [.terminal pair.1])

theorem mem_of_lookup (h : ws.lookup t = some name) : (t, name) ∈ ws := by
  obtain ⟨_, _, rfl, _⟩ := List.lookup_eq_some_iff.mp h
  simp

theorem exists_lookup (h : t ∈ ws.map Prod.fst) : ∃ name, ws.lookup t = some name := by
  obtain ⟨pair, hm, rfl⟩ := List.mem_map.mp h
  exact Option.isSome_iff_exists.mp (List.lookup_isSome_iff.mpr ⟨pair, hm, by simp⟩)

theorem mem_nameOf (h : t ∈ ws.map Prod.fst) : (t, ws.nameOf t) ∈ ws := by
  obtain ⟨name, hl⟩ := exists_lookup h
  rw [nameOf, hl]
  exact mem_of_lookup hl

theorem nameOf_append (h : t ∈ ws.map Prod.fst) : nameOf (ws ++ ws') t = ws.nameOf t := by
  obtain ⟨name, hl⟩ := exists_lookup h
  simp [nameOf, List.lookup_append, hl]

theorem nameOf_eq (hn : (ws.map Prod.fst).Nodup) (hm : (t, name) ∈ ws) : ws.nameOf t = name := by
  have h := mem_nameOf (List.mem_map_of_mem (f := Prod.fst) hm)
  exact (Prod.mk.inj (List.inj_on_of_nodup_map hn h hm rfl)).2

theorem map_nameOf (hn : (ws.map Prod.fst).Nodup) :
    (ws.map Prod.fst).map ws.nameOf = ws.map Prod.snd := by
  rw [List.map_map]
  exact List.map_congr_left fun _ hm => nameOf_eq hn hm

theorem map_ruleOf (hn : (ws.map Prod.fst).Nodup) :
    ws.map ruleOf = (ws.map Prod.fst).map fun t => ruleOf (t, ws.nameOf t) := by
  rw [List.map_map]
  exact List.map_congr_left fun pair hm => Prod.ext (nameOf_eq hn hm).symm rfl

theorem wraps_dress (h : ∀ t ∈ p.terminals, t ∈ ws.map Prod.fst) :
    ws.Wraps p (p.dress ws.nameOf) := by
  induction p with
  | nil => exact .nil
  | cons s p ih =>
    cases s with
    | nonterminal name => exact .nonterminal name (ih h)
    | terminal t =>
      rw [Production.terminals_terminal_cons] at h
      exact .terminal (mem_nameOf (h t List.mem_cons_self))
        (ih fun t ht => h t (List.mem_cons_of_mem _ ht))

/-- The terminal that a wrapper stands for; other symbols stand for themselves. -/
def bareSymbol (ws : Wrappers) : Symbol → Symbol
  | .nonterminal name =>
    match ws.find? (·.2 = name) with
    | some pair => .terminal pair.1
    | none => .nonterminal name
  | .terminal t => .terminal t

def bare (ws : Wrappers) (p : Production) : Production := p.map ws.bareSymbol

theorem bareSymbol_of_not_mem (hn : name ∉ ws.map Prod.snd) :
    ws.bareSymbol (.nonterminal name) = .nonterminal name := by
  have hnone : ws.find? (·.2 = name) = none := by
    refine List.find?_eq_none.mpr fun pair hm he => hn ?_
    exact (of_decide_eq_true he) ▸ List.mem_map_of_mem hm
  simp only [bareSymbol, hnone]

theorem bareSymbol_nameOf (hn : (ws.map Prod.snd).Nodup) (ht : t ∈ ws.map Prod.fst) :
    ws.bareSymbol (.nonterminal (ws.nameOf t)) = .terminal t := by
  have hm := mem_nameOf ht
  cases hf : ws.find? (·.2 = ws.nameOf t) with
  | none =>
    have hne := List.find?_eq_none.mp hf _ hm
    simp at hne
  | some pair =>
    have he : pair.2 = ws.nameOf t := by simpa using List.find?_some hf
    have hpair := List.inj_on_of_nodup_map hn (List.mem_of_find?_eq_some hf) hm he
    simp only [bareSymbol, hf, hpair]

theorem bare_eq_self (h : ∀ name, .nonterminal name ∈ p → name ∉ ws.map Prod.snd) :
    ws.bare p = p := by
  refine (List.map_congr_left fun s hs => ?_).trans (List.map_id _)
  cases s with
  | terminal t => rfl
  | nonterminal name => exact bareSymbol_of_not_mem (h name hs)

theorem bare_dress (hn : (ws.map Prod.snd).Nodup) (ht : ∀ t ∈ p.terminals, t ∈ ws.map Prod.fst)
    (h : ∀ name, .nonterminal name ∈ p → name ∉ ws.map Prod.snd) :
    ws.bare (p.dress ws.nameOf) = p := by
  unfold bare Production.dress
  rw [List.map_map]
  refine (List.map_congr_left fun s hs => ?_).trans (List.map_id _)
  cases s with
  | terminal t => exact bareSymbol_nameOf hn (ht t (Production.mem_terminals.mpr hs))
  | nonterminal name => exact bareSymbol_of_not_mem (h name hs)

end Wrappers

-- ---------------------------------------------------------------------------
-- Workspaces in the course of wrapping
-- ---------------------------------------------------------------------------

theorem Grammar.mem_mixedRules {rule : Rule} :
    rule ∈ g.mixedRules ↔ rule ∈ g.rules ∧ rule.2.Mixed := by
  simp [Grammar.mixedRules, Production.Mixed]

def Grammar.mixedTerminals (g : Grammar) : List String := g.mixedRules.flatMap (·.2.terminals)

/-- The workspace when the rules in `done` have been dressed, and of the next one the terminals
in `part` have their wrappers. -/
structure Wrapped (start : Workspace) (done : List Rule) (part : List String) (ws : Wrappers)
    (u : Workspace) : Prop where
  reached : Reached start.grammar u.grammar ws
  heads : u.grammar.heads = start.grammar.heads ++ ws.map Prod.snd
  rules : u.grammar.rules =
    start.grammar.rules.map (fun r => if r ∈ done then r.dressed ws.nameOf else r) ++
      ws.map Wrappers.ruleOf
  drawn : Drawn start.grammar start.names (ws.map Prod.snd) u.names
  terminals : ws.map Prod.fst =
    (OrderedSet.ofList (done.flatMap (·.2.terminals) ++ part)).toList

namespace Wrapped

variable {start u : Workspace} {done : List Rule} {part : List String} {rule r : Rule} {n : Nat}

theorem nothing (start : Workspace) : Wrapped start [] [] [] start where
  reached := .start
  heads := by simp
  rules := by simp
  drawn := .nothing
  terminals := rfl

theorem mem_terminals (hw : Wrapped start done part ws u) :
    t ∈ ws.map Prod.fst ↔ t ∈ done.flatMap (·.2.terminals) ∨ t ∈ part := by
  rw [hw.terminals, OrderedSet.mem_toList, OrderedSet.mem_ofList, List.mem_append]

theorem covers (hw : Wrapped start done part ws u) (hr : r ∈ done) (ht : t ∈ r.2.terminals) :
    t ∈ ws.map Prod.fst :=
  hw.mem_terminals.mpr (Or.inl (List.mem_flatMap.mpr ⟨r, hr, ht⟩))

theorem nodup_terminals (hw : Wrapped start done part ws u) : (ws.map Prod.fst).Nodup := by
  rw [hw.terminals]
  exact OrderedSet.nodup _

theorem not_mem_of_mem_rules (hw : Wrapped start done part ws u) (hr : r ∈ start.grammar.rules) :
    r.1 ∉ ws.map Prod.snd ∧ ∀ name, .nonterminal name ∈ r.2 → name ∉ ws.map Prod.snd := by
  have hp : r.2 ∈ start.grammar.productions r.1 := Grammar.mem_rules_iff.mp hr
  constructor
  · exact fun hm => hw.drawn.not_mentions _ hm (Or.inl (Grammar.mem_heads_of_mem_productions hp))
  · exact fun name hs hm => Grammar.not_mem_of_not_mentions (hw.drawn.not_mentions name hm) hp hs

theorem nonterminal_mem_symbols (hw : Wrapped start done part ws u)
    (hm : .nonterminal name ∈ u.grammar.symbols) :
    .nonterminal name ∈ start.grammar.symbols ∨ name ∈ ws.map Prod.snd := by
  unfold Grammar.symbols at hm ⊢
  rw [hw.rules, List.flatMap_append, List.mem_append, List.mem_flatMap, List.mem_flatMap] at hm
  rcases hm with ⟨r, hr, hs⟩ | ⟨r, hr, hs⟩
  · obtain ⟨r, hold, rfl⟩ := List.mem_map.mp hr
    split at hs
    · rename_i hd
      rcases Production.nonterminal_mem_dress.mp hs with hs | ⟨t, ht, rfl⟩
      · exact Or.inl (List.mem_flatMap.mpr ⟨r, hold, hs⟩)
      · exact Or.inr (List.mem_map_of_mem (Wrappers.mem_nameOf (hw.covers hd ht)))
    · exact Or.inl (List.mem_flatMap.mpr ⟨r, hold, hs⟩)
  · obtain ⟨pair, _, rfl⟩ := List.mem_map.mp hr
    simp [Wrappers.ruleOf] at hs

theorem nonterminal_mem_symbols_of_start (hw : Wrapped start done part ws u)
    (hm : .nonterminal name ∈ start.grammar.symbols) :
    .nonterminal name ∈ u.grammar.symbols := by
  unfold Grammar.symbols at hm ⊢
  obtain ⟨r, hr, hs⟩ := List.mem_flatMap.mp hm
  rw [hw.rules, List.flatMap_append, List.mem_append]
  refine Or.inl (List.mem_flatMap.mpr ⟨_, List.mem_map_of_mem hr, ?_⟩)
  split
  · exact Production.nonterminal_mem_dress.mpr (Or.inl hs)
  · exact hs

theorem mentions_iff (hw : Wrapped start done part ws u) (name : String) :
    u.grammar.Mentions name ↔ start.grammar.Mentions name ∨ name ∈ ws.map Prod.snd := by
  rw [Grammar.mentions_iff_symbols, Grammar.mentions_iff_symbols, hw.heads, List.mem_append]
  constructor
  · rintro ((hh | hm) | hs)
    · exact Or.inl (Or.inl hh)
    · exact Or.inr hm
    · exact (hw.nonterminal_mem_symbols hs).imp_left Or.inr
  · rintro ((hh | hs) | hm)
    · exact Or.inl (Or.inl hh)
    · exact Or.inr (hw.nonterminal_mem_symbols_of_start hs)
    · exact Or.inl (Or.inr hm)

theorem bare_dressed (hw : Wrapped start done part ws u) (hr : r ∈ start.grammar.rules) :
    ws.bare (if r ∈ done then r.dressed ws.nameOf else r).2 = r.2 := by
  have hn := (hw.not_mem_of_mem_rules hr).2
  split
  · rename_i hd
    exact Wrappers.bare_dress hw.drawn.nodup (fun _ ht => hw.covers hd ht) hn
  · exact Wrappers.bare_eq_self hn

theorem dressed_inj (hw : Wrapped start done part ws u) {r r' : Rule}
    (hr : r ∈ start.grammar.rules) (hr' : r' ∈ start.grammar.rules)
    (he : (if r ∈ done then r.dressed ws.nameOf else r) = r') : r = r' := by
  have hfst : r.1 = r'.1 := by
    rw [← he]
    split <;> rfl
  refine Prod.ext hfst ?_
  rw [← hw.bare_dressed hr, he]
  exact Wrappers.bare_eq_self (hw.not_mem_of_mem_rules hr').2

-- ---------------------------------------------------------------------------
-- Two steps
-- ---------------------------------------------------------------------------

theorem wrapper (hw : Wrapped start done part ws u) (ht : t ∉ ws.map Prod.fst)
    (hf : u.names.FirstFree u.grammar n) :
    Wrapped start done (part ++ [t]) (ws ++ [(t, FreshNames.numbered u.names.stem n)])
      ⟨u.grammar.add (FreshNames.numbered u.names.stem n) [.terminal t], u.names.past n⟩ where
  reached := hw.reached.wrapper t hf.free
  heads := by
    rw [Grammar.heads_add, if_neg (Grammar.not_mem_heads_of_not_mentions hf.free), hw.heads]
    simp
  rules := by
    rw [Grammar.rules_add_of_not_mem (Grammar.not_mem_heads_of_not_mentions hf.free), hw.rules,
      List.map_append, ← List.append_assoc]
    congr 2
    refine List.map_congr_left fun r _ => ?_
    split
    · rename_i hd
      exact Prod.ext rfl (Production.dress_congr fun t ht =>
        (Wrappers.nameOf_append (hw.covers hd ht)).symm)
    · rfl
  drawn := by
    rw [List.map_append]
    exact hw.drawn.extend hw.mentions_iff (.single hf)
  terminals := by
    have hnew : t ∉ OrderedSet.ofList (done.flatMap (·.2.terminals) ++ part) := by
      rw [← OrderedSet.mem_toList, ← hw.terminals]
      exact ht
    rw [List.map_append, hw.terminals, ← List.append_assoc, OrderedSet.ofList_append_singleton,
      OrderedSet.toList_insert_of_not_mem hnew]
    rfl

theorem again (hw : Wrapped start done part ws u) (ht : t ∈ ws.map Prod.fst) :
    Wrapped start done (part ++ [t]) ws u where
  reached := hw.reached
  heads := hw.heads
  rules := hw.rules
  drawn := hw.drawn
  terminals := by
    have hold : t ∈ OrderedSet.ofList (done.flatMap (·.2.terminals) ++ part) := by
      rw [← OrderedSet.mem_toList, ← hw.terminals]
      exact ht
    rw [hw.terminals, ← List.append_assoc, OrderedSet.ofList_append_singleton,
      OrderedSet.toList_insert_of_mem hold]

theorem put (hw : Wrapped start done rule.2.terminals ws u) (hr : rule ∈ start.grammar.rules)
    (hd : rule ∉ done) (hm : rule.2.Mixed) :
    Wrapped start (done ++ [rule]) [] ws
      { u with grammar := u.grammar.replace rule.1 rule.2 (rule.2.dress ws.nameOf) } := by
  have hcovers : ∀ t ∈ rule.2.terminals, t ∈ ws.map Prod.fst :=
    fun t ht => hw.mem_terminals.mpr (Or.inr ht)
  obtain ⟨hhead, hsymbols⟩ := hw.not_mem_of_mem_rules hr
  have hwrapper : ∀ pair ∈ ws, (Wrappers.ruleOf pair).1 ≠ rule.1 :=
    fun pair hpair he => hhead (he ▸ List.mem_map_of_mem hpair)
  have hq : rule.2.dress ws.nameOf ∉ u.grammar.productions rule.1 := by
    intro hq
    have hmem : (rule.1, rule.2.dress ws.nameOf) ∈ u.grammar.rules := Grammar.mem_rules_iff.mpr hq
    rw [hw.rules, List.mem_append] at hmem
    rcases hmem with hmem | hmem
    · obtain ⟨r, hr', he⟩ := List.mem_map.mp hmem
      have hsame : r = rule := by
        refine Prod.ext ?_ ?_
        · have := congrArg Prod.fst he
          rw [← this]
          split <;> rfl
        · rw [← hw.bare_dressed hr', he]
          exact Wrappers.bare_dress hw.drawn.nodup hcovers hsymbols
      subst hsame
      rw [if_neg hd] at he
      have hsnd : r.2 = r.2.dress ws.nameOf := congrArg Prod.snd he
      have hno := Production.hasTerminal_dress ws.nameOf r.2
      rw [← hsnd, hm.2] at hno
      exact Bool.noConfusion hno
    · obtain ⟨pair, hpair, he⟩ := List.mem_map.mp hmem
      have hfst := congrArg Prod.fst he
      exact hwrapper pair hpair hfst
  constructor
  · exact hw.reached.put rule.1 hm.1 (Wrappers.wraps_dress hcovers)
  · rw [Grammar.heads_replace]
    exact hw.heads
  · rw [Grammar.rules_replace hq, hw.rules, List.map_append, List.map_map]
    congr 1
    · refine List.map_congr_left fun r hr' => ?_
      simp only [Function.comp_apply]
      by_cases he : r = rule
      · subst he
        rw [if_neg hd, if_pos rfl, if_pos (by simp)]
        rfl
      · rw [if_neg fun h => he (hw.dressed_inj hr' hr h)]
        simp [he]
    · refine (List.map_congr_left fun r hr' => if_neg fun he => ?_).trans (List.map_id _)
      obtain ⟨pair, hpair, rfl⟩ := List.mem_map.mp hr'
      exact hwrapper pair hpair (congrArg Prod.fst he)
  · exact hw.drawn
  · rw [hw.terminals]
    simp

theorem rules_eq (hw : Wrapped start start.grammar.mixedRules [] ws u) : u.grammar.rules =
    start.grammar.rules.map (Rule.wrapped ws.nameOf) ++ ws.map Wrappers.ruleOf := by
  rw [hw.rules]
  congr 1
  refine List.map_congr_left fun r hr => ?_
  unfold Rule.wrapped
  simp only [Grammar.mem_mixedRules, hr, true_and]

theorem not_mixed (hw : Wrapped start start.grammar.mixedRules [] ws u) :
    ∀ head, ∀ p ∈ u.grammar.productions head, ¬ p.Mixed := by
  intro head p hp hm
  have hmem : (head, p) ∈ u.grammar.rules := Grammar.mem_rules_iff.mpr hp
  rw [hw.rules_eq, List.mem_append, List.mem_map, List.mem_map] at hmem
  rcases hmem with ⟨r, _, he⟩ | ⟨pair, _, he⟩
  · unfold Rule.wrapped at he
    split at he
    · have hp' : r.2.dress ws.nameOf = p := congrArg Prod.snd he
      rw [← hp', Production.Mixed, Production.hasTerminal_dress] at hm
      simp at hm
    · rename_i hr
      exact hr (he ▸ hm)
  · have hp' : [.terminal pair.1] = p := congrArg Prod.snd he
    rw [← hp'] at hm
    simp [Production.Mixed] at hm

end Wrapped

-- ---------------------------------------------------------------------------
-- The run
-- ---------------------------------------------------------------------------

def Grammar.wrappersNeeded (g : Grammar) : Nat := (OrderedSet.ofList g.mixedTerminals).size

theorem Wrapped.length_names {s u : Workspace} (hw : Wrapped s s.grammar.mixedRules [] ws u) :
    (ws.map Prod.snd).length = s.grammar.wrappersNeeded := by
  have hterminals := congrArg List.length hw.terminals
  rw [List.append_nil, List.length_map] at hterminals
  rw [List.length_map]
  exact hterminals

/-- A run of wrapping has stopped over a terminal of `rule`: the mixed rules before it have been
dressed, and the supply ran dry. -/
inductive WrappingStopped (start : Workspace) (e : Exhausted) (u : Workspace) : Prop
  | over {done : List Rule} {rule : Rule} {part : List String} {t : String} {ws : Wrappers}
    {before : FreshNames} (split : (done ++ [rule]) <+: start.grammar.mixedRules)
    (within : (part ++ [t]) <+: rule.2.terminals) (new : t ∉ ws.map Prod.fst)
    (wrapped : Wrapped start done part ws ⟨u.grammar, before⟩) (dry : before.Dry u.grammar)
    (names : u.names = before.spent) (reason : e = ⟨start.names.stem, start.names.limit⟩)

namespace WrappingStopped

variable {start u : Workspace} {e : Exhausted}

theorem reached (hs : WrappingStopped start e u) : ∃ ws, Reached start.grammar u.grammar ws := by
  obtain ⟨_, _, _, wrapped, _, _, _⟩ := hs
  exact ⟨_, wrapped.reached⟩

theorem short (hs : WrappingStopped start e u) : ∃ drawn last,
    Short start.grammar start.names start.grammar.wrappersNeeded drawn last ∧
      u.names = last.spent := by
  obtain @⟨done, rule, part, t, ws, before, split, within, new, wrapped, dry, names, _⟩ := hs
  refine ⟨_, _, ⟨wrapped.drawn, ?_, ?_⟩, names⟩
  · exact wrapped.drawn.dry_of_dry wrapped.mentions_iff .nothing dry
  · have hn : (ws.map Prod.fst ++ [t]).Nodup :=
      List.nodup_append.mpr ⟨wrapped.nodup_terminals, List.nodup_singleton t,
        fun a ha b hb he => new (List.mem_singleton.mp hb ▸ he ▸ ha)⟩
    have hrule : ∀ r ∈ done ++ [rule], ∀ t ∈ r.2.terminals, t ∈ start.grammar.mixedTerminals :=
      fun r hr t ht => List.mem_flatMap.mpr ⟨r, split.subset hr, ht⟩
    have hsub : ws.map Prod.fst ++ [t] ⊆
        (OrderedSet.ofList start.grammar.mixedTerminals).toList := by
      intro s hs
      rw [OrderedSet.mem_toList, OrderedSet.mem_ofList]
      rcases List.mem_append.mp hs with hs | hs
      · rcases wrapped.mem_terminals.mp hs with hs | hs
        · obtain ⟨r, hr, ht⟩ := List.mem_flatMap.mp hs
          exact hrule r (List.mem_append_left _ hr) s ht
        · exact hrule rule (by simp) s (within.subset (List.mem_append_left _ hs))
      · exact hrule rule (by simp) s (within.subset (List.mem_append_right _ hs))
    have hle := (List.subperm_of_subset hn hsub).length_le
    simp only [List.length_append, List.length_map, List.length_singleton] at hle ⊢
    exact hle

end WrappingStopped

namespace Wrappers

open Rewriting (Triple fresh_triple)

variable {start u : Workspace} {done : List Rule} {part : List String} {rule : Rule}

theorem find_triple (t : String) (hw : Wrapped start done part ws u)
    (hsplit : (done ++ [rule]) <+: start.grammar.mixedRules)
    (hwithin : (part ++ [t]) <+: rule.2.terminals) :
    Triple (ws.find t) u
      (fun r u' => Wrapped start done (part ++ [t]) r.2 u' ∧ r.1 = r.2.nameOf t ∧ ws <+: r.2)
      (WrappingStopped start) := by
  unfold find
  split
  · rename_i name hl
    have hm : t ∈ ws.map Prod.fst := List.mem_map_of_mem (mem_of_lookup hl)
    refine Triple.pure ⟨hw.again hm, ?_, List.prefix_rfl⟩
    simp [nameOf, hl]
  · rename_i hl
    have hm : t ∉ ws.map Prod.fst := fun hm => by
      obtain ⟨_, he⟩ := exists_lookup hm
      simp [hl] at he
    refine Triple.bind ((fresh_triple u).mono_stopped ?_) ?_
    · rintro e _ ⟨rfl, rfl, hdry⟩
      refine .over hsplit hwithin hm hw hdry rfl ?_
      rw [hw.drawn.stem_eq, hw.drawn.limit_eq]
    · rintro name _ ⟨n, hf, rfl, rfl⟩
      refine Triple.bind (Triple.edit (Q := fun _ u' => u' = ⟨u.grammar.add _ _, _⟩) rfl) ?_
      rintro _ _ rfl
      refine Triple.pure ⟨hw.wrapper hm hf, ?_, List.prefix_append ..⟩
      have hnone : ws.lookup t = none := hl
      simp [nameOf, List.lookup_append, hnone]

theorem wrap_triple (p : Production) (hw : Wrapped start done part ws u)
    (hsplit : (done ++ [rule]) <+: start.grammar.mixedRules)
    (hwithin : (part ++ p.terminals) <+: rule.2.terminals) :
    Triple (ws.wrap p) u
      (fun r u' => Wrapped start done (part ++ p.terminals) r.2 u' ∧ r.1 = p.dress r.2.nameOf ∧
        ws <+: r.2)
      (WrappingStopped start) := by
  induction p generalizing ws u part with
  | nil => exact Triple.pure ⟨by simpa [Production.terminals] using hw, rfl, List.prefix_rfl⟩
  | cons s p ih =>
    cases s with
    | nonterminal name =>
      refine Triple.bind (ih hw hwithin) ?_
      rintro ⟨q, ws'⟩ u' ⟨hw', hq, hpre⟩
      exact Triple.pure ⟨hw', congrArg (Symbol.nonterminal name :: ·) hq, hpre⟩
    | terminal t =>
      rw [Production.terminals_terminal_cons, List.append_cons] at hwithin
      have hfirst : (part ++ [t]) <+: rule.2.terminals :=
        (List.prefix_append ..).trans hwithin
      refine Triple.bind (find_triple t hw hsplit hfirst) ?_
      rintro ⟨wrapper, ws₁⟩ u₁ ⟨hw₁, hwrapper, hpre₁⟩
      refine Triple.bind (ih hw₁ hwithin) ?_
      rintro ⟨q, ws₂⟩ u₂ ⟨hw₂, hq, hpre₂⟩
      have hname : wrapper = ws₂.nameOf t := by
        obtain ⟨more, rfl⟩ : ∃ more, ws₁ ++ more = ws₂ := hpre₂
        rw [nameOf_append (hw₁.mem_terminals.mpr (Or.inr (by simp)))]
        exact hwrapper
      refine Triple.pure ⟨?_, ?_, hpre₁.trans hpre₂⟩
      · rw [Production.terminals_terminal_cons, List.append_cons]
        exact hw₂
      · rw [Production.dress_terminal_cons, ← hname]
        exact congrArg (Symbol.nonterminal wrapper :: ·) hq

theorem wrapRules_triple (rules : List Rule) (hw : Wrapped start done [] ws u)
    (hsplit : done ++ rules = start.grammar.mixedRules) :
    Triple (ws.wrapRules rules) u
      (fun ws' u' => Wrapped start start.grammar.mixedRules [] ws' u')
      (WrappingStopped start) := by
  induction rules generalizing ws u done with
  | nil => exact Triple.pure (by simpa [← hsplit] using hw)
  | cons rule rules ih =>
    have hrule : (done ++ [rule]) <+: start.grammar.mixedRules := ⟨rules, by simpa using hsplit⟩
    have hd : rule ∉ done := by
      have hn : (done ++ [rule]).Nodup :=
        hrule.sublist.nodup (start.grammar.nodup_rules.filter _)
      simpa using (List.nodup_append.mp hn).2.2 rule
    have hmem : rule ∈ start.grammar.mixedRules := hrule.subset (by simp)
    obtain ⟨hr, hm⟩ := Grammar.mem_mixedRules.mp hmem
    refine Triple.bind (wrap_triple rule.2 hw hrule List.prefix_rfl) ?_
    rintro ⟨q, ws'⟩ u' ⟨hw', hq, _⟩
    obtain rfl : q = rule.2.dress ws'.nameOf := hq
    refine Triple.bind (Triple.edit (Q := fun _ u'' => u'' = ⟨u'.grammar.replace _ _ _, _⟩) rfl) ?_
    rintro _ _ rfl
    exact ih (hw'.put hr hd hm) (by simpa using hsplit)

end Wrappers

theorem Rewriting.wrapTerminals_triple (u : Workspace) :
    Triple wrapTerminals u
      (fun ws u' => Wrapped u u.grammar.mixedRules [] ws u')
      (WrappingStopped u) :=
  Triple.get (Wrappers.wrapRules_triple _ (.nothing u) rfl)

end ContextFree
