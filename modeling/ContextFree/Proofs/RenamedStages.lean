import ContextFree.Proofs.DeletionChoices
import ContextFree.Proofs.EmptyWordGap
import ContextFree.Proofs.Renaming
import ContextFree.Proofs.UnitPasses

/-!
# Renamed grammars without ε and without units

Neither deleting ε nor closing the units looks at a name except to compare it
with another. So both go along with a renaming, each step of them with the
order of what it puts in: the variants of a production are renamed, and the
passes over the units remove and copy the renamed rules
(`UnitClosure.Renamed`). What is left is the renamed grammar, in the same order
(`trimmed_rename`).
-/

namespace ContextFree

variable {π : Equiv.Perm String} {g h : Grammar} {p q : Production} {s : Symbol}
variable {head name target : String} {w : List String} {nullable nullable' : OrderedSet String}

-- ---------------------------------------------------------------------------
-- The views of a renamed grammar
-- ---------------------------------------------------------------------------

theorem Production.rename_symm (π : Equiv.Perm String) (p : Production) :
    (p.rename π).rename π.symm = p := by
  unfold rename
  rw [List.map_map]
  refine (List.map_congr_left fun s _ => ?_).trans (List.map_id p)
  cases s <;> simp [Symbol.rename]

namespace Grammar

theorem mem_heads_rename : π head ∈ (g.rename π).heads ↔ head ∈ g.heads := by
  rw [heads_rename, List.mem_map_of_injective π.injective]

theorem productions_rename (π : Equiv.Perm String) (g : Grammar) (head : String) :
    (g.rename π).productions (π head) = (g.productions head).map (Production.rename π) := by
  have hhead : ((fun rule : Rule => decide (rule.1 = π head)) ∘ Rule.rename π) =
      fun rule => decide (rule.1 = head) := by
    funext rule
    simp [Rule.rename]
  rw [productions_eq_filter, productions_eq_filter, rules_rename, List.filter_map, hhead,
    List.map_map, List.map_map]
  rfl

theorem mem_productions_rename :
    p.rename π ∈ (g.rename π).productions (π head) ↔ p ∈ g.productions head := by
  rw [productions_rename, List.mem_map_of_injective (Production.rename_injective π)]

theorem mentions_rename : (g.rename π).Mentions (π name) ↔ g.Mentions name := by
  have hsymbol : ∀ rule : Rule, .nonterminal (π name) ∈ (rule.rename π).2 ↔
      .nonterminal name ∈ rule.2 := fun rule =>
    List.mem_map_of_injective (Symbol.rename_injective π) (a := .nonterminal name)
  rw [mentions_iff, mentions_iff, mem_heads_rename, rules_rename]
  simp only [List.mem_map, exists_exists_and_eq_and, hsymbol]

theorem eq_rename (hh : h.heads = g.heads.map π)
    (hp : ∀ head ∈ g.heads, h.productions (π head) =
      (g.productions head).map (Production.rename π)) : h = g.rename π := by
  refine ext_views (by rw [hh, heads_rename]) fun name hm => ?_
  rw [hh, List.mem_map] at hm
  obtain ⟨head, hhead, rfl⟩ := hm
  rw [hp head hhead, productions_rename]

theorem rename_symm (π : Equiv.Perm String) (g : Grammar) : (g.rename π).rename π.symm = g := by
  refine (eq_rename ?_ fun name hm => ?_).symm
  · simp [heads_rename, Function.comp_def]
  · rw [heads_rename, List.mem_map] at hm
    obtain ⟨head, _, rfl⟩ := hm
    simp [productions_rename, Function.comp_def, Production.rename_symm]

-- ---------------------------------------------------------------------------
-- Edits
-- ---------------------------------------------------------------------------

theorem add_rename (π : Equiv.Perm String) (g : Grammar) (head : String) (p : Production) :
    (g.rename π).add (π head) (p.rename π) = (g.add head p).rename π := by
  refine eq_rename ?_ fun other _ => ?_
  · rw [heads_add, heads_add, heads_rename]
    simp only [List.mem_map_of_injective π.injective]
    split
    · rfl
    · simp
  · by_cases ho : other = head
    · subst ho
      rw [productions_add_self, productions_add_self, productions_rename]
      simp only [List.mem_map_of_injective (Production.rename_injective π)]
      split
      · rfl
      · rw [List.map_append, List.map_singleton]
    · rw [productions_add_of_ne (π.injective.ne ho), productions_add_of_ne ho, productions_rename]

theorem addAll_rename (π : Equiv.Perm String) (g : Grammar) (rules : List Rule) :
    (g.rename π).addAll (rules.map (Rule.rename π)) = (g.addAll rules).rename π := by
  induction rules generalizing g with
  | nil => rfl
  | cons rule rules ih =>
    have hadd := add_rename π g rule.1 rule.2
    have h := ih (g.add rule.1 rule.2)
    rw [← hadd] at h
    exact h

theorem removeAll_rename (π : Equiv.Perm String) (g : Grammar) (rules : List Rule) :
    (g.rename π).removeAll (rules.map (Rule.rename π)) = (g.removeAll rules).rename π := by
  refine eq_rename (by simp [heads_rename]) fun head _ => ?_
  rw [productions_removeAll, productions_removeAll, productions_rename, List.filter_map]
  congr 1
  refine List.filter_congr fun p _ => ?_
  have hm : Rule.rename π (head, p) ∈ rules.map (Rule.rename π) ↔ (head, p) ∈ rules :=
    List.mem_map_of_injective (Rule.rename_injective π)
  rw [Rule.rename] at hm
  simp [hm]

end Grammar

-- ---------------------------------------------------------------------------
-- Without ε
-- ---------------------------------------------------------------------------

theorem Yields.rename (hy : Yields g p w) : Yields (g.rename π) (p.rename π) w := by
  induction hy with
  | nil => exact .nil
  | terminal t _ ih => exact .terminal t ih
  | nonterminal rule _ _ ihq ihp =>
    exact .nonterminal (Grammar.mem_productions_rename.mpr rule) ihq ihp

namespace Grammar

theorem derives_rename : (g.rename π).Derives (π name) w ↔ g.Derives name w := by
  have hunit : [.nonterminal (π name)] = Production.rename π [.nonterminal name] := rfl
  unfold Derives
  rw [hunit]
  refine ⟨fun hd => ?_, fun hd => hd.rename⟩
  have hback : Yields _ (Production.rename π.symm _) w := hd.rename
  rwa [rename_symm, Production.rename_symm] at hback

theorem mem_nullable_rename : π name ∈ (g.rename π).nullable ↔ name ∈ g.nullable := by
  rw [mem_nullable_iff, mem_nullable_iff, derives_rename]

theorem size_nullable_rename (π : Equiv.Perm String) (g : Grammar) :
    (g.rename π).nullable.size = g.nullable.size := by
  rw [size_nullable, size_nullable, heads_rename, List.countP_map]
  refine List.countP_congr fun head _ => ?_
  simp [derives_rename]

end Grammar

namespace Production

section
variable (hn : ∀ name, π name ∈ nullable' ↔ name ∈ nullable)
include hn

theorem optional_rename : Optional nullable' (s.rename π) ↔ Optional nullable s := by
  cases s with
  | nonterminal name => simpa [Optional, Symbol.rename] using hn name
  | terminal t => simp [Optional, Symbol.rename]

theorem selections_rename (p : Production) :
    selections nullable' (p.rename π) = (selections nullable p).map (rename π) := by
  induction p with
  | nil => rfl
  | cons s p ih =>
    have hcons : rename π (s :: p) = s.rename π :: rename π p := rfl
    by_cases hs : Optional nullable s
    · rw [hcons, selections_optional ((optional_rename hn).mpr hs), selections_optional hs, ih]
      simp [Function.comp_def, rename]
    · rw [hcons, selections_fixed (mt (optional_rename hn).mp hs), selections_fixed hs, ih]
      simp [Function.comp_def, rename]

theorem variants_rename (p : Production) :
    variants nullable' (p.rename π) = (variants nullable p).map (rename π) := by
  rw [variants_eq, variants_eq, selections_rename hn,
    OrderedSet.map_eraseDups (rename_injective π), List.filter_map]
  congr 2
  refine List.filter_congr fun q _ => ?_
  simp [rename]

end

end Production

namespace Grammar

theorem variantRules_rename (hn : ∀ name, π name ∈ nullable' ↔ name ∈ nullable) (g : Grammar) :
    (g.rename π).variantRules nullable' = (g.variantRules nullable).map (Rule.rename π) := by
  have hne : ((fun rule : Rule => decide (rule.2 ≠ [])) ∘ Rule.rename π) =
      fun rule => decide (rule.2 ≠ []) := by
    funext rule
    simp [Rule.rename, Production.rename]
  unfold variantRules
  rw [rules_rename, List.filter_map, hne, List.flatMap_map, List.map_flatMap]
  refine List.flatMap_congr fun rule _ => ?_
  have hself : ((fun q => decide (q ≠ rule.2.rename π)) ∘ Production.rename π) =
      fun q => decide (q ≠ rule.2) := by
    funext q
    simp [(Production.rename_injective π).eq_iff]
  have hrule : (Rule.rename π rule).2 = rule.2.rename π := rfl
  rw [hrule, Production.variants_rename hn, List.filter_map, hself, List.map_map, List.map_map]
  rfl

theorem withoutEpsilon_rename (π : Equiv.Perm String) (g : Grammar) :
    (g.rename π).withoutEpsilon = g.withoutEpsilon.rename π := by
  have hempty : (g.rename π).rules.filter (·.2 = []) =
      (g.rules.filter (·.2 = [])).map (Rule.rename π) := by
    rw [rules_rename, List.filter_map]
    congr 1
    exact List.filter_congr fun rule _ => by simp [Rule.rename, Production.rename]
  unfold withoutEpsilon
  rw [variantRules_rename (fun _ => mem_nullable_rename), hempty, addAll_rename, removeAll_rename]

end Grammar

-- ---------------------------------------------------------------------------
-- Without units
-- ---------------------------------------------------------------------------

theorem Production.unit?_rename : (p.rename π).unit? = p.unit?.map π := by
  match p with
  | [] => rfl
  | [.nonterminal name] => rfl
  | [.terminal t] => rfl
  | s :: s' :: p => cases s <;> rfl

namespace UnitClosure

/-- A closure in the course of its passes, and one whose grammar is the renamed one. -/
structure Renamed (π : Equiv.Perm String) (c : UnitClosure g) (d : UnitClosure h) : Prop where
  grammar : d.grammar = c.grammar.rename π
  followed : d.followed = c.followed.map (Prod.map π π)
  passes : d.passes = c.passes
  removed : d.removed = c.removed

theorem wanted_rename {own : List Production} {done : List String} :
    Wanted (π head) (own.map (Production.rename π)) (done.map π) (p.rename π) ↔
      Wanted head own done p := by
  unfold Wanted
  rw [List.mem_map_of_injective (Production.rename_injective π), Production.unit?_rename]
  refine and_congr_right fun _ => ?_
  simp only [Option.mem_map, forall_exists_index, and_imp, forall_apply_eq_imp_iff₂,
    π.injective.ne_iff, List.mem_map_of_injective π.injective]

theorem targets_rename (own : List Production) (done : List String) :
    targets (own.map (Production.rename π)) (done.map π) = (targets own done).map π := by
  simp [targets, List.filterMap_map, List.map_filterMap, Production.unit?_rename]

namespace Renamed

variable {c : UnitClosure g} {d : UnitClosure h}

theorem removals (hr : c.Renamed π d) : d.removals = c.removals.map (Rule.rename π) := by
  unfold UnitClosure.removals
  rw [hr.grammar, Grammar.rules_rename, List.filter_map]
  congr 1
  refine List.filter_congr fun rule _ => ?_
  simp [Rule.rename, Production.unit?_rename]

theorem done (hr : c.Renamed π d) (head : String) : d.done (π head) = (c.done head).map π := by
  unfold UnitClosure.done
  have hfst : ((fun pair : String × String => decide (pair.1 = π head)) ∘ Prod.map π π) =
      fun pair => decide (pair.1 = head) := by
    funext pair
    simp
  rw [hr.followed, List.filter_map, hfst, List.map_map, List.map_map]
  rfl

theorem offers (hr : c.Renamed π d) (head : String) :
    d.offers (π head) = (c.offers head).map (Production.rename π) := by
  unfold UnitClosure.offers
  rw [hr.grammar, hr.done, Grammar.productions_rename, targets_rename, List.flatMap_map,
    List.map_flatMap]
  refine List.flatMap_congr fun target _ => ?_
  rw [Grammar.productions_rename, List.filter_map]
  congr 1
  exact List.filter_congr fun p _ => decide_eq_decide.mpr wanted_rename

theorem copies (hr : c.Renamed π d) (head : String) :
    (d.copies (π head)).toList = (c.copies head).toList.map (Production.rename π) := by
  rw [toList_copies, toList_copies, hr.offers,
    OrderedSet.map_eraseDups (Production.rename_injective π)]

theorem additions (hr : c.Renamed π d) : d.additions = c.additions.map (Rule.rename π) := by
  unfold UnitClosure.additions
  rw [hr.grammar, Grammar.heads_rename, List.flatMap_map, List.map_flatMap]
  refine List.flatMap_congr fun head _ => ?_
  rw [hr.copies, List.map_map, List.map_map]
  rfl

theorem idle_iff (hr : c.Renamed π d) : c.Idle ↔ d.Idle := by
  rw [Idle, Idle, hr.removals, hr.additions, List.map_eq_nil_iff, List.map_eq_nil_iff]

theorem step (hr : c.Renamed π d) : c.step.Renamed π d.step where
  grammar := by
    show (d.grammar.removeAll d.removals).addAll d.additions = _
    rw [hr.grammar, hr.removals, hr.additions, Grammar.removeAll_rename, Grammar.addAll_rename]
    rfl
  followed := by
    show d.followed ++ d.removals.filterMap _ = List.map _ (c.followed ++ c.removals.filterMap _)
    rw [hr.followed, hr.removals, List.map_append, List.filterMap_map, List.map_filterMap]
    congr 2
    funext rule
    simp only [Function.comp_apply, Rule.rename, Production.unit?_rename, Option.map_map]
    rfl
  passes := congrArg (· + 1) hr.passes
  removed := by
    show d.removed + d.removals.length = c.removed + c.removals.length
    rw [hr.removed, hr.removals, List.length_map]

theorem finish (hr : c.Renamed π d) : c.finish.Renamed π d.finish :=
  finish_related (fun _ _ h => h.idle_iff) (fun _ _ h => h.step)
    (fun _ _ h => ⟨h.grammar, h.followed, congrArg (· + 1) h.passes, h.removed⟩) hr

end Renamed

end UnitClosure

namespace Grammar

theorem unitClosure_rename (π : Equiv.Perm String) (g : Grammar) :
    g.unitClosure.Renamed π (g.rename π).unitClosure :=
  UnitClosure.Renamed.finish (c := .start g) (d := .start (g.rename π)) ⟨rfl, rfl, rfl, rfl⟩

theorem trimmed_rename (π : Equiv.Perm String) (g : Grammar) :
    (g.rename π).trimmed = g.trimmed.rename π := by
  rw [trimmed, withoutEpsilon_rename, (unitClosure_rename π _).grammar, trimmed]

end Grammar

end ContextFree
