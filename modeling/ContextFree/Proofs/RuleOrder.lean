import ContextFree.Proofs.ChainedRules
import ContextFree.Proofs.EmptyWordGap
import ContextFree.Proofs.FinishedConversions
import ContextFree.Proofs.UnitPasses

/-!
# Grammars that differ in order only

Two grammars with the same rules in another order have the same nullable names,
the same rules when ε and units are gone, and need as many wrappers and as many
links. The passes over the units go in step: they remove the same rules and
copy the same ones, so there are as many of them (`UnitClosure.Alike`).
-/

namespace ContextFree

variable {g h : Grammar} {p q : Production} {name head target : String} {w : List String}

namespace OrderedSet

variable {α : Type} {s t : OrderedSet α}

theorem toList_perm (h : ∀ a, a ∈ s ↔ a ∈ t) : s.toList.Perm t.toList :=
  (List.perm_ext_iff_of_nodup s.nodup t.nodup).mpr h

theorem size_congr (h : ∀ a, a ∈ s ↔ a ∈ t) : s.size = t.size :=
  (toList_perm h).length_eq

end OrderedSet

-- ---------------------------------------------------------------------------
-- Without ε
-- ---------------------------------------------------------------------------

theorem Production.DropsTo.mono {s t : OrderedSet String} (hm : ∀ name ∈ s, name ∈ t)
    (hd : p.DropsTo s q) : p.DropsTo t q := by
  induction hd with
  | nil => exact .nil
  | keep x _ ih => exact .keep x ih
  | drop hn _ ih => exact .drop (hm _ hn) ih

namespace Grammar.Same

theorem add (hs : g.Same h) (head : String) (p : Production) :
    (g.add head p).Same (h.add head p) := by
  constructor
  · intro other
    rw [mem_heads_add, mem_heads_add, hs.1 other]
  · intro other q
    rw [mem_productions_add, mem_productions_add, hs.2 other q]

theorem yields (hs : g.Same h) (hy : Yields g p w) : Yields h p w := by
  induction hy with
  | nil => exact .nil
  | terminal t _ ih => exact .terminal t ih
  | nonterminal rule _ _ ihq ihp => exact .nonterminal ((hs.2 _ _).mp rule) ihq ihp

theorem derives_iff (hs : g.Same h) : g.Derives name w ↔ h.Derives name w :=
  ⟨hs.yields, hs.symm.yields⟩

theorem mem_nullable_iff (hs : g.Same h) : name ∈ g.nullable ↔ name ∈ h.nullable := by
  rw [Grammar.mem_nullable_iff, Grammar.mem_nullable_iff, hs.derives_iff]

theorem withoutEpsilon (hs : g.Same h) : g.withoutEpsilon.Same h.withoutEpsilon := by
  constructor
  · intro head
    rw [heads_withoutEpsilon, heads_withoutEpsilon, hs.1 head]
  · intro head q
    have hdrops : ∀ p : Production, p.DropsTo g.nullable q ↔ p.DropsTo h.nullable q :=
      fun p => ⟨.mono fun _ => hs.mem_nullable_iff.mp, .mono fun _ => hs.mem_nullable_iff.mpr⟩
    simp only [mem_productions_withoutEpsilon, hs.2, hdrops]

end Grammar.Same

-- ---------------------------------------------------------------------------
-- Without units
-- ---------------------------------------------------------------------------

namespace UnitClosure

/-- Two closures in the course of their passes. -/
structure Alike (c : UnitClosure g) (d : UnitClosure h) : Prop where
  grammar : c.grammar.Same d.grammar
  followed : ∀ pair, pair ∈ c.followed ↔ pair ∈ d.followed
  passes : c.passes = d.passes
  removed : c.removed = d.removed

namespace Alike

variable {c : UnitClosure g} {d : UnitClosure h}

theorem removals_perm (ha : c.Alike d) : c.removals.Perm d.removals :=
  ha.grammar.rules_perm.filter _

theorem mem_additions_iff (ha : c.Alike d) {rule : Rule} :
    rule ∈ c.additions ↔ rule ∈ d.additions := by
  obtain ⟨head, p⟩ := rule
  have hfollowed : ∀ target, target ∈ c.done head ↔ target ∈ d.done head := by
    intro target
    rw [mem_done, mem_done, ha.followed]
  simp only [mem_additions, targets, Wanted, List.mem_append, List.mem_filterMap, ha.grammar.1,
    ha.grammar.2, hfollowed]

theorem idle_iff (ha : c.Alike d) : c.Idle ↔ d.Idle := by
  simp only [Idle, List.eq_nil_iff_forall_not_mem, ha.removals_perm.mem_iff, ha.mem_additions_iff]

theorem step (ha : c.Alike d) : c.step.Alike d.step where
  grammar := by
    constructor
    · intro head
      rw [c.step.heads_eq, d.step.heads_eq, ← c.heads_eq, ← d.heads_eq, ha.grammar.1]
    · intro head p
      rw [mem_productions_step, mem_productions_step, ha.grammar.2, ha.mem_additions_iff]
  followed := by
    rintro ⟨head, target⟩
    rw [mem_followed_step, mem_followed_step, ha.followed, ha.grammar.2]
  passes := congrArg (· + 1) ha.passes
  removed := congrArg₂ (· + ·) ha.removed ha.removals_perm.length_eq

theorem finish (ha : c.Alike d) : c.finish.Alike d.finish :=
  finish_related (fun _ _ h => h.idle_iff) (fun _ _ h => h.step)
    (fun _ _ h => ⟨h.grammar, h.followed, congrArg (· + 1) h.passes, h.removed⟩) ha

end Alike

end UnitClosure

namespace Grammar.Same

theorem alike (hs : g.Same h) : g.unitClosure.Alike h.unitClosure :=
  UnitClosure.Alike.finish (c := .start g) (d := .start h) ⟨hs, fun _ => Iff.rfl, rfl, rfl⟩

theorem trimmed (hs : g.Same h) : g.trimmed.Same h.trimmed := hs.withoutEpsilon.alike.grammar

-- ---------------------------------------------------------------------------
-- What wrapping and chaining need
-- ---------------------------------------------------------------------------

theorem mixedTerminals_perm (hs : g.Same h) : g.mixedTerminals.Perm h.mixedTerminals :=
  (hs.rules_perm.filter _).flatMap_right _

theorem wrappersNeeded_eq (hs : g.Same h) : g.wrappersNeeded = h.wrappersNeeded := by
  refine OrderedSet.size_congr fun t => ?_
  rw [OrderedSet.mem_ofList, OrderedSet.mem_ofList, hs.mixedTerminals_perm.mem_iff]

theorem longRules_perm (hs : g.Same h) : g.longRules.Perm h.longRules :=
  hs.rules_perm.filter _

theorem linksNeeded_eq (hs : g.Same h) : g.linksNeeded = h.linksNeeded :=
  (hs.longRules_perm.map _).sum_nat

end Grammar.Same

end ContextFree
