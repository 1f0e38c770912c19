import ContextFree.UnitClosure
import ContextFree.Proofs.Words
import Mathlib.Logic.Relation

/-!
# Unit chains

A unit chain leads from a head over unit rules to another. The unit closure of
a grammar gives every head the productions, units apart, of all heads at the
ends of its chains in the original grammar (`mem_productions_unitClosure`),
however the passes came to copy them. Nothing else about the closure matters
for the words, which stay the same (`keepsWords_unitClosure`).

Along the passes nothing is held or followed that no chain leads to, and every
rule of the source stays seen. When the passes end there are no units left, so
a seen unit has been followed; and as nothing is left to copy, its head has
all that its target has.
-/

namespace ContextFree

variable {g source : Grammar} {c : UnitClosure source}
variable {head middle target : String} {p : Production} {w : List String}

namespace Grammar

def UnitRule (g : Grammar) (head target : String) : Prop :=
  [.nonterminal target] ∈ g.productions head

/-- A chain of unit rules, perhaps none, leads from the one name to the other. -/
abbrev UnitChain (g : Grammar) : String → String → Prop := Relation.ReflTransGen g.UnitRule

theorem UnitChain.derives (hc : g.UnitChain head target) (hd : g.Derives target w) :
    g.Derives head w := by
  induction hc using Relation.ReflTransGen.head_induction_on with
  | refl => exact hd
  | head hu _ ih => exact derives_of_mem hu ih

end Grammar

-- ---------------------------------------------------------------------------
-- What the passes keep
-- ---------------------------------------------------------------------------

namespace UnitClosure

theorem mem_targets {own : List Production} {done : List String} :
    target ∈ targets own done ↔ target ∈ done ∨ [.nonterminal target] ∈ own := by
  simp [targets, Production.unit?_eq_some_iff]

structure Invariant (c : UnitClosure source) : Prop where
  held : ∀ head, ∀ p ∈ c.grammar.productions head,
    ∃ target, source.UnitChain head target ∧ p ∈ source.productions target
  followed : ∀ head target, (head, target) ∈ c.followed → source.UnitChain head target
  seen : ∀ head, ∀ p ∈ source.productions head, c.Seen (head, p)

theorem invariant_start (source : Grammar) : (start source).Invariant where
  held head p hp := ⟨head, .refl, hp⟩
  followed _ _ hf := by simp [start] at hf
  seen _ _ hp := Or.inl hp

theorem Invariant.chain_of_unit (hi : c.Invariant)
    (hu : [.nonterminal target] ∈ c.grammar.productions head) : source.UnitChain head target := by
  obtain ⟨middle, hc, hp⟩ := hi.held head _ hu
  exact hc.tail hp

theorem Invariant.chain_of_mem_targets (hi : c.Invariant)
    (ht : target ∈ targets (c.grammar.productions head) (c.done head)) :
    source.UnitChain head target := by
  rcases mem_targets.mp ht with hf | hu
  · exact hi.followed head target (mem_done.mp hf)
  · exact hi.chain_of_unit hu

theorem Invariant.step (hi : c.Invariant) : c.step.Invariant where
  held head p hp := by
    rcases mem_productions_step.mp hp with ⟨hp, _⟩ | ha
    · exact hi.held head p hp
    · obtain ⟨_, ⟨middle, ht, hp⟩, _⟩ := mem_additions.mp ha
      obtain ⟨target, hc, hs⟩ := hi.held middle p hp
      exact ⟨target, (hi.chain_of_mem_targets ht).trans hc, hs⟩
  followed head target hf := by
    rcases mem_followed_step.mp hf with hf | hu
    · exact hi.followed head target hf
    · exact hi.chain_of_unit hu
  seen head p hp := (hi.seen head p hp).step

theorem Invariant.finish (hi : c.Invariant) :
    c.finish.Invariant ∧ c.finish.removals = [] ∧ c.finish.additions = [] := by
  fun_induction UnitClosure.finish c with
  | case1 c hdone => exact ⟨⟨hi.held, hi.followed, hi.seen⟩, hdone⟩
  | case2 c _ ih => exact ih hi.step

theorem not_unit_of_removals (hr : c.removals = []) (hp : p ∈ c.grammar.productions head) :
    p ≠ [.nonterminal target] := by
  rintro rfl
  have hm : (head, [.nonterminal target]) ∈ c.removals := mem_removals.mpr ⟨hp, target, rfl⟩
  simp [hr] at hm

theorem mem_productions_of_additions (ha : c.additions = []) (hh : head ∈ c.grammar.heads)
    (ht : target ∈ targets (c.grammar.productions head) (c.done head))
    (hp : p ∈ c.grammar.productions target) (hu : ∀ target, p ≠ [.nonterminal target]) :
    p ∈ c.grammar.productions head := by
  by_contra hn
  have hm : (head, p) ∈ c.additions := by
    refine mem_additions.mpr ⟨hh, ⟨target, ht, hp⟩, hn, fun next hnext => ?_⟩
    exact absurd (Production.unit?_eq_some_iff.mp hnext) (hu next)
  simp [ha] at hm

theorem Invariant.mem_of_chain (hi : c.Invariant) (hr : c.removals = []) (ha : c.additions = [])
    (hc : source.UnitChain head target) (hp : p ∈ source.productions target)
    (hu : ∀ target, p ≠ [.nonterminal target]) : p ∈ c.grammar.productions head := by
  induction hc using Relation.ReflTransGen.head_induction_on with
  | refl =>
    rcases hi.seen target p hp with hm | ⟨next, hnext, _⟩
    · exact hm
    · exact absurd (Production.unit?_eq_some_iff.mp hnext) (hu next)
  | @head first middle hs _ ih =>
    rcases hi.seen first _ hs with hm | ⟨next, hnext, hf⟩
    · exact absurd rfl (not_unit_of_removals hr hm)
    · obtain rfl : next = middle := by simpa [Production.unit?] using hnext.symm
      have hh : first ∈ c.grammar.heads := c.heads_eq ▸ Grammar.mem_heads_of_mem_productions hs
      exact mem_productions_of_additions ha hh (mem_targets.mpr (Or.inl (mem_done.mpr hf))) ih hu

end UnitClosure

-- ---------------------------------------------------------------------------
-- The closure
-- ---------------------------------------------------------------------------

namespace Grammar

theorem mem_productions_unitClosure : p ∈ g.unitClosure.grammar.productions head ↔
    (∀ target, p ≠ [.nonterminal target]) ∧
      ∃ target, g.UnitChain head target ∧ p ∈ g.productions target := by
  obtain ⟨hi, hr, ha⟩ := (UnitClosure.invariant_start g).finish
  constructor
  · exact fun hp => ⟨fun _ => UnitClosure.not_unit_of_removals hr hp, hi.held head p hp⟩
  · rintro ⟨hu, target, hc, hp⟩
    exact hi.mem_of_chain hr ha hc hp hu

theorem heads_unitClosure (g : Grammar) : g.unitClosure.grammar.heads = g.heads :=
  g.unitClosure.heads_eq

/-- The closure has the heads of the grammar in their order, and a head has just what is no unit
and belongs to the end of one of its chains. -/
theorem unitClosure_exact (g : Grammar) :
    g.unitClosure.grammar.heads = g.heads ∧
    ∀ A p, p ∈ g.unitClosure.grammar.productions A ↔
      (∀ target, p ≠ [.nonterminal target]) ∧ ∃ B, g.UnitChain A B ∧ p ∈ g.productions B :=
  ⟨g.heads_unitClosure, fun _ _ => mem_productions_unitClosure⟩

theorem keepsWords_unitClosure (g : Grammar) : g.KeepsWords g.unitClosure.grammar where
  heads head hh := by rwa [heads_unitClosure]
  derives head _ w _ := by
    constructor
    · refine Yields.of_admissible fun name p hp v hv => ?_
      obtain ⟨_, target, hc, hp⟩ := mem_productions_unitClosure.mp hp
      exact hc.derives (derives_of_mem hp hv)
    · refine Yields.of_admissible fun name p hp v hv => ?_
      by_cases hu : ∃ target, p = [.nonterminal target]
      · obtain ⟨target, rfl⟩ := hu
        -- The target derives the word by one of its productions, which the head has too.
        obtain ⟨q, hq, hy⟩ := derives_iff.mp hv
        obtain ⟨hqu, last, hc, hl⟩ := mem_productions_unitClosure.mp hq
        exact derives_of_mem (mem_productions_unitClosure.mpr ⟨hqu, last, hc.head hp, hl⟩) hy
      · have hm := mem_productions_unitClosure.mpr
          ⟨fun target ht => hu ⟨target, ht⟩, name, .refl, hp⟩
        exact derives_of_mem hm hv

end Grammar

end ContextFree
