import ContextFree.Proofs.RuleCounts
import ContextFree.Proofs.UnitChains
import Mathlib.Logic.Function.Iterate

/-!
# The passes of the unit closure

The closure of a grammar is what the passes have made of it when one finds
nothing to do; that one is counted as well (`finish_spec`).

A pass that copies leaves fewer rules unseen. One that only removes is the last
to find anything, as what the next could copy was there to be copied before
(`idle_step_of_additions`). There are no more rules to be seen than heads times
productions, which bounds the passes (`busy_passes_le`). What a pass removes is
followed from then on and never taken over again, so no unit rule goes twice
(`eq_of_mem_removals_after`).

The targets of a head may offer the same production more than once. Offered one
after the other, those count as copies that are new when their turn comes
(`copied_step`), and all that is removed is there to be removed
(`size_stripped`); so the counters balance (`balanced_after`).
-/

namespace ContextFree

variable {source : Grammar} {c : UnitClosure source} {head target : String} {p : Production}
variable {rule : Rule} {n : Nat}

def Grammar.distinctProductions (g : Grammar) : OrderedSet Production :=
  .ofList (g.rules.map Prod.snd)

namespace UnitClosure

def Idle (c : UnitClosure source) : Prop := c.removals = [] ∧ c.additions = []

def after (source : Grammar) (n : Nat) : UnitClosure source := step^[n] (start source)

theorem after_succ (source : Grammar) (n : Nat) : after source (n + 1) = (after source n).step :=
  Function.iterate_succ_apply' step n _

/-- The passes in order: those that find something to do, then the one that does not. -/
theorem finish_spec (c : UnitClosure source) :
    ∃ n, (∀ i < n, ¬ (step^[i] c).Idle) ∧ (step^[n] c).Idle ∧
      c.finish = { step^[n] c with passes := c.passes + n + 1 } := by
  fun_induction finish c with
  | case1 c hidle => exact ⟨0, by simp, hidle, rfl⟩
  | case2 c hbusy ih =>
    obtain ⟨n, hfirst, hlast, hfinish⟩ := ih
    refine ⟨n + 1, fun i hi => ?_, hlast, ?_⟩
    · cases i with
      | zero => exact hbusy
      | succ i => exact hfirst i (by omega)
    · have hcount : c.step.passes + n + 1 = c.passes + (n + 1) + 1 := by
        simp only [step]
        omega
      rw [hfinish, hcount]
      rfl

theorem finish_related {other : Grammar} {R : UnitClosure source → UnitClosure other → Prop}
    (idle : ∀ c d, R c d → (c.Idle ↔ d.Idle)) (step : ∀ c d, R c d → R c.step d.step)
    (last : ∀ c d, R c d → R { c with passes := c.passes + 1 } { d with passes := d.passes + 1 })
    {d : UnitClosure other} (h : R c d) : R c.finish d.finish := by
  fun_induction finish c generalizing d with
  | case1 c hidle =>
    have hidle' : d.removals = [] ∧ d.additions = [] := (idle c d h).mp hidle
    rw [finish, if_pos hidle']
    exact last c d h
  | case2 c hbusy ih =>
    have hbusy' : ¬ (d.removals = [] ∧ d.additions = []) := mt (idle c d h).mpr hbusy
    have hfinish : d.finish = d.step.finish := by rw [finish, if_neg hbusy']
    rw [hfinish]
    exact ih (step c d h)

-- ---------------------------------------------------------------------------
-- How many passes
-- ---------------------------------------------------------------------------

theorem idle_step_of_additions (ha : c.additions = []) : c.step.Idle := by
  refine ⟨removals_step_eq_nil ha, List.eq_nil_iff_forall_not_mem.mpr ?_⟩
  rintro ⟨head, p⟩ hr
  obtain ⟨hh, ⟨target, ht, hp⟩, hw, _⟩ := mem_additions.mp hr
  have hkept : ∀ {name : String} {q : Production}, q ∈ c.step.grammar.productions name ↔
      q ∈ c.grammar.productions name ∧ ∀ target, q ≠ [.nonterminal target] := by
    simp [mem_productions_step, ha]
  obtain ⟨hp, hu⟩ := hkept.mp hp
  have ht : target ∈ targets (c.grammar.productions head) (c.done head) := by
    rcases mem_targets.mp ht with hd | hunit
    · rw [mem_targets, mem_done]
      exact mem_followed_step.mp (mem_done.mp hd)
    · exact absurd rfl ((hkept.mp hunit).2 target)
  have hh : head ∈ c.grammar.heads := by rwa [c.heads_eq, ← c.step.heads_eq]
  exact hw (hkept.mpr ⟨mem_productions_of_additions ha hh ht hp hu, hu⟩)

theorem busy_iterates_le (h : ∀ i < n, ¬ (step^[i] c).Idle) : n ≤ c.unseen + 1 := by
  induction n generalizing c with
  | zero => exact Nat.zero_le _
  | succ n ih =>
    by_cases ha : c.additions = []
    · cases n with
      | zero => omega
      | succ n => exact absurd (idle_step_of_additions ha) (h 1 (by omega))
    · have hlt := unseen_step_lt ha
      have hle := ih (c := c.step) fun i hi => h (i + 1) (by omega)
      omega

theorem length_space (source : Grammar) :
    (space source).length = source.heads.length * source.distinctProductions.size := by
  simp [space, Grammar.distinctProductions, List.length_flatMap, OrderedSet.size, List.map_const']

theorem unseen_start_lt (hbusy : ¬ (start source).Idle) :
    (start source).unseen < (space source).length := by
  obtain ⟨head, p, hp⟩ : ∃ head, ∃ p, p ∈ source.productions head := by
    by_contra hnone
    simp only [not_exists] at hnone
    refine hbusy ⟨?_, ?_⟩ <;> refine List.eq_nil_iff_forall_not_mem.mpr ?_
    · rintro ⟨head, p⟩ hr
      exact hnone head p (mem_removals.mp hr).1
    · rintro ⟨head, p⟩ hr
      obtain ⟨_, ⟨target, _, hp⟩, _⟩ := mem_additions.mp hr
      exact hnone target p hp
  have hm : (head, p) ∈ space source :=
    mem_space.mpr ⟨Grammar.mem_heads_of_mem_productions hp, head, hp⟩
  have hseen : (start source).Seen (head, p) := Or.inl hp
  have hlt : (start source).unseen < (space source).countP fun _ => true :=
    countP_lt_countP hm (by simpa using hseen) rfl (by simp)
  simpa using hlt

theorem busy_passes_le (h : ∀ i < n, ¬ (after source i).Idle) :
    n ≤ source.heads.length * source.distinctProductions.size := by
  cases n with
  | zero => exact Nat.zero_le _
  | succ n =>
    have hle : n + 1 ≤ (start source).unseen + 1 := busy_iterates_le h
    have hlt := unseen_start_lt (h 0 (by omega))
    rw [length_space] at hlt
    omega

-- ---------------------------------------------------------------------------
-- No unit rule goes twice
-- ---------------------------------------------------------------------------

theorem not_mem_step_of_followed (hf : (head, target) ∈ c.step.followed) :
    [.nonterminal target] ∉ c.step.grammar.productions head := by
  intro hp
  rcases mem_productions_step.mp hp with ⟨_, hn⟩ | ha
  · exact hn target rfl
  · refine not_seen_of_mem_additions ha ?_
    rcases mem_followed_step.mp hf with hf | hp
    · exact Or.inr ⟨target, rfl, hf⟩
    · exact Or.inl hp

theorem followed_after {i j : Nat} (hij : i < j)
    (hr : (head, [.nonterminal target]) ∈ (after source i).removals) :
    (head, target) ∈ (after source j).followed := by
  induction hij with
  | refl =>
    rw [after_succ, mem_followed_step]
    exact Or.inr (mem_removals.mp hr).1
  | step _ ih =>
    rw [after_succ, mem_followed_step]
    exact Or.inl ih

theorem not_mem_removals_after {i j : Nat} (hij : i < j) (hr : rule ∈ (after source i).removals) :
    rule ∉ (after source j).removals := by
  obtain ⟨head, p⟩ := rule
  obtain ⟨_, target, rfl⟩ := mem_removals.mp hr
  have hf := followed_after hij hr
  cases j with
  | zero => exact absurd hij (Nat.not_lt_zero i)
  | succ j =>
    rw [after_succ] at hf ⊢
    exact fun hm => not_mem_step_of_followed hf (mem_removals.mp hm).1

theorem eq_of_mem_removals_after {i j : Nat} (hi : rule ∈ (after source i).removals)
    (hj : rule ∈ (after source j).removals) : i = j := by
  rcases Nat.lt_trichotomy i j with h | h | h
  · exact absurd hj (not_mem_removals_after h hi)
  · exact h
  · exact absurd hi (not_mem_removals_after h hj)

-- ---------------------------------------------------------------------------
-- The counters
-- ---------------------------------------------------------------------------

theorem nodup_removals (c : UnitClosure source) : c.removals.Nodup :=
  c.grammar.nodup_rules.filter _

theorem nodup_additions (c : UnitClosure source) : c.additions.Nodup :=
  Grammar.nodup_flatMap_rules (c.heads_eq ▸ source.nodup_heads) fun head => (c.copies head).nodup

instance (own : List Production) (head : String) (done : List String) (p : Production) :
    Decidable (Wanted head own done p) :=
  inferInstanceAs (Decidable (p ∉ own ∧ ∀ target ∈ p.unit?, target ≠ head ∧ target ∉ done))

/-- What the targets of a head have to offer, a production as often as one of them has it. -/
def offers (c : UnitClosure source) (head : String) : List Production :=
  (targets (c.grammar.productions head) (c.done head)).flatMap fun target =>
    (c.grammar.productions target).filter
      (Wanted head (c.grammar.productions head) (c.done head))

def offered (c : UnitClosure source) : List Rule :=
  c.grammar.heads.flatMap fun head => (c.offers head).map fun p => (head, p)

theorem toList_copies (c : UnitClosure source) (head : String) :
    (c.copies head).toList = (c.offers head).eraseDups := by
  unfold copies offers
  rw [OrderedSet.toList_ofList]
  congr 2
  funext target
  exact List.filter_congr fun p _ => decide_eq_decide.mpr Iff.rfl

theorem addAll_additions (c : UnitClosure source) (g : Grammar) :
    g.addAll c.additions = g.addAll c.offered := by
  simp only [additions, offered, toList_copies, Grammar.addAll_flatMap_eraseDups]

def stripped (c : UnitClosure source) : Grammar := c.grammar.removeAll c.removals

theorem step_grammar (c : UnitClosure source) : c.step.grammar = c.stripped.addAll c.offered :=
  c.addAll_additions c.stripped

/-- The copies of a pass are the offers that are new when their turn comes. -/
theorem gains_offered (c : UnitClosure source) :
    c.stripped.gains c.offered = c.additions.length := by
  have hnew : ∀ rule ∈ c.additions, rule ∉ c.stripped.rules := by
    rintro ⟨head, p⟩ hr hm
    rw [Grammar.mem_rules_iff, stripped, Grammar.mem_productions_removeAll] at hm
    exact not_seen_of_mem_additions hr (Or.inl hm.1)
  have hsize : (c.stripped.addAll c.additions).size = (c.stripped.addAll c.offered).size := by
    rw [addAll_additions]
  rw [Grammar.size_addAll, Grammar.size_addAll,
    Grammar.gains_of_new c.nodup_additions hnew] at hsize
  omega

theorem copied_step (c : UnitClosure source) :
    c.step.copied = c.copied + c.stripped.gains c.offered := by
  rw [gains_offered]
  rfl

theorem size_stripped (c : UnitClosure source) :
    c.stripped.size + c.removals.length = c.grammar.size :=
  Grammar.size_removeAll c.nodup_removals fun _ hr => (List.mem_filter.mp hr).1

/-- Rules that are there and rules that have gone are the rules there were and the copies. -/
def Balanced (c : UnitClosure source) : Prop :=
  c.grammar.size + c.removed = source.size + c.copied

theorem Balanced.step (hb : c.Balanced) : c.step.Balanced := by
  have hremoved : c.step.removed = c.removed + c.removals.length := rfl
  have hstripped := c.size_stripped
  unfold Balanced at hb ⊢
  rw [step_grammar, Grammar.size_addAll, copied_step, hremoved]
  omega

theorem balanced_after (source : Grammar) (n : Nat) : (after source n).Balanced := by
  induction n with
  | zero => rfl
  | succ n ih => exact after_succ source n ▸ ih.step

end UnitClosure

open UnitClosure in
/-- The passes end, there are at most as many as heads times productions and one more, none removes
a unit rule that another has removed, and what has been removed and copied accounts for the number
of rules. -/
theorem Grammar.unitClosure_terminates (g : Grammar) :
    (∃ n, (∀ i < n, ¬ (after g i).Idle) ∧ (after g n).Idle ∧
      g.unitClosure = { after g n with passes := n + 1 }) ∧
    (∀ i j rule, rule ∈ (after g i).removals → rule ∈ (after g j).removals → i = j) ∧
    g.unitClosure.passes ≤ 1 + g.heads.length * g.distinctProductions.size ∧
    g.unitClosure.grammar.size + g.unitClosure.removed = g.size + g.unitClosure.copied := by
  obtain ⟨n, hbusy, hidle, hfinish⟩ := (start g).finish_spec
  have hclosure : g.unitClosure = { after g n with passes := n + 1 } := by
    have hnone : (start g).passes + n + 1 = n + 1 := congrArg (· + 1) (Nat.zero_add n)
    rw [hnone] at hfinish
    exact hfinish
  refine ⟨⟨n, hbusy, hidle, hclosure⟩, fun i j rule => eq_of_mem_removals_after, ?_, ?_⟩
  · have hle := busy_passes_le hbusy
    rw [hclosure, Nat.add_comm 1]
    exact Nat.succ_le_succ hle
  · rw [hclosure]
    exact balanced_after g n

end ContextFree
