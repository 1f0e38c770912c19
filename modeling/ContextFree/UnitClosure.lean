import ContextFree.Grammar.Lemmas
import ContextFree.Shelves

/-!
# Closing a grammar under its unit rules

A unit rule `A → B` is replaced by copies of the productions of `B`. Copies may
be units again, so passes repeat until one has nothing to remove or to copy.

Each head remembers the targets it has followed. A unit to a remembered target,
or to the head itself, is never put back, which ends cycles; instead every pass
copies from all remembered targets again, so what a target gains later still
arrives.

The state of the closure of `source` keeps the heads of `source` and holds
productions of `source` only. A rule is seen once it has been in the grammar;
rules stay seen, every copy is a new one, and there are finitely many: that is
why the passes end.
-/

namespace ContextFree

structure UnitClosure (source : Grammar) where
  grammar : Grammar
  /-- The pairs of a head and a target whose unit rule has been removed, oldest first. -/
  followed : List (String × String)
  passes : Nat
  removed : Nat
  copied : Nat
  heads_eq : grammar.heads = source.heads
  from_source : ∀ head p, p ∈ grammar.productions head → ∃ owner, p ∈ source.productions owner

namespace UnitClosure

variable {source : Grammar}

def start (source : Grammar) : UnitClosure source where
  grammar := source
  followed := []
  passes := 0
  removed := 0
  copied := 0
  heads_eq := rfl
  from_source := fun head _ hp => ⟨head, hp⟩

/-- The targets that a head has followed in earlier passes. -/
def done (c : UnitClosure source) (head : String) : List String :=
  (c.followed.filter fun pair => pair.1 = head).map Prod.snd

def targets (own : List Production) (done : List String) : List String :=
  done ++ own.filterMap Production.unit?

/-- Whether a head with productions `own` that has followed `done` takes a production over: it
has not got it, and it is no unit to the head itself or to a target it has followed. -/
def Wanted (head : String) (own : List Production) (done : List String) (p : Production) : Prop :=
  p ∉ own ∧ ∀ target ∈ p.unit?, target ≠ head ∧ target ∉ done

def Wanted.decide {own : List Production} (shelves : Shelves own) (head : String)
    (done : List String) (p : Production) : Decidable (Wanted head own done p) :=
  have := shelves.decideMem p
  inferInstanceAs (Decidable (p ∉ own ∧ ∀ target ∈ p.unit?, target ≠ head ∧ target ∉ done))

/-- What a head takes over from its targets, each production once. -/
def copies (c : UnitClosure source) (head : String) : OrderedSet Production :=
  let own := c.grammar.productions head
  let shelves := Shelves.ofList own
  let done := c.done head
  .ofList ((targets own done).flatMap fun target =>
    (c.grammar.productions target).filter fun p =>
      have := Wanted.decide shelves head done p
      Wanted head own done p)

def additions (c : UnitClosure source) : List Rule :=
  c.grammar.heads.flatMap fun head => (c.copies head).toList.map fun p => (head, p)

def removals (c : UnitClosure source) : List Rule :=
  c.grammar.rules.filter fun rule => rule.2.unit?.isSome

theorem mem_additions {c : UnitClosure source} {head : String} {p : Production} :
    (head, p) ∈ c.additions ↔ head ∈ c.grammar.heads ∧
      (∃ target ∈ targets (c.grammar.productions head) (c.done head),
        p ∈ c.grammar.productions target) ∧
        Wanted head (c.grammar.productions head) (c.done head) p := by
  simp only [additions, copies, List.mem_flatMap, List.mem_map, List.mem_filter,
    OrderedSet.mem_toList, OrderedSet.mem_ofList, Prod.mk.injEq, decide_eq_true_eq]
  constructor
  · rintro ⟨_, hh, _, ⟨target, ht, hp, hw⟩, rfl, rfl⟩
    exact ⟨hh, ⟨target, ht, hp⟩, hw⟩
  · rintro ⟨hh, ⟨target, ht, hp⟩, hw⟩
    exact ⟨head, hh, p, ⟨target, ht, hp, hw⟩, rfl, rfl⟩

theorem mem_removals {c : UnitClosure source} {head : String} {p : Production} :
    (head, p) ∈ c.removals ↔
      p ∈ c.grammar.productions head ∧ ∃ target, p = [.nonterminal target] := by
  simp only [removals, List.mem_filter, Grammar.mem_rules_iff, Option.isSome_iff_exists,
    Production.unit?_eq_some_iff]

/-- One pass: all unit rules go, then the copies come. -/
@[inline] def step (c : UnitClosure source) : UnitClosure source where
  grammar := (c.grammar.removeAll c.removals).addAll c.additions
  followed := c.followed ++
    c.removals.filterMap fun rule => rule.2.unit?.map fun target => (rule.1, target)
  passes := c.passes + 1
  removed := c.removed + c.removals.length
  copied := c.copied + c.additions.length
  heads_eq := by
    rw [Grammar.heads_addAll_of_subset, Grammar.heads_removeAll, c.heads_eq]
    rintro ⟨head, p⟩ hr
    rw [Grammar.heads_removeAll]
    exact (mem_additions.mp hr).1
  from_source := fun head p hp => by
    rw [Grammar.mem_productions_addAll, Grammar.mem_productions_removeAll] at hp
    rcases hp with ⟨hp, _⟩ | hp
    · exact c.from_source head p hp
    · obtain ⟨_, ⟨target, _, hp⟩, _⟩ := mem_additions.mp hp
      exact c.from_source target p hp

-- ---------------------------------------------------------------------------
-- Seen rules
-- ---------------------------------------------------------------------------

/-- The rule is in the grammar, or was and has been followed. -/
def Seen (c : UnitClosure source) (rule : Rule) : Prop :=
  rule.2 ∈ c.grammar.productions rule.1 ∨ ∃ target ∈ rule.2.unit?, (rule.1, target) ∈ c.followed

instance (c : UnitClosure source) (rule : Rule) : Decidable (c.Seen rule) := by
  unfold Seen
  infer_instance

theorem mem_done {c : UnitClosure source} {head target : String} :
    target ∈ c.done head ↔ (head, target) ∈ c.followed := by
  simp [done]

theorem mem_followed_step {c : UnitClosure source} {head target : String} :
    (head, target) ∈ c.step.followed ↔ (head, target) ∈ c.followed ∨
      [.nonterminal target] ∈ c.grammar.productions head := by
  simp only [step, List.mem_append, List.mem_filterMap]
  constructor
  · rintro (h | ⟨⟨name, p⟩, hr, hu⟩)
    · exact Or.inl h
    · simp only [Option.map_eq_some_iff, Production.unit?_eq_some_iff, Prod.mk.injEq] at hu
      obtain ⟨_, rfl, rfl, rfl⟩ := hu
      exact Or.inr (mem_removals.mp hr).1
  · rintro (h | h)
    · exact Or.inl h
    · exact Or.inr ⟨(head, [.nonterminal target]), mem_removals.mpr ⟨h, target, rfl⟩, rfl⟩

theorem mem_productions_step {c : UnitClosure source} {head : String} {p : Production} :
    p ∈ c.step.grammar.productions head ↔
      p ∈ c.grammar.productions head ∧ (∀ target, p ≠ [.nonterminal target]) ∨
        (head, p) ∈ c.additions := by
  simp only [step, Grammar.mem_productions_addAll, Grammar.mem_productions_removeAll, mem_removals]
  constructor
  · rintro (⟨h, hn⟩ | h)
    · exact Or.inl ⟨h, fun target ht => hn ⟨h, target, ht⟩⟩
    · exact Or.inr h
  · rintro (⟨h, hn⟩ | h)
    · exact Or.inl ⟨h, fun ⟨_, target, ht⟩ => hn target ht⟩
    · exact Or.inr h

theorem Seen.step {c : UnitClosure source} {rule : Rule} (h : c.Seen rule) :
    c.step.Seen rule := by
  obtain ⟨head, p⟩ := rule
  rcases h with h | ⟨target, ht, h⟩
  · by_cases hu : ∃ target, p = [.nonterminal target]
    · obtain ⟨target, rfl⟩ := hu
      exact Or.inr ⟨target, rfl, mem_followed_step.mpr (Or.inr h)⟩
    · exact Or.inl (mem_productions_step.mpr (Or.inl ⟨h, fun target ht => hu ⟨target, ht⟩⟩))
  · exact Or.inr ⟨target, ht, mem_followed_step.mpr (Or.inl h)⟩

theorem not_seen_of_mem_additions {c : UnitClosure source} {rule : Rule}
    (h : rule ∈ c.additions) : ¬ c.Seen rule := by
  obtain ⟨_, _, hn, hu⟩ := mem_additions.mp h
  rintro (hs | ⟨target, ht, hs⟩)
  · exact hn hs
  · exact (hu target ht).2 (mem_done.mpr hs)

theorem seen_step_of_mem_additions {c : UnitClosure source} {rule : Rule}
    (h : rule ∈ c.additions) : c.step.Seen rule :=
  Or.inl (mem_productions_step.mpr (Or.inr h))

-- ---------------------------------------------------------------------------
-- The measure
-- ---------------------------------------------------------------------------

def space (source : Grammar) : List Rule :=
  source.heads.flatMap fun head =>
    (OrderedSet.ofList (source.rules.map Prod.snd)).toList.map fun p => (head, p)

theorem mem_space {head : String} {p : Production} :
    (head, p) ∈ space source ↔ head ∈ source.heads ∧ ∃ owner, p ∈ source.productions owner := by
  simp only [space, List.mem_flatMap, List.mem_map, Prod.mk.injEq, OrderedSet.mem_toList,
    OrderedSet.mem_ofList]
  constructor
  · rintro ⟨_, hh, _, ⟨⟨owner, q⟩, hq, rfl⟩, rfl, rfl⟩
    exact ⟨hh, owner, Grammar.mem_rules_iff.mp hq⟩
  · rintro ⟨hh, owner, hp⟩
    exact ⟨head, hh, p, ⟨(owner, p), Grammar.mem_rules_iff.mpr hp, rfl⟩, rfl, rfl⟩

def unseen (c : UnitClosure source) : Nat := (space source).countP fun rule => ¬ c.Seen rule

def pending (c : UnitClosure source) : Nat := 2 * c.unseen + if c.removals = [] then 0 else 1

theorem unseen_step_le (c : UnitClosure source) : c.step.unseen ≤ c.unseen := by
  apply List.countP_mono_left
  intro rule _ h
  simp only [decide_eq_true_eq] at h ⊢
  exact fun hs => h hs.step

theorem unseen_step_lt {c : UnitClosure source} (h : c.additions ≠ []) :
    c.step.unseen < c.unseen := by
  obtain ⟨⟨head, p⟩, hr⟩ := List.exists_mem_of_ne_nil _ h
  obtain ⟨hh, ⟨target, _, hp⟩, _⟩ := mem_additions.mp hr
  have hm : (head, p) ∈ space source :=
    mem_space.mpr ⟨c.heads_eq ▸ hh, c.from_source target p hp⟩
  apply countP_lt_countP hm
  · simpa using seen_step_of_mem_additions hr
  · simpa using not_seen_of_mem_additions hr
  · intro rule _ hs
    simp only [decide_eq_true_eq] at hs ⊢
    exact fun h => hs h.step

theorem removals_step_eq_nil {c : UnitClosure source} (h : c.additions = []) :
    c.step.removals = [] := by
  rw [List.eq_nil_iff_forall_not_mem]
  rintro ⟨head, p⟩ hr
  obtain ⟨hp, target, rfl⟩ := mem_removals.mp hr
  rcases mem_productions_step.mp hp with ⟨_, hn⟩ | ha
  · exact hn target rfl
  · rw [h] at ha
    exact List.not_mem_nil ha

theorem pending_step_lt {c : UnitClosure source} (h : ¬ (c.removals = [] ∧ c.additions = [])) :
    c.step.pending < c.pending := by
  unfold pending
  by_cases ha : c.additions = []
  · have hr : c.removals ≠ [] := fun hr => h ⟨hr, ha⟩
    have hle := c.unseen_step_le
    rw [if_pos (removals_step_eq_nil ha), if_neg hr]
    omega
  · have hlt := unseen_step_lt ha
    split <;> split <;> omega

-- ---------------------------------------------------------------------------
-- The passes
-- ---------------------------------------------------------------------------

/-- Repeats passes until one has nothing to do; that one is counted too. -/
def finish (c : UnitClosure source) : UnitClosure source :=
  if c.removals = [] ∧ c.additions = [] then { c with passes := c.passes + 1 }
  else c.step.finish
termination_by c.pending
decreasing_by exact pending_step_lt (by assumption)

end UnitClosure

def Grammar.unitClosure (g : Grammar) : UnitClosure g := (UnitClosure.start g).finish

end ContextFree
