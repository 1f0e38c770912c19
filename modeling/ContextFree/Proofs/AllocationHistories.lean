import ContextFree.Grammar.Edit
import ContextFree.Proofs.NameShortage
import Mathlib.Data.List.ReduceOption

/-!
# Histories of allocations

A history of a workspace is a list of events: the grammar is edited, or a name
is asked for. An answer is the first name from the counter on that the grammar
of that moment does not mention, and there is none just when all of them are
mentioned.

Over a history the numbers of the answers ascend (`exists_numbers`), whatever
happens to the grammar in between, because the counter is behind each of them.
Once there has been no answer the counter stands at the limit, and there is
none for ever, even if names become free again (`answers_of_spent`). The
counters stay in their bounds all the time, also while an allocation passes
over names (`Passing.inBounds`).
-/

namespace ContextFree

namespace FreshNames

variable {g : Grammar} {names now : FreshNames}

-- ---------------------------------------------------------------------------
-- The course of an allocation
-- ---------------------------------------------------------------------------

/-- What becomes of a supply while an allocation passes over names. -/
inductive Passing (g : Grammar) (names : FreshNames) : FreshNames → Prop
  | begin : Passing g names names
  | skip {now : FreshNames} (before : Passing g names now) (lt : now.next < now.limit)
    (taken : g.Mentions now.candidate) : Passing g names now.skip

/-- The counters of a supply are in order: none of the two increments that an allocation makes
overflows, and the rest is no less than nothing. -/
structure InBounds (names : FreshNames) : Prop where
  allocated_le : names.allocated.toNat ≤ names.next.toNat
  next_le : names.next.toNat ≤ names.limit.toNat
  remaining : names.remaining.toNat + names.next.toNat = names.limit.toNat
  next_succ : names.next < names.limit → (names.next + 1).toNat = names.next.toNat + 1
  allocated_succ : names.next < names.limit →
    (names.allocated + 1).toNat = names.allocated.toNat + 1

theorem inBounds_of_le (ha : names.allocated.toNat ≤ names.next.toNat)
    (hn : names.next.toNat ≤ names.limit.toNat) : names.InBounds where
  allocated_le := ha
  next_le := hn
  remaining := by
    have hsub : names.remaining.toNat = names.limit.toNat - names.next.toNat :=
      UInt32.toNat_sub_of_le _ _ (UInt32.le_iff_toNat_le.mpr hn)
    omega
  next_succ := toNat_next_skip
  allocated_succ := fun hlt => by
    have hnext := UInt32.lt_iff_toNat_lt.mp hlt
    have hmax := names.limit.toNat_lt
    rw [UInt32.toNat_add, UInt32.toNat_one]
    omega

theorem Reachable.inBounds (hr : names.Reachable) : names.InBounds :=
  inBounds_of_le (hr.tallied.allocated ▸ hr.tallied.next) hr.next_le

theorem Passing.inBounds (hp : Passing g names now) (hb : names.InBounds) : now.InBounds := by
  induction hp with
  | begin => exact hb
  | @skip now _ lt _ ih =>
    have hnext := ih.next_succ lt
    refine inBounds_of_le ?_ ?_
    · show now.allocated.toNat ≤ (now.next + 1).toNat
      rw [hnext]
      exact Nat.le_succ_of_le ih.allocated_le
    · show (now.next + 1).toNat ≤ now.limit.toNat
      rw [hnext]
      exact UInt32.lt_iff_toNat_lt.mp lt

theorem Passing.allocate_eq (hp : Passing g names now) : allocate g now = allocate g names := by
  induction hp with
  | begin => rfl
  | @skip now _ lt taken ih =>
    have hnow : allocate g now = allocate g now.skip := by
      rw [allocate, if_pos lt, if_pos taken]
    exact hnow.symm.trans ih

theorem allocate_of_not_lt (h : ¬ names.next < names.limit) : allocate g names = (none, names) := by
  rw [allocate, if_neg h]

theorem not_next_lt_spent (names : FreshNames) : ¬ names.spent.next < names.spent.limit := by
  show ¬ (if names.next < names.limit then names.limit else names.next) < names.limit
  split
  · exact UInt32.lt_irrefl _
  · assumption

theorem next_le_spent (names : FreshNames) : names.next.toNat ≤ names.spent.next.toNat := by
  show names.next.toNat ≤ (if names.next < names.limit then names.limit else names.next).toNat
  split
  · exact Nat.le_of_lt (UInt32.lt_iff_toNat_lt.mp ‹_›)
  · exact Nat.le_refl _

end FreshNames

-- ---------------------------------------------------------------------------
-- Histories
-- ---------------------------------------------------------------------------

namespace Workspace

open FreshNames (Passing Reachable numbered)

inductive Event
  | edit (edit : Edit)
  | allocate
  deriving DecidableEq, Repr

def after (w : Workspace) : Event → Workspace
  | .edit edit => { w with grammar := edit.apply w.grammar }
  | .allocate => { w with names := (w.names.allocate w.grammar).2 }

def afterAll (w : Workspace) (events : List Event) : Workspace := events.foldl after w

def answer (w : Workspace) : Option String := (w.names.allocate w.grammar).1

def answers (w : Workspace) : List Event → List (Option String)
  | [] => []
  | .edit edit :: events => (w.after (.edit edit)).answers events
  | .allocate :: events => w.answer :: (w.after .allocate).answers events

variable {w : Workspace} {events : List Event} {n : Nat}

/-- The one thing or the other: the first free name is handed out, or there is none and the
counter goes to the limit. -/
theorem answer_cases (w : Workspace) :
    (∃ n, w.names.FirstFree w.grammar n ∧ w.answer = some (numbered w.names.stem n) ∧
      w.after .allocate = { w with names := w.names.past n }) ∨
    w.names.Dry w.grammar ∧ w.answer = none ∧
      w.after .allocate = { w with names := w.names.spent } := by
  unfold answer after
  obtain ⟨n, hf, he⟩ | ⟨hd, he⟩ := FreshNames.allocate_cases w.grammar w.names
  · exact Or.inl ⟨n, hf, by rw [he], by rw [he]⟩
  · exact Or.inr ⟨hd, by rw [he], by rw [he]⟩

theorem answer_eq_none_iff : w.answer = none ↔ w.names.Dry w.grammar := by
  obtain ⟨n, hf, ha, -⟩ | ⟨hd, ha, -⟩ := w.answer_cases
  · simp [ha, hf.not_dry]
  · simp [ha, hd]

theorem answer_eq_some_iff {name : String} : w.answer = some name ↔
    ∃ n, w.names.FirstFree w.grammar n ∧ name = numbered w.names.stem n := by
  obtain ⟨n, hf, ha, -⟩ | ⟨hd, ha, -⟩ := w.answer_cases
  · rw [ha, Option.some.injEq, eq_comm]
    refine ⟨fun he => ⟨n, hf, he⟩, ?_⟩
    rintro ⟨m, hm, rfl⟩
    rw [hm.unique hf]
  · rw [ha]
    refine ⟨fun he => (nomatch he), ?_⟩
    rintro ⟨m, hm, -⟩
    exact absurd hd hm.not_dry

-- ---------------------------------------------------------------------------
-- What a history keeps
-- ---------------------------------------------------------------------------

theorem reachable_after (hr : w.names.Reachable) (event : Event) :
    (w.after event).names.Reachable := by
  cases event with
  | edit edit => exact hr
  | allocate => exact hr.allocate w.grammar

theorem stem_limit_after (w : Workspace) (event : Event) :
    (w.after event).names.stem = w.names.stem ∧ (w.after event).names.limit = w.names.limit := by
  cases event with
  | edit edit => exact ⟨rfl, rfl⟩
  | allocate =>
    obtain ⟨n, -, -, he⟩ | ⟨-, -, he⟩ := w.answer_cases
    · rw [he]
      exact ⟨rfl, rfl⟩
    · rw [he]
      exact ⟨rfl, rfl⟩

theorem afterAll_kept (w : Workspace) (hr : w.names.Reachable) (events : List Event) :
    (w.afterAll events).names.Reachable ∧ (w.afterAll events).names.stem = w.names.stem ∧
      (w.afterAll events).names.limit = w.names.limit := by
  induction events generalizing w with
  | nil => exact ⟨hr, rfl, rfl⟩
  | cons event events ih =>
    obtain ⟨hreach, hstem, hlimit⟩ := ih (w.after event) (reachable_after hr event)
    obtain ⟨hs, hl⟩ := w.stem_limit_after event
    exact ⟨hreach, hstem.trans hs, hlimit.trans hl⟩

theorem exists_numbers (w : Workspace) (events : List Event) :
    ∃ numbers : List Nat, (w.answers events).reduceOption = numbers.map (numbered w.names.stem) ∧
      numbers.Pairwise (· < ·) ∧
      ∀ n ∈ numbers, w.names.next.toNat ≤ n ∧ n < w.names.limit.toNat := by
  induction events generalizing w with
  | nil => exact ⟨[], rfl, .nil, by simp⟩
  | cons event events ih =>
    cases event with
    | edit edit => exact ih (w.after (.edit edit))
    | allocate =>
      obtain ⟨numbers, hnames, hsorted, hbounds⟩ := ih (w.after .allocate)
      obtain ⟨n, hf, ha, he⟩ | ⟨-, ha, he⟩ := w.answer_cases
      · rw [he] at hnames hbounds
        have hnext : (w.names.past n).next.toNat = n + 1 := FreshNames.toNat_next_past hf.lt
        have hlater : ∀ m ∈ numbers, n < m ∧ m < w.names.limit.toNat := fun m hm => by
          obtain ⟨hle, hlt⟩ := hbounds m hm
          rw [hnext] at hle
          exact ⟨hle, hlt⟩
        refine ⟨n :: numbers, ?_, List.pairwise_cons.mpr ⟨fun m hm => (hlater m hm).1, hsorted⟩, ?_⟩
        · rw [answers, ha, List.reduceOption_cons_of_some, he, hnames]
          rfl
        · refine List.forall_mem_cons.mpr ⟨⟨hf.ge, hf.lt⟩, fun m hm => ?_⟩
          exact ⟨Nat.le_trans hf.ge (Nat.le_of_lt (hlater m hm).1), (hlater m hm).2⟩
      · rw [he] at hnames hbounds
        refine ⟨numbers, ?_, hsorted, fun m hm => ?_⟩
        · rw [answers, ha, List.reduceOption_cons_of_none, he, hnames]
          rfl
        · obtain ⟨hle, hlt⟩ := hbounds m hm
          exact ⟨Nat.le_trans w.names.next_le_spent hle, hlt⟩

theorem answers_of_spent (w : Workspace) (h : ¬ w.names.next < w.names.limit)
    (events : List Event) :
    (∀ answer ∈ w.answers events, answer = none) ∧ (w.afterAll events).names = w.names := by
  induction events generalizing w with
  | nil => exact ⟨by simp [answers], rfl⟩
  | cons event events ih =>
    cases event with
    | edit edit => exact ih (w.after (.edit edit)) h
    | allocate =>
      have hsame : w.after .allocate = w := by
        rw [after, FreshNames.allocate_of_not_lt h]
      obtain ⟨hnone, hnames⟩ := ih w h
      refine ⟨?_, ?_⟩
      · rw [answers, hsame]
        refine List.forall_mem_cons.mpr ⟨?_, hnone⟩
        rw [answer, FreshNames.allocate_of_not_lt h]
      · rw [afterAll, List.foldl_cons, hsame]
        exact hnames

/-- What a supply does over a history of allocations and edits of the grammar. -/
theorem allocations_exact (g : Grammar) (stem : String) (limit : UInt32)
    (events later : List Event) :
    let first : Workspace := ⟨g, .start stem limit⟩
    let w := first.afterAll events
    (w.names.stem = stem ∧ w.names.limit = limit ∧
      ∀ now, Passing w.grammar w.names now → now.InBounds ∧
        now.allocate w.grammar = w.names.allocate w.grammar) ∧
    (∀ name, w.answer = some name ↔
      ∃ n, w.names.FirstFree w.grammar n ∧ name = numbered stem n) ∧
    (w.answer = none ↔ w.names.Dry w.grammar) ∧
    (∃ numbers : List Nat, (first.answers events).reduceOption = numbers.map (numbered stem) ∧
      numbers.Pairwise (· < ·) ∧ ∀ n ∈ numbers, n < limit.toNat) ∧
    (first.answers events).reduceOption.Nodup ∧
    (w.answer = none → (∀ answer ∈ (w.after .allocate).answers later, answer = none) ∧
      ((w.after .allocate).afterAll later).names.allocated = w.names.allocated) := by
  intro first w
  obtain ⟨hreach, hstem, hlimit⟩ := first.afterAll_kept (.start stem limit) events
  obtain ⟨numbers, hnames, hsorted, hbounds⟩ := first.exists_numbers events
  refine ⟨⟨hstem, hlimit, fun now hp => ⟨hp.inBounds hreach.inBounds, hp.allocate_eq⟩⟩,
    fun name => ?_, answer_eq_none_iff, ⟨numbers, hnames, hsorted, fun n hn => (hbounds n hn).2⟩,
    ?_, fun hnone => ?_⟩
  · rw [answer_eq_some_iff, hstem]
    rfl
  · rw [hnames]
    refine (hsorted.imp Nat.ne_of_lt).map _ fun m n hne he => hne ?_
    exact FreshNames.numbered_inj.mp he
  · obtain ⟨n, -, hsome, -⟩ | ⟨-, -, he⟩ := w.answer_cases
    · rw [hsome] at hnone
      exact nomatch hnone
    · rw [he]
      obtain ⟨hall, hsame⟩ := answers_of_spent { w with names := w.names.spent }
        w.names.not_next_lt_spent later
      refine ⟨hall, ?_⟩
      rw [hsame]
      rfl

/-- `X0` is mentioned and passed over, `X1` is handed out, and when `X2` is wanted it has become a
head. That `X0` is free in the end is of no use. -/
theorem allocations_exact_spent :
    let first : Workspace := ⟨.ofRules [("S", [.nonterminal "X0"])], .start "X" 3⟩
    let w := first.afterAll [.allocate, .edit (.add "X2" [.terminal "a"])]
    let freed : Edit := .remove "S" [.nonterminal "X0"]
    first.answers [.allocate, .edit (.add "X2" [.terminal "a"])] = [some "X1"] ∧
    w.answer = none ∧ ¬ (freed.apply w.grammar).Mentions "X0" ∧
    ∀ answer ∈ (w.after .allocate).answers [.edit freed, .allocate], answer = none := by
  intro first w freed
  have hnone : w.answer = none := by decide +kernel
  obtain ⟨-, -, -, -, -, hfailed⟩ := allocations_exact first.grammar "X" 3
    [.allocate, .edit (.add "X2" [.terminal "a"])] [.edit freed, .allocate]
  exact ⟨by decide +kernel, hnone, by decide +kernel, (hfailed hnone).1⟩

end Workspace

end ContextFree
