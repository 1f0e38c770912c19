import ContextFree.Proofs.ConvertedLayout
import ContextFree.Proofs.Unwrapping
import Mathlib.Order.Interval.Finset.Nat

/-!
# How far the names suffice

The stock of a supply counts the names that it can still hand out. A draw takes
one from it (`FirstFree.stock_eq`), so a run of draws that ends dry has drawn
exactly the stock (`Short.length_eq`), and a step that needs a fixed number of
names finishes just when the stock has as many (`NeedsNames`).

Wrapping and chaining are such steps. `outcome_by_stock` says for both what the
grammar looks like in either case. When the names run out, the rules before the
one that asked for too much are rewritten, that one and those behind it are as
they were, and every new name that is mentioned has its rule.
-/

namespace ContextFree

open FreshNames (Drawn Short)

variable {g h : Grammar} {first names last : FreshNames} {drawn : List String} {m n : Nat}

-- ---------------------------------------------------------------------------
-- The stock
-- ---------------------------------------------------------------------------

namespace FreshNames

/-- How many names from the counter on the grammar does not mention. -/
def stock (names : FreshNames) (g : Grammar) : Nat :=
  ((Finset.Ico names.next.toNat names.limit.toNat).filter fun n =>
    ¬ g.Mentions (numbered names.stem n)).card

theorem Dry.stock_eq (hd : names.Dry g) : names.stock g = 0 := by
  rw [stock, Finset.card_eq_zero, Finset.filter_eq_empty_iff]
  intro m hm
  obtain ⟨hle, hlt⟩ := Finset.mem_Ico.mp hm
  exact not_not_intro (hd m hle hlt)

theorem FirstFree.stock_eq (hf : names.FirstFree g n) :
    names.stock g = (names.past n).stock g + 1 := by
  have hinsert : ((Finset.Ico names.next.toNat names.limit.toNat).filter fun m =>
        ¬ g.Mentions (numbered names.stem m)) =
      insert n ((Finset.Ico (n + 1) names.limit.toNat).filter fun m =>
        ¬ g.Mentions (numbered names.stem m)) := by
    ext m
    rw [Finset.mem_insert, Finset.mem_filter, Finset.mem_filter, Finset.mem_Ico, Finset.mem_Ico]
    constructor
    · rintro ⟨⟨hle, hlt⟩, hm⟩
      have hge : n ≤ m := Nat.not_lt.mp fun hmn => hm (hf.taken m hle hmn)
      exact (Nat.eq_or_lt_of_le hge).imp Eq.symm fun hnm => ⟨⟨hnm, hlt⟩, hm⟩
    · rintro (rfl | ⟨⟨hle, hlt⟩, hm⟩)
      · exact ⟨⟨hf.ge, hf.lt⟩, hf.free⟩
      · exact ⟨⟨Nat.le_trans hf.ge (Nat.le_of_succ_le hle), hlt⟩, hm⟩
  rw [stock, hinsert, Finset.card_insert_of_notMem (by simp), stock, toNat_next_past hf.lt]
  rfl

theorem Drawn.stock_eq (hd : Drawn g first drawn last) :
    first.stock g = drawn.length + last.stock g := by
  induction hd with
  | nothing => simp
  | next _ free ih =>
    rw [ih, free.stock_eq, List.length_append, List.length_singleton]
    omega

theorem Drawn.length_le (hd : Drawn g first drawn last) : drawn.length ≤ first.stock g := by
  rw [hd.stock_eq]
  exact Nat.le_add_right ..

theorem Short.length_eq {needed : Nat} (hs : Short g first needed drawn last) :
    drawn.length = first.stock g := by
  rw [hs.draws.stock_eq, hs.dry.stock_eq, Nat.add_zero]

-- ---------------------------------------------------------------------------
-- The states of a supply
-- ---------------------------------------------------------------------------

/-- The supplies that there are: new ones, and what allocations leave of them. -/
inductive Reachable : FreshNames → Prop
  | start (stem : String) (limit : UInt32) : Reachable (.start stem limit)
  | allocate {names : FreshNames} (g : Grammar) (before : Reachable names) :
    Reachable (allocate g names).2

theorem spent_next (hle : names.next.toNat ≤ names.limit.toNat) :
    names.spent.next = names.limit := by
  show (if names.next < names.limit then names.limit else names.next) = names.limit
  split
  · rfl
  · rename_i hlt
    rw [UInt32.lt_iff_toNat_lt] at hlt
    exact UInt32.toNat_inj.mp (by omega)

theorem Reachable.next_le (hr : names.Reachable) : names.next.toNat ≤ names.limit.toNat := by
  induction hr with
  | start stem limit => exact Nat.zero_le _
  | @allocate names g _ ih =>
    obtain ⟨n, hf, he⟩ | ⟨-, he⟩ := allocate_cases g names
    · rw [he, toNat_next_past hf.lt]
      exact hf.lt
    · rw [he, spent_next ih]
      exact Nat.le_refl _

theorem Reachable.tallied (hr : names.Reachable) : names.Tallied := by
  induction hr with
  | start stem limit => exact tallied_start stem limit
  | @allocate names g before ih =>
    obtain ⟨n, hf, he⟩ | ⟨-, he⟩ := allocate_cases g names
    · rw [he]
      exact ih.past hf
    · rw [he]
      refine ⟨ih.allocated, ?_⟩
      rw [spent_next before.next_le]
      exact Nat.le_trans ih.next before.next_le

theorem Drawn.next_le_limit (hd : Drawn g first drawn names)
    (hle : first.next.toNat ≤ first.limit.toNat) : names.next.toNat ≤ names.limit.toNat := by
  induction hd with
  | nothing => exact hle
  | next _ free _ =>
    rw [toNat_next_past free.lt]
    exact free.lt

theorem Drawn.allocated_eq (hd : Drawn g first drawn names) (ht : first.Tallied) :
    names.allocated.toNat = first.allocated.toNat + drawn.length := by
  rw [(hd.tallied ht).allocated, ht.allocated, hd.issued_eq, List.length_append]

theorem remaining_spent (hle : names.next.toNat ≤ names.limit.toNat) :
    names.spent.remaining = 0 := by
  show names.limit - names.spent.next = 0
  rw [spent_next hle, UInt32.sub_self]

end FreshNames

-- ---------------------------------------------------------------------------
-- Steps that need a number of names
-- ---------------------------------------------------------------------------

namespace Rewriting

variable {α : Type} {step : Rewriting α} {w : Workspace} {needed : Nat}

/-- The step draws a number of names and finishes if there are as many; if there are fewer, it
draws them all. -/
structure NeedsNames (step : Rewriting α) (w : Workspace) (needed : Nat) : Prop where
  finishes_iff : (∃ a w', step w = .ok a w') ↔ needed ≤ w.names.stock w.grammar
  finished : ∀ a w', step w = .ok a w' →
    w'.names.allocated.toNat = w.names.allocated.toNat + needed
  stopped : ∀ e w', step w = .error e w' → e = ⟨w.names.stem, w.names.limit⟩ ∧
    w'.names.allocated.toNat = w.names.allocated.toNat + w.names.stock w.grammar ∧
    w'.names.remaining = 0

theorem needsNames_of_triple (hr : w.names.Reachable)
    (ht : Triple step w
      (fun _ w' => ∃ drawn, drawn.length = needed ∧ Drawn w.grammar w.names drawn w'.names)
      (fun e w' => e = ⟨w.names.stem, w.names.limit⟩ ∧ ∃ drawn last,
        Short w.grammar w.names needed drawn last ∧ w'.names = last.spent)) :
    NeedsNames step w needed := by
  constructor
  · constructor
    · rintro ⟨a, w', hstep⟩
      obtain ⟨drawn, rfl, hd⟩ := ht.of_ok hstep
      exact hd.length_le
    · intro hle
      cases hstep : step w with
      | ok a w' => exact ⟨a, w', rfl⟩
      | error e w' =>
        obtain ⟨-, drawn, last, hs, -⟩ := ht.of_error hstep
        have hfew := hs.few
        rw [hs.length_eq] at hfew
        exact absurd hle (Nat.not_le_of_lt hfew)
  · intro a w' hstep
    obtain ⟨drawn, rfl, hd⟩ := ht.of_ok hstep
    exact hd.allocated_eq hr.tallied
  · intro e w' hstep
    obtain ⟨he, drawn, last, hs, hnames⟩ := ht.of_error hstep
    refine ⟨he, ?_, ?_⟩
    · rw [hnames, ← hs.length_eq]
      exact hs.draws.allocated_eq hr.tallied
    · rw [hnames]
      exact FreshNames.remaining_spent (hs.draws.next_le_limit hr.next_le)

theorem wrapTerminals_needsNames (hr : w.names.Reachable) :
    NeedsNames wrapTerminals w w.grammar.innerTerminals.length := by
  have hneeded : w.grammar.wrappersNeeded = w.grammar.innerTerminals.length :=
    congrArg List.length w.grammar.toList_mixedTerminals
  refine needsNames_of_triple hr ((wrapTerminals_triple w).mono ?_ ?_)
  · intro ws w' hw
    exact ⟨ws.map Prod.snd, hw.length_names.trans hneeded, hw.drawn⟩
  · intro e w' hs
    have hshort := hneeded ▸ hs.short
    obtain ⟨-, -, -, -, -, -, reason⟩ := hs
    exact ⟨reason, hshort⟩

theorem chainLong_needsNames (hr : w.names.Reachable) :
    NeedsNames chainLong w w.grammar.linksNeeded := by
  refine needsNames_of_triple hr ((chainLong_triple w).mono ?_ ?_)
  · rintro _ w' ⟨-, links, hl⟩
    exact ⟨w.grammar.longRules.flatMap links, hl.length_links, hl.drawn⟩
  · intro e w' hs
    have hshort := hs.short
    obtain ⟨-, -, -, -, reason⟩ := hs
    exact ⟨reason, hshort⟩

end Rewriting

-- ---------------------------------------------------------------------------
-- Grammars in which some rules are rewritten
-- ---------------------------------------------------------------------------

namespace Grammar

variable {done : List Rule} {ws : Wrappers} {links : Rule → List String}

/-- The rules in `done` are dressed, all others are as they were, and behind them come the rules
of the wrappers. -/
structure DressedTo (g : Grammar) (done : List Rule) (ws : Wrappers) (h : Grammar) : Prop where
  heads : h.heads = g.heads ++ ws.map Prod.snd
  rules : h.rules = g.rules.map (fun r => if r ∈ done then r.dressed ws.nameOf else r) ++
    ws.map Wrappers.ruleOf
  fresh : (ws.map Prod.snd).Nodup ∧ ∀ name ∈ ws.map Prod.snd, ¬ g.Mentions name
  covered : ∀ r ∈ done, ∀ t ∈ r.2.terminals, t ∈ ws.map Prod.fst
  defined : ∀ name, .nonterminal name ∈ h.symbols →
    .nonterminal name ∈ g.symbols ∨ h.productions name ≠ []

/-- The rules in `done` give way to the openings of their chains, all others are as they were,
and behind them come the continuations. -/
structure ChainedTo (g : Grammar) (done : List Rule) (links : Rule → List String) (h : Grammar) :
    Prop where
  heads : h.heads = g.heads ++ done.flatMap links
  rules : h.rules = g.rules.map (fun r => if r ∈ done then r.opening (links r) else r) ++
    done.flatMap fun r => r.continuation (links r)
  fresh : (done.flatMap links).Nodup ∧ ∀ name ∈ done.flatMap links, ¬ g.Mentions name
  covered : ∀ r ∈ done, r.2.length = (links r).length + 2
  defined : ∀ name, .nonterminal name ∈ h.symbols →
    .nonterminal name ∈ g.symbols ∨ h.productions name ≠ []

end Grammar

namespace Wrapped

variable {w u : Workspace} {done : List Rule} {part : List String} {ws : Wrappers}

theorem dressedTo (hw : Wrapped w done part ws u) : w.grammar.DressedTo done ws u.grammar where
  heads := hw.heads
  rules := hw.rules
  fresh := ⟨hw.drawn.nodup, hw.drawn.not_mentions⟩
  covered := fun _ hr _ ht => hw.covers hr ht
  defined := fun name hs => by
    refine (hw.nonterminal_mem_symbols hs).imp_right fun hm => ?_
    obtain ⟨pair, hp, rfl⟩ := List.mem_map.mp hm
    rw [hw.productions_wrapper hp]
    exact List.cons_ne_nil _ _

end Wrapped

namespace Linked

variable {w u : Workspace} {done : List Rule} {links : Rule → List String}

theorem chainedTo (hl : Linked w done links u) : w.grammar.ChainedTo done links u.grammar where
  heads := hl.heads
  rules := by
    rw [hl.rules]
    congr 1
    refine List.map_congr_left fun r _ => ?_
    split
    · rfl
    · rename_i hr
      rw [hl.others r hr, Rule.opening_nil]
  fresh := ⟨hl.drawn.nodup, hl.drawn.not_mentions⟩
  covered := hl.length
  defined := fun name hs => by
    rw [hl.symbols.mem_iff, List.mem_append] at hs
    refine hs.imp_right fun hm => ?_
    obtain ⟨link, hlink, he⟩ := List.mem_map.mp hm
    obtain rfl := Symbol.nonterminal.inj he
    obtain ⟨p, -, hp⟩ := hl.exists_production hlink
    rw [hp]
    exact List.cons_ne_nil _ _

end Linked

-- ---------------------------------------------------------------------------
-- Where a run stops
-- ---------------------------------------------------------------------------

namespace WrappingStopped

variable {w u : Workspace} {e : Exhausted}

theorem exists_terminal (hs : WrappingStopped w e u) :
    ∃ ws t rest, w.grammar.innerTerminals = ws.map Prod.fst ++ t :: rest ∧
      ws.length = w.names.stock w.grammar ∧
      w.grammar.DressedTo (w.grammar.mixedRules.takeWhile fun r => t ∉ r.2.terminals) ws
        u.grammar := by
  obtain @⟨done, rule, part, t, ws, before, ⟨others, hothers⟩, ⟨later, hlater⟩, new, wrapped, dry,
    -, -⟩ := hs
  have hdone : w.grammar.mixedRules.takeWhile (fun r => t ∉ r.2.terminals) = done := by
    have hpass : ∀ r ∈ done, decide (t ∉ r.2.terminals) = true := fun r hr =>
      decide_eq_true fun ht => new (wrapped.covers hr ht)
    have hstop : t ∈ rule.2.terminals := hlater ▸ by simp
    rw [← hothers, List.append_assoc, List.takeWhile_append_of_pos hpass, List.singleton_append,
      List.takeWhile_cons_of_neg (by simpa using hstop), List.append_nil]
  have hmet : w.grammar.mixedTerminals = (done.flatMap (·.2.terminals) ++ part) ++
      (t :: (later ++ others.flatMap (·.2.terminals))) := by
    rw [Grammar.mixedTerminals, ← hothers, List.flatMap_append, List.flatMap_append,
      List.flatMap_singleton, ← hlater]
    simp
  have hfound : ws.map Prod.fst = (done.flatMap (·.2.terminals) ++ part).eraseDups := by
    rw [wrapped.terminals, OrderedSet.toList_ofList]
  have hnew : t ∉ done.flatMap (·.2.terminals) ++ part := by
    rw [hfound, List.mem_eraseDups] at new
    exact new
  have hinner : ∃ rest, w.grammar.innerTerminals = ws.map Prod.fst ++ t :: rest := by
    rw [← w.grammar.toList_mixedTerminals, OrderedSet.toList_ofList, hmet, List.eraseDups_append,
      hfound, List.removeAll, List.filter_cons_of_pos (by simpa using hnew), List.eraseDups_cons]
    exact ⟨_, rfl⟩
  have hstock : ws.length = w.names.stock w.grammar := by
    have hdry : before.Dry w.grammar :=
      wrapped.drawn.dry_of_dry wrapped.mentions_iff .nothing dry
    rw [wrapped.drawn.stock_eq, hdry.stock_eq, List.length_map, Nat.add_zero]
  obtain ⟨rest, hrest⟩ := hinner
  exact ⟨ws, t, rest, hrest, hstock, hdone ▸ wrapped.dressedTo⟩

end WrappingStopped

def linksFor (rules : List Rule) : Nat := (rules.map fun r => r.2.length - 2).sum

theorem linksFor_mono {part more : List Rule} (h : part <+: more) :
    linksFor part ≤ linksFor more := by
  obtain ⟨rest, rfl⟩ := h
  rw [linksFor, linksFor, List.map_append, List.sum_append]
  exact Nat.le_add_right ..

namespace ChainsStopped

variable {w u : Workspace} {e : Exhausted}

theorem exists_longest (hs : ChainsStopped w e u) :
    ∃ done links, done <+: w.grammar.longRules ∧
      (∀ part, part <+: w.grammar.longRules →
        (linksFor part ≤ w.names.stock w.grammar ↔ part <+: done)) ∧
      w.grammar.ChainedTo done links u.grammar := by
  obtain @⟨done, rule, links, before, last, drawn, split, linked, short, -, -⟩ := hs
  have hstock : linksFor done + drawn.length = w.names.stock w.grammar := by
    rw [← (linked.drawn.short linked.mentions_iff short).length_eq, List.length_append,
      linked.length_links]
    rfl
  have hmore : w.names.stock w.grammar < linksFor (done ++ [rule]) := by
    have hfew := short.few
    rw [← hstock, linksFor, linksFor, List.map_append, List.sum_append, List.map_singleton,
      List.sum_singleton]
    omega
  refine ⟨done, links, (List.prefix_append ..).trans split, fun part hpart => ⟨fun hle => ?_,
    fun hdone => ?_⟩, linked.chainedTo⟩
  · -- A prefix that is not one of `done` has the rule behind it.
    rcases List.prefix_or_prefix_of_prefix hpart split with hp | hp
    · rcases List.prefix_concat_iff.mp hp with rfl | hp
      · exact absurd hle (Nat.not_le_of_lt hmore)
      · exact hp
    · exact absurd hle (Nat.not_le_of_lt (Nat.lt_of_lt_of_le hmore (linksFor_mono hp)))
  · exact Nat.le_trans (linksFor_mono hdone) (hstock ▸ Nat.le_add_right ..)

end ChainsStopped

-- ---------------------------------------------------------------------------
-- The outcome
-- ---------------------------------------------------------------------------

namespace Rewriting

/-- Whether the names suffice is decided by the stock, and so is what has become of the grammar
if they do not. -/
theorem outcome_by_stock {w : Workspace} (hr : w.names.Reachable) :
    NeedsNames wrapTerminals w w.grammar.innerTerminals.length ∧
    NeedsNames chainLong w (linksFor w.grammar.longRules) ∧
    (∀ ws w', wrapTerminals w = .ok ws w' →
      ws.map Prod.fst = w.grammar.innerTerminals ∧
      w.grammar.DressedTo w.grammar.mixedRules ws w'.grammar) ∧
    (∀ e w', wrapTerminals w = .error e w' → ∃ ws t,
      w.grammar.innerTerminals[w.names.stock w.grammar]? = some t ∧
      ws.map Prod.fst = w.grammar.innerTerminals.take (w.names.stock w.grammar) ∧
      w.grammar.DressedTo (w.grammar.mixedRules.takeWhile fun r => t ∉ r.2.terminals) ws
        w'.grammar) ∧
    (∀ n w', chainLong w = .ok n w' →
      ∃ links, w.grammar.ChainedTo w.grammar.longRules links w'.grammar) ∧
    ∀ e w', chainLong w = .error e w' → ∃ done links, done <+: w.grammar.longRules ∧
      (∀ part, part <+: w.grammar.longRules →
        (linksFor part ≤ w.names.stock w.grammar ↔ part <+: done)) ∧
      w.grammar.ChainedTo done links w'.grammar := by
  refine ⟨wrapTerminals_needsNames hr, chainLong_needsNames hr, fun ws w' h => ?_,
    fun e w' h => ?_, fun n w' h => ?_, fun e w' h => ?_⟩
  · have hw := (wrapTerminals_triple w).of_ok h
    refine ⟨?_, hw.dressedTo⟩
    rw [hw.terminals, List.append_nil]
    exact w.grammar.toList_mixedTerminals
  · obtain ⟨ws, t, rest, hinner, hstock, hdressed⟩ :=
      ((wrapTerminals_triple w).of_error h).exists_terminal
    refine ⟨ws, t, ?_, ?_, hdressed⟩
    · rw [hinner, ← hstock]
      simp
    · rw [hinner, ← hstock]
      simp
  · obtain ⟨-, links, hl⟩ := (chainLong_triple w).of_ok h
    exact ⟨links, hl.chainedTo⟩
  · exact ((chainLong_triple w).of_error h).exists_longest

/-- Four terminals to be wrapped and two links to be made, and one name for them. -/
def scarce : Workspace where
  grammar := .ofRules [("S", .compact "aB"), ("S", .compact "aSc"), ("T", .compact "dTe"),
    ("X0", .compact "b")]
  names := .start "X" 2

def scarceWrapped : Workspace where
  grammar := .ofRules [("S", [.nonterminal "X1", .nonterminal "B"]), ("S", .compact "aSc"),
    ("T", .compact "dTe"), ("X0", .compact "b"), ("X1", .compact "a")]
  names := ⟨"X", 2, 2, 1, ["X1"]⟩

def scarceChained : Workspace where
  grammar := .ofRules [("S", .compact "aB"), ("S", [.terminal "a", .nonterminal "X1"]),
    ("T", .compact "dTe"), ("X0", .compact "b"), ("X1", .compact "Sc")]
  names := ⟨"X", 2, 2, 1, ["X1"]⟩

/-- Wrapping gets as far as `S → aB`, chaining as far as `S → aSc`. -/
theorem outcome_by_stock_scarce :
    scarce.names.Reachable ∧ scarce.names.stock scarce.grammar = 1 ∧
    wrapTerminals scarce = .error ⟨"X", 2⟩ scarceWrapped ∧
    chainLong scarce = .error ⟨"X", 2⟩ scarceChained ∧
    (∃ ws t, scarce.grammar.innerTerminals[1]? = some t ∧
      ws.map Prod.fst = scarce.grammar.innerTerminals.take 1 ∧
      scarce.grammar.DressedTo (scarce.grammar.mixedRules.takeWhile fun r => t ∉ r.2.terminals) ws
        scarceWrapped.grammar) ∧
    ∃ done links, done <+: scarce.grammar.longRules ∧
      (∀ part, part <+: scarce.grammar.longRules → (linksFor part ≤ 1 ↔ part <+: done)) ∧
      scarce.grammar.ChainedTo done links scarceChained.grammar := by
  have hr : scarce.names.Reachable := .start "X" 2
  have hstock : scarce.names.stock scarce.grammar = 1 := by decide +kernel
  have hwrap : wrapTerminals scarce = .error ⟨"X", 2⟩ scarceWrapped := by decide +kernel
  have hchain : chainLong scarce = .error ⟨"X", 2⟩ scarceChained := by decide +kernel
  obtain ⟨-, -, -, hwrapped, -, hchained⟩ := outcome_by_stock hr
  rw [hstock] at hwrapped hchained
  exact ⟨hr, hstock, hwrap, hchain, hwrapped _ _ hwrap, hchained _ _ hchain⟩

end Rewriting

end ContextFree
