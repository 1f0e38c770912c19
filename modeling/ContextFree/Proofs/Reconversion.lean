import ContextFree.Proofs.FinishedConversions

/-!
# Converting a grammar in normal form

A grammar in normal form gives the stages nothing to do. Without a new start
symbol a conversion leaves everything as it is, after one pass over the units.
With one, the unit rule that leads from the new start symbol to the old one is
the only rule to work on: a pass puts the productions of the old start symbol,
in their order, in its place, and a second pass finds nothing more
(`unitClosure_add_unit`). That holds also of a start symbol without an entry
and of one that is put over itself, which have nothing to hand on.

So a second conversion never changes what the first one made of the rules
(`convert_inNormalForm`).
-/

namespace ContextFree

variable {g source : Grammar} {head name other : String}

-- ---------------------------------------------------------------------------
-- Passes over the units
-- ---------------------------------------------------------------------------

namespace UnitClosure

variable {c : UnitClosure source}

theorem idle_of_settled (hu : c.grammar.All (¬ ·.IsUnit))
    (hf : ∀ head target, (head, target) ∈ c.followed →
      c.grammar.productions target ⊆ c.grammar.productions head) :
    c.removals = [] ∧ c.additions = [] := by
  constructor <;> refine List.eq_nil_iff_forall_not_mem.mpr ?_
  · rintro ⟨head, p⟩ hr
    obtain ⟨hp, hunit⟩ := mem_removals.mp hr
    exact hu head p hp hunit
  · rintro ⟨head, p⟩ ha
    obtain ⟨_, ⟨target, ht, hp⟩, hwanted, _⟩ := mem_additions.mp ha
    rcases mem_targets.mp ht with hd | hunit
    · exact hwanted (hf head target (mem_done.mp hd) hp)
    · exact hu head _ hunit ⟨target, rfl⟩

theorem copies_eq_empty (h : ∀ target ∈ targets (c.grammar.productions head) (c.done head),
    ∀ p ∈ c.grammar.productions target,
      ¬ Wanted head (c.grammar.productions head) (c.done head) p) : c.copies head = .empty := by
  refine OrderedSet.ext (List.eq_nil_iff_forall_not_mem.mpr fun p hp => ?_)
  simp only [copies, OrderedSet.mem_toList, OrderedSet.mem_ofList, List.mem_flatMap,
    List.mem_filter, decide_eq_true_eq] at hp
  obtain ⟨target, ht, hp, hw⟩ := hp
  exact h target ht p hp hw

theorem toList_copies_of_wanted
    (ht : targets (c.grammar.productions head) (c.done head) = [name])
    (hw : ∀ p ∈ c.grammar.productions name,
      Wanted head (c.grammar.productions head) (c.done head) p) :
    (c.copies head).toList = c.grammar.productions name := by
  unfold copies
  simp only [ht]
  rw [List.flatMap_singleton, List.filter_eq_self.mpr,
    OrderedSet.toList_ofList_of_nodup (c.grammar.nodup_productions name)]
  exact fun p hp => by simpa only [decide_eq_true_eq] using hw p hp

theorem finish_of_idle (h : c.removals = [] ∧ c.additions = []) :
    c.finish = { c with passes := c.passes + 1 } := by
  rw [finish, if_pos h]

theorem finish_of_busy (h : c.removals ≠ []) : c.finish = c.step.finish := by
  conv_lhs => rw [finish, if_neg fun hidle => h hidle.1]

end UnitClosure

namespace Grammar

theorem InNormalForm.all_ne_nil (h : g.InNormalForm) : g.All (· ≠ []) := (inNormalForm_iff.mp h).1

theorem InNormalForm.all_not_unit (h : g.InNormalForm) : g.All (¬ ·.IsUnit) :=
  (inNormalForm_iff.mp h).2.1

theorem unitClosure_of_not_unit (hu : g.All (¬ ·.IsUnit)) :
    g.unitClosure = { UnitClosure.start g with passes := 1 } :=
  UnitClosure.finish_of_idle (UnitClosure.idle_of_settled hu fun _ _ hm => nomatch hm)

-- ---------------------------------------------------------------------------
-- One unit rule, under a new head
-- ---------------------------------------------------------------------------

section
variable (hn : ¬ g.Mentions name)
include hn

theorem productions_add_of_new {p : Production} : (g.add name p).productions name = [p] := by
  rw [productions_add_self, productions_of_not_mem (not_mem_heads_of_not_mentions hn)]
  rfl

variable (hu : g.All (¬ ·.IsUnit))
include hu

theorem removals_add_unit (head : String) :
    (UnitClosure.start (g.add name [.nonterminal head])).removals =
      [(name, [.nonterminal head])] := by
  have hold : g.rules.filter (fun rule => rule.2.unit?.isSome) = [] := by
    refine List.filter_eq_nil_iff.mpr ?_
    rintro ⟨other, p⟩ hm hs
    obtain ⟨target, ht⟩ := Option.isSome_iff_exists.mp hs
    exact hu other p (mem_rules_iff.mp hm) ⟨target, Production.unit?_eq_some_iff.mp ht⟩
  unfold UnitClosure.removals UnitClosure.start
  rw [rules_add_of_not_mem (not_mem_heads_of_not_mentions hn), List.filter_append, hold]
  rfl

theorem copies_add_unit_of_mem (hm : other ∈ g.heads) :
    (UnitClosure.start (g.add name [.nonterminal head])).copies other = .empty := by
  have hne : other ≠ name := fun he => not_mem_heads_of_not_mentions hn (he ▸ hm)
  refine UnitClosure.copies_eq_empty fun target ht => ?_
  simp only [UnitClosure.start, productions_add_of_ne hne] at ht
  rcases UnitClosure.mem_targets.mp ht with hd | hunit
  · exact absurd hd List.not_mem_nil
  · exact absurd ⟨target, rfl⟩ (hu other _ hunit)

/-- What the old head has is just what the new one takes over. Put over itself it finds only the
unit that goes. -/
theorem copies_add_unit_self : ((UnitClosure.start (g.add name [.nonterminal head])).copies
    name).toList = g.productions head := by
  have hown : (UnitClosure.start (g.add name [.nonterminal head])).grammar.productions name =
      [[.nonterminal head]] := productions_add_of_new hn
  have htargets : UnitClosure.targets
      ((UnitClosure.start (g.add name [.nonterminal head])).grammar.productions name)
      ((UnitClosure.start (g.add name [.nonterminal head])).done name) = [head] := by
    rw [hown]
    rfl
  by_cases he : head = name
  · subst he
    rw [UnitClosure.copies_eq_empty,
      productions_of_not_mem (not_mem_heads_of_not_mentions hn)]
    · rfl
    · intro target ht p hp hw
      obtain rfl := List.mem_singleton.mp (htargets ▸ ht)
      exact hw.1 hp
  · have hhead : (UnitClosure.start (g.add name [.nonterminal head])).grammar.productions head =
        g.productions head := productions_add_of_ne he
    rw [UnitClosure.toList_copies_of_wanted htargets, hhead]
    rw [hown, hhead]
    refine fun p hp => ⟨fun hm => ?_, fun target ht => ?_⟩
    · exact hu head p hp ⟨head, List.mem_singleton.mp hm⟩
    · exact absurd ⟨target, Production.unit?_eq_some_iff.mp ht⟩ (hu head p hp)

theorem additions_add_unit : (UnitClosure.start (g.add name [.nonterminal head])).additions =
    (g.productions head).map fun p => (name, p) := by
  have hheads : (UnitClosure.start (g.add name [.nonterminal head])).grammar.heads =
      g.heads ++ [name] := by
    rw [UnitClosure.start, heads_add, if_neg (not_mem_heads_of_not_mentions hn)]
  unfold UnitClosure.additions
  rw [hheads, List.flatMap_append, List.flatMap_singleton, copies_add_unit_self hn hu]
  refine (congrArg (· ++ _) (List.flatMap_eq_nil_iff.mpr fun other ho => ?_)).trans
    (List.nil_append _)
  rw [copies_add_unit_of_mem hn hu ho]
  rfl

end

/-- `h` is `g` with a new head at the end that has the productions of an old one. -/
structure CopiedTo (name head : String) (g h : Grammar) : Prop where
  heads : h.heads = g.heads ++ [name]
  copy : h.productions name = g.productions head
  kept : ∀ other, other ≠ name → h.productions other = g.productions other

theorem copiedTo_step_add_unit (head : String) (hn : ¬ g.Mentions name)
    (hu : g.All (¬ ·.IsUnit)) :
    CopiedTo name head g (UnitClosure.start (g.add name [.nonterminal head])).step.grammar := by
  have hstep : (UnitClosure.start (g.add name [.nonterminal head])).step.grammar =
      ((g.add name [.nonterminal head]).remove name [.nonterminal head]).addAll
        ((g.productions head).map fun p => (name, p)) := by
    simp only [UnitClosure.step, removals_add_unit hn hu head, additions_add_unit hn hu]
    rfl
  rw [hstep]
  constructor
  case heads =>
    have hm : ∀ rule ∈ (g.productions head).map fun p => (name, p),
        rule.1 ∈ ((g.add name [.nonterminal head]).remove name [.nonterminal head]).heads := by
      simp
    rw [heads_addAll_of_subset hm, heads_remove, heads_add,
      if_neg (not_mem_heads_of_not_mentions hn)]
  case copy =>
    rw [productions_addAll, productions_remove_self, productions_add_of_new hn]
    simp [List.filter_map, Function.comp_def,
      OrderedSet.eraseDups_of_nodup (g.nodup_productions head)]
  case kept =>
    intro other ho
    rw [productions_addAll, productions_remove_of_ne ho, productions_add_of_ne ho]
    simp [List.filter_map, Function.comp_def, Ne.symm ho,
      OrderedSet.eraseDups_of_nodup (g.nodup_productions other)]

/-- The unit rule from a new head gives way to copies in one pass; a second one finds nothing. -/
theorem unitClosure_add_unit (head : String) (hn : ¬ g.Mentions name)
    (hu : g.All (¬ ·.IsUnit)) :
    CopiedTo name head g (g.add name [.nonterminal head]).unitClosure.grammar ∧
      (g.add name [.nonterminal head]).unitClosure.passes = 2 ∧
      (g.add name [.nonterminal head]).unitClosure.removed = 1 := by
  have hremovals := removals_add_unit hn hu head
  have hcopied := copiedTo_step_add_unit head hn hu
  have hidle : (UnitClosure.start (g.add name [.nonterminal head])).step.removals = [] ∧
      (UnitClosure.start (g.add name [.nonterminal head])).step.additions = [] := by
    refine UnitClosure.idle_of_settled (fun other p hp => ?_) fun other target hf p hp => ?_
    · by_cases ho : other = name
      · rw [ho, hcopied.copy] at hp
        exact hu head p hp
      · rw [hcopied.kept other ho] at hp
        exact hu other p hp
    · -- Only the new head has followed a target, the old one.
      have hpair : (other, target) = (name, head) := by
        simp only [UnitClosure.step, hremovals] at hf
        simpa [UnitClosure.start, Production.unit?] using hf
      obtain ⟨rfl, rfl⟩ := Prod.mk.inj hpair
      by_cases he : target = other
      · exact he ▸ hp
      · rwa [hcopied.kept target he, ← hcopied.copy] at hp
  have hfinish : (g.add name [.nonterminal head]).unitClosure =
      { (UnitClosure.start (g.add name [.nonterminal head])).step with passes := 2 } := by
    rw [unitClosure, UnitClosure.finish_of_busy (by simp [hremovals]),
      UnitClosure.finish_of_idle hidle]
    rfl
  rw [hfinish]
  have hremoved : (UnitClosure.start (g.add name [.nonterminal head])).step.removed =
      0 + (UnitClosure.start (g.add name [.nonterminal head])).removals.length := rfl
  rw [hremovals] at hremoved
  exact ⟨hcopied, rfl, hremoved⟩

theorem CopiedTo.inNormalForm {h : Grammar} (hc : CopiedTo name head g h) (hg : g.InNormalForm) :
    h.InNormalForm := by
  rintro ⟨other, p⟩ hr
  rw [mem_rules_iff] at hr
  by_cases ho : other = name
  · rw [ho, hc.copy] at hr
    exact hg (head, p) (mem_rules_iff.mpr hr)
  · rw [hc.kept other ho] at hr
    exact hg (other, p) (mem_rules_iff.mpr hr)

theorem InNormalForm.mixedRules_eq_nil (h : g.InNormalForm) : g.mixedRules = [] := by
  refine List.eq_nil_iff_forall_not_mem.mpr ?_
  rintro ⟨other, p⟩ hr
  obtain ⟨hm, hmixed⟩ := mem_mixedRules.mp hr
  exact (inNormalForm_iff.mp h).2.2.1 other p (mem_rules_iff.mp hm) hmixed

theorem InNormalForm.longRules_eq_nil (h : g.InNormalForm) : g.longRules = [] := by
  refine List.filter_eq_nil_iff.mpr ?_
  rintro ⟨other, p⟩ hr
  have hle := (inNormalForm_iff.mp h).2.2.2 other p (mem_rules_iff.mp hr)
  simpa using hle

end Grammar

-- ---------------------------------------------------------------------------
-- The stages
-- ---------------------------------------------------------------------------

namespace Conversion

variable {c d : Conversion} {input : PointedGrammar} {settings : Settings} {n : Nat}

theorem runStage_of_stepOf {stage : Stage} (h : stepOf stage c = .ok () d) :
    runStage stage c = .ok () d.recount := by
  show EStateM.bind (stepOf stage) (fun _ => modify recount) c = _
  rw [EStateM.bind, h]
  rfl

theorem stepOf_dropEpsilon_of_ne_nil (h : c.grammar.All (· ≠ [])) :
    stepOf .dropEpsilon c = .ok () { c with stats := { c.stats with nullable := 0 } } := by
  have hn : ∀ head, [] ∉ c.grammar.productions head := fun head hp => h head [] hp rfl
  have hstep : stepOf .dropEpsilon c = .ok () { c with
      grammar := c.grammar.withoutEpsilon
      stats := { c.stats with
        nullable := c.grammar.nullable.size
        startNullable := c.stats.startNullable || decide (c.start ∈ c.grammar.nullable) } } := rfl
  rw [hstep, Grammar.withoutEpsilon_eq_self hn, Grammar.nullable_eq_empty hn]
  simp [OrderedSet.size]

theorem stepOf_closeUnits : stepOf .closeUnits c = .ok () { c with
    grammar := c.grammar.unitClosure.grammar
    stats := { c.stats with
      unitPasses := c.stats.unitPasses + c.grammar.unitClosure.passes
      unitsRemoved := c.stats.unitsRemoved + c.grammar.unitClosure.removed } } := rfl

theorem stepOf_wrapTerminals_of_inNormalForm (h : c.grammar.InNormalForm) :
    stepOf .wrapTerminals c = .ok () c := by
  have hrun : Rewriting.wrapTerminals ⟨c.grammar, c.names⟩ = .ok [] ⟨c.grammar, c.names⟩ := by
    show Wrappers.wrapRules [] c.grammar.mixedRules _ = _
    rw [h.mixedRules_eq_nil]
    rfl
  show (onWorkspace _ >>= _) c = _
  rw [onWorkspace_bind, hrun]
  rfl

theorem stepOf_chainLong_of_inNormalForm (h : c.grammar.InNormalForm) :
    stepOf .chainLong c = .ok () c := by
  have hrun : Rewriting.chainLong ⟨c.grammar, c.names⟩ = .ok 0 ⟨c.grammar, c.names⟩ := by
    show (c.grammar.longRules.forM Rewriting.chainRule >>= fun _ =>
      pure c.grammar.longRules.length : Rewriting Nat) _ = _
    rw [h.longRules_eq_nil]
    rfl
  show (onWorkspace _ >>= _) c = _
  rw [onWorkspace_bind, hrun]
  rfl

theorem forM_tail_of_inNormalForm (hn : c.grammar.All (· ≠ []))
    (h : c.grammar.unitClosure.grammar.InNormalForm) :
    Stage.all.tail.forM runStage c = .ok () (recount { c with
      grammar := c.grammar.unitClosure.grammar
      stats := { c.stats with
        nullable := 0
        unitPasses := c.stats.unitPasses + c.grammar.unitClosure.passes
        unitsRemoved := c.stats.unitsRemoved + c.grammar.unitClosure.removed } }) := by
  simp only [Stage.all, List.tail_cons]
  rw [forM_cons_of_ok (runStage_of_stepOf (stepOf_dropEpsilon_of_ne_nil hn)),
    forM_cons_of_ok (runStage_of_stepOf stepOf_closeUnits),
    forM_cons_of_ok (runStage_of_stepOf (stepOf_wrapTerminals_of_inNormalForm h)),
    forM_cons_of_ok (runStage_of_stepOf (stepOf_chainLong_of_inNormalForm h))]
  rfl

-- ---------------------------------------------------------------------------
-- The conversion
-- ---------------------------------------------------------------------------

/-- The new start symbol `name` stands behind the heads and has the productions of the old one. -/
structure Renewed (input : PointedGrammar) (name : String) (c : Conversion) : Prop where
  start : c.start = name
  issued : c.names.issued = [name]
  fresh : ¬ input.grammar.Mentions name
  heads : c.grammar.heads = input.grammar.heads ++ [name]
  copy : c.grammar.productions name = input.grammar.productions input.start
  kept : ∀ A ∈ input.grammar.heads, c.grammar.productions A = input.grammar.productions A
  stats : c.stats = { Statistics.zero with unitPasses := 2, unitsRemoved := 1, freshNames := 1 }

theorem convert_of_kept (input : PointedGrammar) (h : input.grammar.InNormalForm)
    (off : settings.freshStart = false) :
    convert (begin input settings) =
      .ok () { begin input settings with stats := { Statistics.zero with unitPasses := 1 } } := by
  have hclosure := Grammar.unitClosure_of_not_unit h.all_not_unit
  have hnormal : (begin input settings).grammar.unitClosure.grammar.InNormalForm := by
    show input.grammar.unitClosure.grammar.InNormalForm
    rw [hclosure]
    exact h
  show settings.stages.forM runStage (begin input settings) = _
  rw [stages_eq, off, if_neg Bool.false_ne_true,
    forM_tail_of_inNormalForm (c := begin input settings) h.all_ne_nil hnormal]
  simp only [begin, hclosure]
  rfl

theorem stepOf_freshStart_of_firstFree (free : c.names.FirstFree c.grammar n) :
    stepOf .freshStart c = .ok () { c with
      grammar := c.grammar.add (FreshNames.numbered c.names.stem n) [.nonterminal c.start]
      start := FreshNames.numbered c.names.stem n
      names := c.names.past n } := by
  have hfresh : Rewriting.fresh ⟨c.grammar, c.names⟩ =
      .ok (FreshNames.numbered c.names.stem n) ⟨c.grammar, c.names.past n⟩ := by
    obtain ⟨m, hm, he⟩ | ⟨hdry, _⟩ := FreshNames.allocate_cases c.grammar c.names
    · obtain rfl := hm.unique free
      simp only [Rewriting.fresh, he]
    · exact absurd hdry free.not_dry
  show (onWorkspace Rewriting.fresh >>= _) c = _
  rw [onWorkspace_bind, hfresh]
  rfl

theorem runStage_freshStart_of_dry (dry : c.names.Dry c.grammar) :
    runStage .freshStart c =
      .error ⟨c.names.stem, c.names.limit⟩ { c with names := c.names.spent } := by
  have hfresh : Rewriting.fresh ⟨c.grammar, c.names⟩ =
      .error ⟨c.names.stem, c.names.limit⟩ ⟨c.grammar, c.names.spent⟩ := by
    obtain ⟨m, hm, _⟩ | ⟨_, he⟩ := FreshNames.allocate_cases c.grammar c.names
    · exact absurd dry hm.not_dry
    · simp only [Rewriting.fresh, he]
      rfl
  have hstep : stepOf .freshStart c =
      .error ⟨c.names.stem, c.names.limit⟩ { c with names := c.names.spent } := by
    show (onWorkspace Rewriting.fresh >>= _) c = _
    rw [onWorkspace_bind, hfresh]
  show EStateM.bind (stepOf .freshStart) _ c = _
  rw [EStateM.bind, hstep]

theorem convert_eq_of_freshStart (on : settings.freshStart = true) :
    convert (begin input settings) =
      (Stage.freshStart :: Stage.all.tail).forM runStage (begin input settings) := by
  show settings.stages.forM runStage (begin input settings) = _
  rw [stages_eq, on]
  rfl

theorem convert_of_renewed (input : PointedGrammar) (h : input.grammar.InNormalForm)
    (on : settings.freshStart = true) (free : settings.supply.FirstFree input.grammar n) :
    ∃ c, convert (begin input settings) = .ok () c ∧
      Renewed input (FreshNames.numbered settings.stem n) c := by
  obtain ⟨hcopied, hpasses, hremoved⟩ :=
    Grammar.unitClosure_add_unit input.start free.free h.all_not_unit
  have hne : (input.grammar.add (FreshNames.numbered settings.stem n)
      [.nonterminal input.start]).All (· ≠ []) := by
    intro head p hp
    rcases Grammar.mem_productions_add.mp hp with hp | ⟨_, rfl⟩
    · exact h.all_ne_nil head p hp
    · simp
  have hfirst := runStage_of_stepOf
    (stepOf_freshStart_of_firstFree (c := begin input settings) free)
  refine ⟨_, (convert_eq_of_freshStart on).trans ((forM_cons_of_ok hfirst).trans
    (forM_tail_of_inNormalForm hne (hcopied.inNormalForm h))), ?_⟩
  constructor
  case start => rfl
  case issued => rfl
  case fresh => exact free.free
  case heads => exact hcopied.heads
  case copy => exact hcopied.copy
  case kept =>
    intro A hA
    exact hcopied.kept A fun he => Grammar.not_mem_heads_of_not_mentions free.free (he ▸ hA)
  case stats =>
    have hstats : ∀ {passes removed : Nat}, passes = 2 → removed = 1 →
        Statistics.mk 0 false (0 + passes) (0 + removed) 0 0 1 =
          { Statistics.zero with unitPasses := 2, unitsRemoved := 1, freshNames := 1 } := by
      rintro _ _ rfl rfl
      rfl
    exact hstats hpasses hremoved

theorem convert_of_dry (input : PointedGrammar) (on : settings.freshStart = true)
    (dry : settings.supply.Dry input.grammar) :
    convert (begin input settings) = .error ⟨settings.stem, settings.supply.limit⟩
      { begin input settings with names := settings.supply.spent } :=
  (convert_eq_of_freshStart on).trans (forM_cons_of_error
    (runStage_freshStart_of_dry (c := begin input settings) dry))

/-- A conversion of a grammar in normal form changes nothing but the start symbol, and that only
if it is asked to. So a conversion of a converted grammar keeps the productions of all heads; a new
start symbol gets those of the old one. -/
theorem convert_inNormalForm :
    (∀ (input : PointedGrammar) (settings : Settings), input.grammar.InNormalForm →
      (settings.freshStart = false → convert (begin input settings) =
        .ok () { begin input settings with stats := { Statistics.zero with unitPasses := 1 } }) ∧
      (settings.freshStart = true → ¬ settings.supply.Dry input.grammar →
        ∃ n c, settings.supply.FirstFree input.grammar n ∧
          convert (begin input settings) = .ok () c ∧
          Renewed input (FreshNames.numbered settings.stem n) c) ∧
      (settings.freshStart = true → settings.supply.Dry input.grammar →
        convert (begin input settings) = .error ⟨settings.stem, settings.supply.limit⟩
          { begin input settings with names := settings.supply.spent })) ∧
    ∀ (first : PointedGrammar) (settings : Settings) (c : Conversion) (start : String)
      (again : Settings) (d : Conversion),
      convert (begin first settings) = .ok () c →
      convert (begin ⟨c.grammar, start⟩ again) = .ok () d →
      (∀ A ∈ c.grammar.heads, d.grammar.productions A = c.grammar.productions A) ∧
      ∀ A ∈ d.grammar.heads, A ∉ c.grammar.heads →
        A = d.start ∧ d.grammar.productions A = c.grammar.productions start := by
  refine ⟨fun input settings h =>
      ⟨convert_of_kept input h, fun on hdry => ?_, convert_of_dry input⟩,
    fun first settings c start again d hc hd => ?_⟩
  · obtain ⟨n, free, _⟩ | ⟨dry, _⟩ := FreshNames.allocate_cases input.grammar settings.supply
    · obtain ⟨c, hc, hrenewed⟩ := convert_of_renewed input h on free
      exact ⟨n, c, free, hc, hrenewed⟩
    · exact absurd dry hdry
  have hnormal := inNormalForm_convert hc
  cases on : again.freshStart with
  | false =>
    rw [convert_of_kept ⟨c.grammar, start⟩ hnormal on] at hd
    obtain rfl := (EStateM.Result.ok.inj hd).2
    exact ⟨fun _ _ => rfl, fun A hA hn => absurd hA hn⟩
  | true =>
    rcases FreshNames.allocate_cases c.grammar again.supply with ⟨n, free, _⟩ | ⟨dry, _⟩
    · obtain ⟨e, he, hrenewed⟩ :=
        convert_of_renewed ⟨c.grammar, start⟩ hnormal on free
      rw [he] at hd
      obtain rfl := (EStateM.Result.ok.inj hd).2
      refine ⟨hrenewed.kept, fun A hA hn => ?_⟩
      rw [hrenewed.heads, List.mem_append, List.mem_singleton] at hA
      obtain rfl := hA.resolve_left hn
      exact ⟨hrenewed.start.symm, hrenewed.copy⟩
    · rw [convert_of_dry ⟨c.grammar, start⟩ on dry] at hd
      exact nomatch hd

/-- In turn: no new start symbol and no names at all; a start symbol that is no head and is put
over itself; no name for the new one that is wanted; and a conversion of a converted grammar. -/
theorem convert_inNormalForm_sample :
    PointedGrammar.sample.grammar.InNormalForm ∧
    convert (begin .sample ⟨false, "X", some 0⟩) =
      .ok () { begin .sample ⟨false, "X", some 0⟩ with
        stats := { Statistics.zero with unitPasses := 1 } } ∧
    (∃ n c, Settings.standard.supply.FirstFree PointedGrammar.sample.grammar n ∧
      convert (begin ⟨.sample, "X0"⟩ .standard) = .ok () c ∧
      Renewed ⟨.sample, "X0"⟩ (FreshNames.numbered "X" n) c) ∧
    convert (begin .sample ⟨true, "X", some 0⟩) =
      .error ⟨"X", 0⟩ { begin .sample ⟨true, "X", some 0⟩ with
        names := (Settings.supply ⟨true, "X", some 0⟩).spent } ∧
    ∃ c d, convert (begin .textbook .standard) = .ok () c ∧
      convert (begin ⟨c.grammar, "A"⟩ .standard) = .ok () d ∧
      ∀ A ∈ c.grammar.heads, d.grammar.productions A = c.grammar.productions A := by
  have hnormal : PointedGrammar.sample.grammar.InNormalForm := by decide +kernel
  have hfirst : convert (begin .textbook .standard) =
      .ok () ((begin .textbook .standard).afterAll Settings.standard.stages) :=
    convert_eq_ok_iff.mpr ⟨rfl, by decide +kernel⟩
  have hagain : convert (begin ⟨((begin .textbook .standard).afterAll
        Settings.standard.stages).grammar, "A"⟩ .standard) =
      .ok () ((begin ⟨((begin .textbook .standard).afterAll
        Settings.standard.stages).grammar, "A"⟩ .standard).afterAll Settings.standard.stages) :=
    convert_eq_ok_iff.mpr ⟨rfl, by decide +kernel⟩
  refine ⟨hnormal, (convert_inNormalForm.1 _ _ hnormal).1 rfl,
    (convert_inNormalForm.1 ⟨.sample, "X0"⟩ .standard hnormal).2.1 rfl fun hdry => ?_,
    (convert_inNormalForm.1 _ ⟨true, "X", some 0⟩ hnormal).2.2 rfl fun m _ hlt => ?_,
    _, _, hfirst, hagain, (convert_inNormalForm.2 _ _ _ _ _ _ hfirst hagain).1⟩
  · exact absurd (hdry 0 (by decide) (by decide)) (by decide +kernel)
  · exact absurd hlt (Nat.not_lt_zero m)

end Conversion
end ContextFree
