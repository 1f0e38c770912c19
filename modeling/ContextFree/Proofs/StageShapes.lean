import ContextFree.Proofs.StageRuns

/-!
# The shapes of productions along a run of stages

Normal form is the sum of four shapes: no ε, no unit, no terminal in a long
production, no production longer than two. Each is brought about by one stage.

Three of them are stable, no stage spoils them. The fourth, no unit, is spoilt
by a new start symbol and by the deletion of ε; but once there is no ε left the
deletion has nothing to do. So the order of the stages matters in one respect
only, which `Admissible` says of the log of a run.
-/

namespace ContextFree

variable {before result : PointedGrammar} {stage : Stage} {finished : Bool}
variable {p q : Production} {P : Production → Prop}

-- ---------------------------------------------------------------------------
-- Four shapes
-- ---------------------------------------------------------------------------

namespace Production

def IsUnit (p : Production) : Prop := ∃ target, p = [.nonterminal target]

theorem isNormal_iff_shapes :
    IsNormal p ↔ p ≠ [] ∧ ¬ p.IsUnit ∧ ¬ p.Mixed ∧ p.length ≤ 2 := by
  constructor
  · rintro (_ | _) <;> simp [IsUnit, Mixed, hasTerminal, Symbol.isTerminal]
  · rintro ⟨hne, hu, hm, hl⟩
    rcases p with _ | ⟨x, _ | ⟨y, _ | ⟨z, rest⟩⟩⟩
    · exact absurd rfl hne
    · cases x with
      | terminal t => exact .terminal t
      | nonterminal name => exact absurd ⟨name, rfl⟩ hu
    · cases x <;> cases y <;> first
        | exact .binary _ _
        | simp [Mixed, hasTerminal, Symbol.isTerminal] at hm
    · simp at hl

/-- A shape that every stage keeps: single symbols have it, and it passes on to what is left of
a production, to a production with wrappers and to the pairs of a chain. -/
structure Stable (P : Production → Prop) : Prop where
  single : ∀ s, P [s]
  part : ∀ p q : Production, q.Sublist p → q ≠ [] → P p → P q
  wraps : ∀ ws p q, Wrappers.Wraps ws p q → P p → P q
  pair : ∀ p x s, P p → x ∈ p → (s ∈ p ∨ ∃ link, s = .nonterminal link) → 2 < p.length → P [x, s]

theorem stable_ne_nil : Stable fun p => p ≠ [] where
  single _ := by simp
  part _ _ _ hq _ := hq
  wraps ws p q h hp hq := by
    have hl := h.length_eq
    rw [hq, List.length_nil, eq_comm, List.length_eq_zero_iff] at hl
    exact hp hl
  pair _ _ _ _ _ _ _ := by simp

theorem stable_length_le_two : Stable fun p => p.length ≤ 2 where
  single _ := by simp
  part _ _ hs _ hp := Nat.le_trans hs.length_le hp
  wraps _ _ _ h hp := h.length_eq ▸ hp
  pair _ _ _ _ _ _ _ := by simp

theorem Mixed.of_sublist (hs : q.Sublist p) (hq : q.Mixed) : p.Mixed := by
  obtain ⟨hl, ht⟩ := hq
  obtain ⟨t, hm⟩ := hasTerminal_iff.mp ht
  exact ⟨Nat.le_trans hl hs.length_le, hasTerminal_iff.mpr ⟨t, hs.subset hm⟩⟩

theorem stable_not_mixed : Stable fun p => ¬ p.Mixed where
  single _ := by simp [Mixed]
  part _ _ hs _ hp hq := hp (hq.of_sublist hs)
  wraps _ _ _ h _ hq := by simp [Mixed, h.not_hasTerminal] at hq
  pair p x s hp hx hs hl := by
    rintro ⟨_, ht⟩
    obtain ⟨t, hm⟩ := hasTerminal_iff.mp ht
    have hp' : Symbol.terminal t ∈ p := by
      rcases List.mem_cons.mp hm with rfl | hm
      · exact hx
      · obtain rfl := List.mem_singleton.mp hm
        rcases hs with hs | ⟨link, hs⟩
        · exact hs
        · simp at hs
    exact hp ⟨by omega, hasTerminal_iff.mpr ⟨t, hp'⟩⟩

end Production

def Grammar.All (P : Production → Prop) (g : Grammar) : Prop :=
  ∀ head, ∀ p ∈ g.productions head, P p

theorem Grammar.inNormalForm_iff {g : Grammar} : g.InNormalForm ↔
    g.All (· ≠ []) ∧ g.All (¬ ·.IsUnit) ∧ g.All (¬ ·.Mixed) ∧ g.All (·.length ≤ 2) := by
  have h : g.InNormalForm ↔ g.All Production.IsNormal := by
    constructor
    · exact fun hn head p hp => hn (head, p) (mem_rules_iff.mpr hp)
    · rintro ha ⟨head, p⟩ hr
      exact ha head p (mem_rules_iff.mp hr)
  rw [h]
  simp only [All, Production.isNormal_iff_shapes]
  exact ⟨fun hn => ⟨fun a p hp => (hn a p hp).1, fun a p hp => (hn a p hp).2.1,
    fun a p hp => (hn a p hp).2.2.1, fun a p hp => (hn a p hp).2.2.2⟩,
    fun ⟨h₁, h₂, h₃, h₄⟩ a p hp => ⟨h₁ a p hp, h₂ a p hp, h₃ a p hp, h₄ a p hp⟩⟩

theorem Grammar.all_not_unit_unitClosure (g : Grammar) :
    g.unitClosure.grammar.All (¬ ·.IsUnit) := by
  rintro head p hp ⟨target, rfl⟩
  exact (mem_productions_unitClosure.mp hp).1 target rfl

namespace Conversion

-- ---------------------------------------------------------------------------
-- What a stage brings about and what it keeps
-- ---------------------------------------------------------------------------

theorem Effect.all_of_stable (hP : Production.Stable P) (h : Effect before stage finished result)
    (hb : before.grammar.All P) : result.grammar.All P := by
  cases h with
  | newStart _ =>
    intro head p hp
    rcases Grammar.mem_productions_add.mp hp with hp | ⟨_, rfl⟩
    · exact hb head p hp
    · exact hP.single _
  | oldStart => exact hb
  | dropEpsilon =>
    intro head p hp
    obtain ⟨hne, q, hq, hd⟩ := Grammar.mem_productions_withoutEpsilon.mp hp
    exact hP.part q p hd.sublist hne (hb head q hq)
  | closeUnits =>
    intro head p hp
    obtain ⟨_, target, _, hp⟩ := Grammar.mem_productions_unitClosure.mp hp
    exact hb target p hp
  | wrapTerminals reached _ =>
    exact reached.forall_productions hb (fun _ => hP.single _)
      fun ws p q hw _ hp => hP.wraps ws p q hw hp
  | chainLong chained _ =>
    exact chained.forall_productions hb fun p x s hp hl hx hs => hP.pair p x s hp hx hs hl

theorem Effect.all_not_unit (h : Effect before stage finished result)
    (hn : before.grammar.All (· ≠ [])) (hu : before.grammar.All (¬ ·.IsUnit))
    (hs : ¬ (stage = .freshStart ∧ finished = true)) : result.grammar.All (¬ ·.IsUnit) := by
  cases h with
  | newStart _ => exact absurd ⟨rfl, rfl⟩ hs
  | oldStart => exact hu
  | dropEpsilon =>
    rw [Grammar.withoutEpsilon_eq_self fun head hp => hn head [] hp rfl]
    exact hu
  | closeUnits => exact Grammar.all_not_unit_unitClosure _
  | wrapTerminals reached _ =>
    refine reached.forall_productions hu (fun t => by simp [Production.IsUnit]) ?_
    rintro ws p _ hw hl _ ⟨target, rfl⟩
    have := hw.length_eq
    simp at this
    omega
  | chainLong chained _ =>
    exact chained.forall_productions hu fun _ _ _ _ _ _ _ => by simp [Production.IsUnit]

theorem Effect.all_ne_nil_of_dropEpsilon (h : Effect before .dropEpsilon finished result) :
    result.grammar.All (· ≠ []) := by
  cases h with
  | dropEpsilon => exact fun head p hp => (Grammar.mem_productions_withoutEpsilon.mp hp).1

theorem Effect.all_not_unit_of_closeUnits (h : Effect before .closeUnits finished result) :
    result.grammar.All (¬ ·.IsUnit) := by
  cases h with
  | closeUnits => exact Grammar.all_not_unit_unitClosure _

theorem Effect.all_not_mixed_of_wrapTerminals (h : Effect before .wrapTerminals true result) :
    result.grammar.All (¬ ·.Mixed) := by
  cases h with
  | wrapTerminals _ done => exact done rfl

theorem Effect.all_length_of_chainLong (h : Effect before .chainLong true result) :
    result.grammar.All (·.length ≤ 2) := by
  cases h with
  | chainLong _ done => exact done rfl

-- ---------------------------------------------------------------------------
-- Runs
-- ---------------------------------------------------------------------------

variable {c : Conversion} {stages : List Stage}

theorem all_afterAll_of_stable (hP : Production.Stable P) (hc : c.grammar.All P)
    (stages : List Stage) : (c.afterAll stages).grammar.All P := by
  induction stages generalizing c with
  | nil => exact hc
  | cons stage stages ih => exact ih ((effect c stage).all_of_stable hP hc)

theorem all_not_unit_afterAll (hn : c.grammar.All (· ≠ [])) (hu : c.grammar.All (¬ ·.IsUnit))
    (hs : (.freshStart, true) ∉ c.log stages) :
    (c.afterAll stages).grammar.All (¬ ·.IsUnit) := by
  induction stages generalizing c with
  | nil => exact hu
  | cons stage stages ih =>
    simp only [log, List.mem_cons, not_or, Prod.mk.injEq] at hs
    refine ih ((effect c stage).all_of_stable Production.stable_ne_nil hn) ?_ hs.2
    refine (effect c stage).all_not_unit hn hu ?_
    rintro ⟨rfl, hf⟩
    exact hs.1 ⟨rfl, hf.symm⟩

theorem all_afterAll_of_mem_log (hP : Production.Stable P)
    (hstage : ∀ {before result}, Effect before stage finished result → result.grammar.All P)
    (hm : (stage, finished) ∈ c.log stages) : (c.afterAll stages).grammar.All P := by
  obtain ⟨first, last, rfl, rfl⟩ := exists_of_mem_log hm
  rw [afterAll_append, afterAll_cons]
  exact all_afterAll_of_stable hP (hstage (effect _ stage)) last

/-- Each of the four shaping stages has finished once, and units have been closed after a deletion
of ε and after the last new start symbol. -/
structure Admissible (log : List (Stage × Bool)) : Prop where
  epsilon : (.dropEpsilon, true) ∈ log
  units : (.closeUnits, true) ∈ log
  terminals : (.wrapTerminals, true) ∈ log
  long : (.chainLong, true) ∈ log
  order : ∃ before finished later, log = before ++ (.closeUnits, finished) :: later ∧
    .dropEpsilon ∈ before.map Prod.fst ∧ (.freshStart, true) ∉ later

theorem inNormalForm_of_admissible (h : Admissible (c.log stages)) :
    (c.afterAll stages).grammar.InNormalForm := by
  refine Grammar.inNormalForm_iff.mpr ⟨?_, ?_, ?_, ?_⟩
  · exact all_afterAll_of_mem_log Production.stable_ne_nil
      Effect.all_ne_nil_of_dropEpsilon h.epsilon
  · obtain ⟨before, finished, later, hlog, hd, hs⟩ := h.order
    obtain ⟨first, last, rfl, rfl, _, rfl⟩ := exists_of_log_eq hlog
    obtain ⟨⟨_, ok⟩, hd, rfl⟩ := List.mem_map.mp hd
    -- ε is gone when the units are closed, so no later deletion brings a unit back.
    have hn : (c.afterAll first).grammar.All (· ≠ []) :=
      all_afterAll_of_mem_log Production.stable_ne_nil Effect.all_ne_nil_of_dropEpsilon hd
    have he := effect (c.afterAll first) .closeUnits
    rw [afterAll_append, afterAll_cons]
    exact all_not_unit_afterAll (he.all_of_stable Production.stable_ne_nil hn)
      he.all_not_unit_of_closeUnits hs
  · exact all_afterAll_of_mem_log Production.stable_not_mixed
      Effect.all_not_mixed_of_wrapTerminals h.terminals
  · exact all_afterAll_of_mem_log Production.stable_length_le_two
      Effect.all_length_of_chainLong h.long

-- ---------------------------------------------------------------------------
-- The pipeline
-- ---------------------------------------------------------------------------

theorem runStage_eq_ok_iff {d : Conversion} :
    runStage stage c = .ok () d ↔ c.finishes stage = true ∧ c.after stage = d := by
  unfold finishes after
  cases runStage stage c <;> simp

theorem forM_cons (stage : Stage) (stages : List Stage) (c : Conversion) :
    (stage :: stages).forM runStage c =
      EStateM.bind (runStage stage) (fun _ => stages.forM runStage) c := rfl

theorem forM_cons_eq_ok_iff {d : Conversion} :
    (stage :: stages).forM runStage c = .ok () d ↔
      ∃ c', runStage stage c = .ok () c' ∧ stages.forM runStage c' = .ok () d := by
  rw [forM_cons, EStateM.bind]
  cases runStage stage c <;> simp

theorem forM_runStage_eq_ok_iff {d : Conversion} : stages.forM runStage c = .ok () d ↔
    c.afterAll stages = d ∧ c.log stages = stages.map (·, true) := by
  induction stages generalizing c with
  | nil =>
    have hnil : ([] : List Stage).forM runStage c = .ok () c := rfl
    simp [hnil, log]
  | cons stage stages ih =>
    simp only [forM_cons_eq_ok_iff, runStage_eq_ok_iff, ih, log, List.map_cons, afterAll_cons]
    constructor
    · rintro ⟨c', ⟨hf, rfl⟩, hd, hl⟩
      exact ⟨hd, by rw [hf, hl]⟩
    · rintro ⟨hd, hl⟩
      obtain ⟨hf, hl⟩ := List.cons.inj hl
      exact ⟨_, ⟨(Prod.mk.inj hf).2, rfl⟩, hd, hl⟩

theorem convert_eq_ok_iff {d : Conversion} : convert c = .ok () d ↔
    c.afterAll c.settings.stages = d ∧
      c.log c.settings.stages = c.settings.stages.map (·, true) :=
  forM_runStage_eq_ok_iff

theorem stages_eq (settings : Settings) :
    settings.stages = if settings.freshStart then Stage.all else Stage.all.tail := by
  obtain ⟨freshStart, stem, limit⟩ := settings
  cases freshStart <;> rfl

theorem admissible_stages (settings : Settings) : Admissible (settings.stages.map (·, true)) := by
  rw [stages_eq]
  split
  · exact ⟨by decide, by decide, by decide, by decide,
      [(.freshStart, true), (.dropEpsilon, true)], true, _, rfl, by decide, by decide⟩
  · exact ⟨by decide, by decide, by decide, by decide,
      [(.dropEpsilon, true)], true, _, rfl, by decide, by decide⟩

theorem inNormalForm_convert {d : Conversion} (h : convert c = .ok () d) :
    d.grammar.InNormalForm := by
  obtain ⟨rfl, hl⟩ := convert_eq_ok_iff.mp h
  exact inNormalForm_of_admissible (hl ▸ admissible_stages c.settings)

/-- Admissible runs end in normal form, and a conversion that finishes is one of them. -/
theorem inNormalForm_run :
    (∀ (c : Conversion) (stages : List Stage), Admissible (c.log stages) →
      (c.afterAll stages).grammar.InNormalForm) ∧
    ∀ c d : Conversion, convert c = .ok () d → d.grammar.InNormalForm :=
  ⟨fun _ _ => inNormalForm_of_admissible, fun _ _ => inNormalForm_convert⟩

/-- A run in another order, in which the names are spent before the last stage. -/
theorem inNormalForm_textbook :
    (begin .textbook ⟨true, "X", some 2⟩).log
        [.wrapTerminals, .chainLong, .dropEpsilon, .closeUnits, .freshStart] =
      [(.wrapTerminals, true), (.chainLong, true), (.dropEpsilon, true), (.closeUnits, true),
        (.freshStart, false)] ∧
    ((begin .textbook ⟨true, "X", some 2⟩).afterAll
      [.wrapTerminals, .chainLong, .dropEpsilon, .closeUnits, .freshStart]).grammar.InNormalForm ∧
    convert (begin .textbook .standard) =
      .ok () ((begin .textbook .standard).afterAll Settings.standard.stages) ∧
    ((begin .textbook .standard).afterAll Settings.standard.stages).grammar.InNormalForm := by
  have hlog : (begin .textbook ⟨true, "X", some 2⟩).log
      [.wrapTerminals, .chainLong, .dropEpsilon, .closeUnits, .freshStart] =
    [(.wrapTerminals, true), (.chainLong, true), (.dropEpsilon, true), (.closeUnits, true),
      (.freshStart, false)] := by decide +kernel
  have hrun : Admissible ((begin .textbook ⟨true, "X", some 2⟩).log
      [.wrapTerminals, .chainLong, .dropEpsilon, .closeUnits, .freshStart]) := by
    rw [hlog]
    exact ⟨by decide, by decide, by decide, by decide,
      [(.wrapTerminals, true), (.chainLong, true), (.dropEpsilon, true)], true,
      [(.freshStart, false)], rfl, by decide, by decide⟩
  have hconvert : convert (begin .textbook .standard) =
      .ok () ((begin .textbook .standard).afterAll Settings.standard.stages) :=
    convert_eq_ok_iff.mpr ⟨rfl, by decide +kernel⟩
  exact ⟨hlog, inNormalForm_run.1 _ _ hrun, hconvert, inNormalForm_run.2 _ _ hconvert⟩

end Conversion
end ContextFree
