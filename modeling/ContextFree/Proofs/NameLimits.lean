import ContextFree.Proofs.StageShapes

/-!
# Runs under a higher limit

The limit of a supply is looked at only where the names run out. `Steady` says
so of a step: what finishes under one limit finishes alike under a higher one;
and what finishes only under the higher one has handed out a name from beyond
the lower one. Allocation is steady, an edit is, and whatever is put together
of steady steps is (`Steady.bind`); so every stage is steady, and with it every
run of stages (`runStage_steady`, `forM_runStage_steady`). `raised_convert`
says what this means for conversions.
-/

namespace ContextFree

variable {σ α β : Type} {g : Grammar} {limit : UInt32} {n : Nat}

-- ---------------------------------------------------------------------------
-- Supplies
-- ---------------------------------------------------------------------------

namespace FreshNames

variable {names first mid last : FreshNames}

def withLimit (names : FreshNames) (limit : UInt32) : FreshNames := { names with limit }

/-- What a run may do to a supply: the names that come to the record have numbers below the
limit. -/
structure Precedes (first last : FreshNames) : Prop where
  stem : last.stem = first.stem
  limit : last.limit = first.limit
  kept : first.issued ⊆ last.issued
  below : ∀ name ∈ last.issued,
    name ∈ first.issued ∨ ∃ n < first.limit.toNat, name = numbered first.stem n

theorem Precedes.refl (names : FreshNames) : names.Precedes names :=
  ⟨rfl, rfl, List.Subset.refl _, fun _ => Or.inl⟩

theorem Precedes.trans (hm : first.Precedes mid) (hl : mid.Precedes last) :
    first.Precedes last where
  stem := hl.stem.trans hm.stem
  limit := hl.limit.trans hm.limit
  kept := List.Subset.trans hm.kept hl.kept
  below := fun name hname => by
    rcases hl.below name hname with hname | hnew
    · exact hm.below name hname
    · rw [hm.stem, hm.limit] at hnew
      exact Or.inr hnew

theorem FirstFree.precedes (hf : names.FirstFree g n) : names.Precedes (names.past n) where
  stem := rfl
  limit := rfl
  kept := List.subset_append_left ..
  below := fun name hname => by
    rcases List.mem_append.mp hname with hname | hname
    · exact Or.inl hname
    · exact Or.inr ⟨n, hf.lt, List.mem_singleton.mp hname⟩

theorem FirstFree.withLimit (hf : names.FirstFree g n) (hle : names.limit ≤ limit) :
    (names.withLimit limit).FirstFree g n :=
  ⟨hf.ge, Nat.lt_of_lt_of_le hf.lt (UInt32.le_iff_toNat_le.mp hle), hf.free, hf.taken⟩

theorem Dry.limit_le (hd : names.Dry g) (hf : (names.withLimit limit).FirstFree g n) :
    names.limit.toNat ≤ n :=
  Nat.not_lt.mp fun hlt => hf.free (hd n hf.ge hlt)

def IssuedBeyond (names : FreshNames) (limit : UInt32) : Prop :=
  ∃ n, limit.toNat ≤ n ∧ numbered names.stem n ∈ names.issued

theorem IssuedBeyond.of_precedes (hb : first.IssuedBeyond limit) (hp : first.Precedes last) :
    last.IssuedBeyond limit := by
  obtain ⟨n, hn, hm⟩ := hb
  exact ⟨n, hn, hp.stem ▸ hp.kept hm⟩

end FreshNames

-- ---------------------------------------------------------------------------
-- Steady steps
-- ---------------------------------------------------------------------------

/-- A kind of state with a supply in it, and how such a state gets another limit. -/
structure LimitChange (σ : Type) where
  names : σ → FreshNames
  limit : UInt32
  apply : σ → σ
  names_apply (s : σ) : names (apply s) = (names s).withLimit limit

/-- A step for which a higher limit changes nothing, unless the names beyond the lower one are
used. -/
structure Steady (change : LimitChange σ) (step : EStateM Exhausted σ α) : Prop where
  precedes : ∀ {s a t}, step s = .ok a t → (change.names s).Precedes (change.names t)
  raised : ∀ {s a t}, (change.names s).limit ≤ change.limit → step s = .ok a t →
    step (change.apply s) = .ok a (change.apply t)
  reason : ∀ {s e t}, step s = .error e t → e = ⟨(change.names s).stem, (change.names s).limit⟩
  beyond : ∀ {s e t a u}, (change.names s).limit ≤ change.limit → step s = .error e t →
    step (change.apply s) = .ok a u → (change.names u).IssuedBeyond (change.names s).limit

theorem bind_eq_ok {step : EStateM Exhausted σ α} {next : α → EStateM Exhausted σ β} {s u : σ}
    {b : β} : (step >>= next) s = .ok b u ↔ ∃ a t, step s = .ok a t ∧ next a t = .ok b u := by
  show EStateM.bind step next s = _ ↔ _
  unfold EStateM.bind
  cases step s <;> simp

theorem bind_eq_error {step : EStateM Exhausted σ α} {next : α → EStateM Exhausted σ β}
    {s u : σ} {e : Exhausted} : (step >>= next) s = .error e u ↔
      step s = .error e u ∨ ∃ a t, step s = .ok a t ∧ next a t = .error e u := by
  show EStateM.bind step next s = _ ↔ _
  unfold EStateM.bind
  cases step s <;> simp

namespace Steady

variable {change : LimitChange σ} {step : EStateM Exhausted σ α}
variable {next : α → EStateM Exhausted σ β}

theorem pure (a : α) : Steady change (pure a) where
  precedes := fun h => by
    obtain ⟨-, rfl⟩ := EStateM.Result.ok.inj h
    exact .refl _
  raised := fun _ h => by
    obtain ⟨rfl, rfl⟩ := EStateM.Result.ok.inj h
    rfl
  reason := fun h => nomatch h
  beyond := fun _ h => nomatch h

theorem bind (hs : Steady change step) (hn : ∀ a, Steady change (next a)) :
    Steady change (step >>= next) where
  precedes := fun h => by
    obtain ⟨a, t, hstep, hnext⟩ := bind_eq_ok.mp h
    exact (hs.precedes hstep).trans ((hn a).precedes hnext)
  raised := fun hle h => by
    obtain ⟨a, t, hstep, hnext⟩ := bind_eq_ok.mp h
    have hle' := (hs.precedes hstep).limit ▸ hle
    exact bind_eq_ok.mpr ⟨a, _, hs.raised hle hstep, (hn a).raised hle' hnext⟩
  reason := fun h => by
    rcases bind_eq_error.mp h with hstep | ⟨a, t, hstep, hnext⟩
    · exact hs.reason hstep
    · have hp := hs.precedes hstep
      rw [(hn a).reason hnext, hp.stem, hp.limit]
  beyond := fun hle h hhigh => by
    obtain ⟨a', t', hstep', hnext'⟩ := bind_eq_ok.mp hhigh
    rcases bind_eq_error.mp h with hstep | ⟨a, t, hstep, hnext⟩
    · exact (hs.beyond hle hstep hstep').of_precedes ((hn a').precedes hnext')
    · have hp := hs.precedes hstep
      rw [hs.raised hle hstep] at hstep'
      obtain ⟨rfl, rfl⟩ := EStateM.Result.ok.inj hstep'
      rw [← hp.limit] at hle ⊢
      exact (hn a).beyond hle hnext hnext'

theorem modify {f : σ → σ} (hnames : ∀ s, change.names (f s) = change.names s)
    (happly : ∀ s, f (change.apply s) = change.apply (f s)) :
    Steady change (modify f : EStateM Exhausted σ PUnit) where
  precedes := fun {s _ _} h => by
    obtain ⟨-, rfl⟩ := EStateM.Result.ok.inj h
    rw [hnames s]
    exact .refl _
  raised := fun {s _ _} _ h => by
    obtain ⟨rfl, rfl⟩ := EStateM.Result.ok.inj h
    exact congrArg (EStateM.Result.ok PUnit.unit) (happly s)
  reason := fun h => nomatch h
  beyond := fun _ h => nomatch h

end Steady

-- ---------------------------------------------------------------------------
-- Rewriting
-- ---------------------------------------------------------------------------

def Workspace.relimit (limit : UInt32) : LimitChange Workspace where
  names := Workspace.names
  limit := limit
  apply := fun w => { w with names := w.names.withLimit limit }
  names_apply := fun _ => rfl

namespace Rewriting

variable {w : Workspace}

theorem fresh_eq_ok {name : String} {w' : Workspace} : fresh w = .ok name w' ↔
    ∃ n, w.names.FirstFree w.grammar n ∧ name = FreshNames.numbered w.names.stem n ∧
      w' = { w with names := w.names.past n } := by
  constructor
  · exact (fresh_triple w).of_ok
  · rintro ⟨n, hf, rfl, rfl⟩
    cases h : fresh w with
    | ok name w' =>
      obtain ⟨m, hm, rfl, rfl⟩ := (fresh_triple w).of_ok h
      rw [hm.unique hf]
    | error e w' =>
      obtain ⟨-, -, hdry⟩ := (fresh_triple w).of_error h
      exact absurd hdry hf.not_dry

theorem fresh_steady : Steady (Workspace.relimit limit) fresh where
  precedes := fun h => by
    obtain ⟨n, hf, -, rfl⟩ := fresh_eq_ok.mp h
    exact hf.precedes
  raised := fun hle h => by
    obtain ⟨n, hf, rfl, rfl⟩ := fresh_eq_ok.mp h
    exact fresh_eq_ok.mpr ⟨n, hf.withLimit hle, rfl, rfl⟩
  reason := fun {w _ _} h => by
    obtain ⟨-, rfl, -⟩ := (fresh_triple w).of_error h
    rfl
  beyond := fun {w _ _ _ _} _ h hhigh => by
    obtain ⟨-, -, hdry⟩ := (fresh_triple w).of_error h
    obtain ⟨n, hf, -, rfl⟩ := fresh_eq_ok.mp hhigh
    exact ⟨n, hdry.limit_le hf, List.mem_append_right _ (List.mem_singleton.mpr rfl)⟩

theorem edit_steady (f : Grammar → Grammar) : Steady (Workspace.relimit limit) (edit f) :=
  .modify (fun _ => rfl) fun _ => rfl

theorem get_steady {next : Grammar → Rewriting α}
    (hn : ∀ g, Steady (Workspace.relimit limit) (next g)) :
    Steady (Workspace.relimit limit) (get >>= fun w => next w.grammar) where
  precedes := fun {w _ _} h => (hn w.grammar).precedes h
  raised := fun {w _ _} hle h => (hn w.grammar).raised hle h
  reason := fun {w _ _} h => (hn w.grammar).reason h
  beyond := fun {w _ _ _ _} hle h hhigh => (hn w.grammar).beyond hle h hhigh

end Rewriting

namespace Wrappers

open Rewriting (fresh_steady edit_steady)

theorem find_steady (ws : Wrappers) (t : String) :
    Steady (Workspace.relimit limit) (ws.find t) := by
  unfold find
  split
  · exact .pure _
  · exact fresh_steady.bind fun _ => (edit_steady _).bind fun _ => .pure _

theorem wrap_steady (ws : Wrappers) (p : Production) :
    Steady (Workspace.relimit limit) (ws.wrap p) := by
  induction p generalizing ws with
  | nil => exact .pure _
  | cons s p ih =>
    cases s with
    | nonterminal name => exact (ih ws).bind fun _ => .pure _
    | terminal t => exact (ws.find_steady t).bind fun r => (ih r.2).bind fun _ => .pure _

theorem wrapRules_steady (ws : Wrappers) (rules : List Rule) :
    Steady (Workspace.relimit limit) (ws.wrapRules rules) := by
  induction rules generalizing ws with
  | nil => exact .pure _
  | cons rule rules ih =>
    exact (ws.wrap_steady rule.2).bind fun r => (edit_steady _).bind fun _ => ih r.2

end Wrappers

namespace Rewriting

theorem wrapTerminals_steady : Steady (Workspace.relimit limit) wrapTerminals :=
  get_steady fun g => Wrappers.wrapRules_steady [] g.mixedRules

theorem freshNames_steady (n : Nat) : Steady (Workspace.relimit limit) (freshNames n) := by
  induction n with
  | zero => exact .pure _
  | succ n ih => exact fresh_steady.bind fun _ => ih.bind fun _ => .pure _

theorem forM_chainRule_steady (rules : List Rule) :
    Steady (Workspace.relimit limit) (rules.forM chainRule) := by
  induction rules with
  | nil => exact .pure _
  | cons rule rules ih =>
    exact ((freshNames_steady _).bind fun _ => edit_steady _).bind fun _ => ih

theorem chainLong_steady : Steady (Workspace.relimit limit) chainLong := by
  have hnext : ∀ g : Grammar, Steady (Workspace.relimit limit)
      (g.longRules.forM chainRule >>= fun _ => pure g.longRules.length) :=
    fun g => (forM_chainRule_steady g.longRules).bind fun _ => .pure _
  exact get_steady hnext

end Rewriting

-- ---------------------------------------------------------------------------
-- Stages
-- ---------------------------------------------------------------------------

namespace Conversion

variable {input : PointedGrammar} {freshStart : Bool} {stem : String}
variable {limit low high : Option UInt32} {c d : Conversion}

def Settings.withLimit (settings : Settings) (limit : Option UInt32) : Settings :=
  { settings with limit }

def relimit (limit : Option UInt32) : LimitChange Conversion where
  names := Conversion.names
  limit := limit.getD FreshNames.fullLimit
  apply := fun c => { c with
    names := c.names.withLimit (limit.getD FreshNames.fullLimit)
    settings := c.settings.withLimit limit }
  names_apply := fun _ => rfl

theorem onWorkspace_eq_ok {step : Rewriting α} {a : α} : onWorkspace step c = .ok a d ↔
    ∃ u, step ⟨c.grammar, c.names⟩ = .ok a u ∧
      d = { c with grammar := u.grammar, names := u.names } := by
  unfold onWorkspace
  cases step ⟨c.grammar, c.names⟩ <;> simp [eq_comm]

theorem onWorkspace_eq_error {step : Rewriting α} {e : Exhausted} :
    onWorkspace step c = .error e d ↔ ∃ u, step ⟨c.grammar, c.names⟩ = .error e u ∧
      d = { c with grammar := u.grammar, names := u.names } := by
  unfold onWorkspace
  cases step ⟨c.grammar, c.names⟩ <;> simp [eq_comm]

theorem onWorkspace_steady {step : Rewriting α}
    (hs : Steady (Workspace.relimit (limit.getD FreshNames.fullLimit)) step) :
    Steady (relimit limit) (onWorkspace step) where
  precedes := fun h => by
    obtain ⟨u, hu, rfl⟩ := onWorkspace_eq_ok.mp h
    exact hs.precedes hu
  raised := fun {c _ _} hle h => by
    obtain ⟨u, hu, rfl⟩ := onWorkspace_eq_ok.mp h
    exact onWorkspace_eq_ok.mpr ⟨_, hs.raised (s := ⟨c.grammar, c.names⟩) hle hu, rfl⟩
  reason := fun h => by
    obtain ⟨u, hu, rfl⟩ := onWorkspace_eq_error.mp h
    exact hs.reason hu
  beyond := fun {c _ _ _ _} hle h hhigh => by
    obtain ⟨u, hu, rfl⟩ := onWorkspace_eq_error.mp h
    obtain ⟨v, hv, rfl⟩ := onWorkspace_eq_ok.mp hhigh
    exact hs.beyond (s := ⟨c.grammar, c.names⟩) hle hu hv

theorem stepOf_steady (stage : Stage) : Steady (relimit limit) (stepOf stage) := by
  cases stage with
  | freshStart =>
    exact (onWorkspace_steady Rewriting.fresh_steady).bind fun _ =>
      .modify (fun _ => rfl) fun _ => rfl
  | dropEpsilon => exact .modify (fun _ => rfl) fun _ => rfl
  | closeUnits => exact .modify (fun _ => rfl) fun _ => rfl
  | wrapTerminals =>
    exact (onWorkspace_steady Rewriting.wrapTerminals_steady).bind fun _ =>
      .modify (fun _ => rfl) fun _ => rfl
  | chainLong =>
    exact (onWorkspace_steady Rewriting.chainLong_steady).bind fun _ =>
      .modify (fun _ => rfl) fun _ => rfl

theorem runStage_steady (stage : Stage) : Steady (relimit limit) (runStage stage) :=
  (stepOf_steady stage).bind fun _ => .modify (fun _ => rfl) fun _ => rfl

theorem forM_runStage_steady (stages : List Stage) :
    Steady (relimit limit) (stages.forM runStage) := by
  induction stages with
  | nil => exact .pure _
  | cons stage stages ih => exact (runStage_steady stage).bind fun _ => ih

theorem convert_steady : Steady (relimit limit) convert where
  precedes := fun {c _ _} h => (forM_runStage_steady c.settings.stages).precedes h
  raised := fun {c _ _} hle h => (forM_runStage_steady c.settings.stages).raised hle h
  reason := fun {c _ _} h => (forM_runStage_steady c.settings.stages).reason h
  beyond := fun {c _ _ _ _} hle h hhigh =>
    (forM_runStage_steady c.settings.stages).beyond hle h hhigh

-- ---------------------------------------------------------------------------
-- Conversions
-- ---------------------------------------------------------------------------

/-- A conversion under a lower limit comes out as under the higher one if it can do with the
names below; if not, it stops for lack of them. -/
theorem raised_convert (hle : low.getD FreshNames.fullLimit ≤ high.getD FreshNames.fullLimit) :
    (∀ c, convert (begin input ⟨freshStart, stem, low⟩) = .ok () c →
      ∃ d, convert (begin input ⟨freshStart, stem, high⟩) = .ok () d ∧
        d.grammar = c.grammar ∧ d.start = c.start ∧ d.stats = c.stats) ∧
    ∀ d, convert (begin input ⟨freshStart, stem, high⟩) = .ok () d →
      ((∀ n, FreshNames.numbered stem n ∈ d.names.issued →
          n < (low.getD FreshNames.fullLimit).toNat) →
        ∃ c, convert (begin input ⟨freshStart, stem, low⟩) = .ok () c ∧
          c.grammar = d.grammar ∧ c.start = d.start ∧ c.stats = d.stats) ∧
      ∀ n, FreshNames.numbered stem n ∈ d.names.issued →
        (low.getD FreshNames.fullLimit).toNat ≤ n →
        ∃ c, convert (begin input ⟨freshStart, stem, low⟩) =
          .error ⟨stem, low.getD FreshNames.fullLimit⟩ c := by
  have hsteady : Steady (relimit high) convert := convert_steady
  have hlimit : ((relimit high).names (begin input ⟨freshStart, stem, low⟩)).limit ≤
    (relimit high).limit := hle
  have hraised : ∀ {c}, convert (begin input ⟨freshStart, stem, low⟩) = .ok () c →
      convert (begin input ⟨freshStart, stem, high⟩) = .ok () ((relimit high).apply c) :=
    fun h => hsteady.raised hlimit h
  refine ⟨fun c hc => ⟨_, hraised hc, rfl, rfl, rfl⟩, fun d hd => ?_⟩
  cases hlow : convert (begin input ⟨freshStart, stem, low⟩) with
  | ok _ c =>
    -- The two runs end alike, and the lower one has kept below its limit.
    rw [hraised hlow] at hd
    obtain ⟨-, rfl⟩ := EStateM.Result.ok.inj hd
    refine ⟨fun _ => ⟨c, rfl, rfl, rfl, rfl⟩, fun n hm hn => ?_⟩
    have hp := hsteady.precedes hlow
    rcases hp.below _ hm with hm | ⟨m, hlt, he⟩
    · exact nomatch hm
    · have heq : n = m := FreshNames.numbered_inj.mp he
      exact absurd (heq ▸ hlt) (Nat.not_lt.mpr hn)
  | error e c =>
    have he := hsteady.reason hlow
    refine ⟨fun hbelow => ?_, fun _ _ _ => ⟨c, congrArg (EStateM.Result.error · c) he⟩⟩
    obtain ⟨n, hn, hm⟩ := hsteady.beyond hlimit hlow hd
    have hstem : d.names.stem = stem := (hsteady.precedes hd).stem
    exact absurd (hbelow n (hstem ▸ hm)) (Nat.not_lt.mpr hn)

/-- `X0` to `X4` are used. So a limit of 5 does as well as none, and 4 is too low. -/
theorem raised_convert_textbook :
    (some 5).getD FreshNames.fullLimit ≤ none.getD FreshNames.fullLimit ∧
    (some 4).getD FreshNames.fullLimit ≤ none.getD FreshNames.fullLimit ∧
    ∃ d, convert (begin .textbook .standard) = .ok () d ∧
      d.names.issued = (List.range 5).map (FreshNames.numbered "X") ∧
      (∃ c, convert (begin .textbook ⟨true, "X", some 5⟩) = .ok () c ∧
        c.grammar = d.grammar ∧ c.start = d.start ∧ c.stats = d.stats) ∧
      ∃ c, convert (begin .textbook ⟨true, "X", some 4⟩) = .error ⟨"X", 4⟩ c := by
  have hconvert : convert (begin .textbook .standard) =
      .ok () ((begin .textbook .standard).afterAll Settings.standard.stages) :=
    convert_eq_ok_iff.mpr ⟨rfl, by decide +kernel⟩
  have hissued : ((begin .textbook .standard).afterAll Settings.standard.stages).names.issued =
      (List.range 5).map (FreshNames.numbered "X") := by decide +kernel
  have hfive : (some 5).getD FreshNames.fullLimit ≤ none.getD FreshNames.fullLimit := by decide
  have hfour : (some 4).getD FreshNames.fullLimit ≤ none.getD FreshNames.fullLimit := by decide
  refine ⟨hfive, hfour, _, hconvert, hissued, ?_, ?_⟩
  · refine ((raised_convert hfive).2 _ hconvert).1 fun n hm => ?_
    rw [hissued] at hm
    obtain ⟨m, hlt, he⟩ := List.mem_map.mp hm
    exact FreshNames.numbered_inj.mp he ▸ List.mem_range.mp hlt
  · refine ((raised_convert hfour).2 _ hconvert).2 4 ?_ (by decide)
    rw [hissued]
    exact List.mem_map_of_mem (by simp)

end Conversion

end ContextFree
