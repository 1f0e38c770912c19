import ContextFree.Proofs.RenamedStages
import ContextFree.Proofs.ReorderedConversions
import Mathlib.Data.Set.Function

/-!
# Conversions with other names

Stem and limit of the supply decide what the new nonterminals are called and
nothing else (`restemmed_convert`). Two conversions of one grammar, each over
its own stem, hand out equally many names; putting those of the second in the
place of those of the first, one by one, turns the first result into the second.

The two supplies need not skip the same numbers, and a name may be handed out
although the input mentions it, if nothing but a unit rule did. So there are two
renamings: the first turns the one grammar without ε and units into the other
and moves the new start symbol only, the second agrees with it there and moves
what is drawn afterwards.
-/

namespace ContextFree

variable {π σ : Equiv.Perm String} {g : Grammar} {name : String}

-- ---------------------------------------------------------------------------
-- Two runs of wrapping and chaining
-- ---------------------------------------------------------------------------

section
variable {s t u u' v v' : Workspace} {ws vs : Wrappers} {links links' : Rule → List String}
variable (hst : t.grammar = s.grammar.rename σ)
variable (hw : Wrapped s s.grammar.mixedRules [] ws u)
variable (hw' : Wrapped t t.grammar.mixedRules [] vs u')
variable (hk : Linked u u.grammar.longRules links v)
variable (hk' : Linked u' u'.grammar.longRules links' v')
include hst hw hw'

theorem Wrapped.terminals_eq : ws.map Prod.fst = vs.map Prod.fst := by
  have hterminals := Grammar.mixedTerminals_rename σ s.grammar
  rw [← hst] at hterminals
  unfold Grammar.mixedTerminals at hterminals
  rw [hw.terminals, hw'.terminals, hterminals]

theorem Wrapped.length_eq : ws.length = vs.length := by
  simpa using congrArg List.length (Wrapped.terminals_eq hst hw hw')

theorem Wrapped.length_longRules_eq :
    u.grammar.longRules.length = u'.grammar.longRules.length := by
  rw [hw.longRules_eq, hw'.longRules_eq, hst, Grammar.longRules_rename]
  simp only [List.length_map]

include hk hk' in
theorem length_links_eq : (u.grammar.longRules.flatMap links).length =
    (u'.grammar.longRules.flatMap links').length := by
  rw [hk.length_links, hk'.length_links]
  show u.grammar.linksNeeded = u'.grammar.linksNeeded
  rw [hw.linksNeeded_eq, hw'.linksNeeded_eq, hst, Grammar.linksNeeded_rename]

section
variable (hold : ∀ name, s.grammar.Mentions name → π name = σ name)
variable (hwrappers : (ws.map Prod.snd).map π = vs.map Prod.snd)
include hold hwrappers

theorem Wrapped.rename_eq : u'.grammar = u.grammar.rename π := by
  have hterminals := Wrapped.terminals_eq hst hw hw'
  have hmove : ∀ x ∈ ws.map Prod.fst, π (ws.nameOf x) = vs.nameOf x := by
    rw [← Wrappers.map_nameOf hw.nodup_terminals, ← Wrappers.map_nameOf hw'.nodup_terminals,
      ← hterminals, List.map_map] at hwrappers
    exact List.map_inj_left.mp hwrappers
  have hstart : s.grammar.rename π = t.grammar := by rw [hst, Grammar.rename_congr hold]
  refine (Grammar.ext_rules ?_ ?_).symm
  · rw [hw.heads_rename hmove, hstart, hw'.heads, hterminals,
      Wrappers.map_nameOf hw'.nodup_terminals]
  · rw [hw.rules_rename hmove, hstart, hw'.rules_eq, hterminals,
      Wrappers.map_ruleOf hw'.nodup_terminals]

include hk hk' in
theorem Linked.rename_eq
    (hlinks : (u.grammar.longRules.flatMap links).map π = u'.grammar.longRules.flatMap links') :
    v'.grammar = v.grammar.rename π := by
  have hstart := Wrapped.rename_eq hst hw hw' hold hwrappers
  have hlong : u'.grammar.longRules = u.grammar.longRules.map (Rule.rename π) := by
    rw [hstart, Grammar.longRules_rename]
  have hmove : ∀ r ∈ u.grammar.longRules, (links r).map π = links' (r.rename π) := by
    rw [hlong, List.map_flatMap, List.flatMap_map] at hlinks
    refine forall_eq_of_flatMap_eq (fun r hr => ?_) hlinks
    have h₁ := hk.length r hr
    have h₂ := hk'.length (r.rename π) (hlong ▸ List.mem_map_of_mem hr)
    have hlen : (Rule.rename π r).2.length = r.2.length := Production.length_rename
    rw [List.length_map]
    omega
  refine (Grammar.ext_rules ?_ ?_).symm
  · rw [hk.heads_rename hmove, ← hstart, hk'.heads]
  · rw [hk.rules_rename hmove fun r hr => hk'.others r (hstart ▸ hr), ← hstart, hk'.rules]

end
end

-- ---------------------------------------------------------------------------
-- The start symbol
-- ---------------------------------------------------------------------------

namespace Grammar

variable {head new new' : String}

theorem mentions_of_mentions_add_unit (hh : head ∈ g.heads)
    (hm : (g.add new [.nonterminal head]).Mentions name) : g.Mentions name ∨ name = new := by
  rw [mentions_iff_symbols, mem_heads_add, mem_symbols] at hm
  obtain (hm | rfl) | ⟨other, p, hp, hs⟩ := hm
  · exact Or.inl (Or.inl hm)
  · exact Or.inr rfl
  · rcases mem_productions_add.mp hp with hp | ⟨-, rfl⟩
    · exact Or.inl (mentions_iff_symbols.mpr (Or.inr (mem_symbols.mpr ⟨other, p, hp, hs⟩)))
    · obtain rfl : name = head := by simpa using hs
      exact Or.inl (Or.inl hh)

theorem rename_swap_add_unit (hn : ¬ g.Mentions new) (hn' : ¬ g.Mentions new')
    (hh : head ∈ g.heads) :
    (g.add new [.nonterminal head]).rename (Equiv.swap new new') =
      g.add new' [.nonterminal head] := by
  have hfix : ∀ name, g.Mentions name → Equiv.swap new new' name = name := fun name hm =>
    Equiv.swap_apply_of_ne_of_ne (fun he => hn (he ▸ hm)) fun he => hn' (he ▸ hm)
  have hunit : Production.rename (Equiv.swap new new') [.nonterminal head] =
      [.nonterminal (Equiv.swap new new' head)] := rfl
  rw [← add_rename, rename_eq_self hfix, Equiv.swap_apply_left, hunit, hfix head (Or.inl hh)]

end Grammar

namespace Conversion

variable {start stem stem' : String} {freshStart : Bool} {limit limit' : Option UInt32}
variable {opened opened' : PointedGrammar} {names names' : FreshNames} {c d : Conversion}

/-- Two grammars at the second stage: a renaming leads from one to the other that moves the new
start symbol, if there is one, and no name that was there before. -/
structure Opened.Related (σ : Equiv.Perm String) (opened opened' : PointedGrammar)
    (names names' : FreshNames) : Prop where
  grammar : opened'.grammar = opened.grammar.rename σ
  start : opened'.start = σ opened.start
  issued : names.issued.map σ = names'.issued
  old : ∀ name, opened.grammar.Mentions name → name ∉ names.issued →
    name ∉ names'.issued ∧ σ name = name

theorem Opened.exists_related (hstart : start ∈ g.heads)
    (ho : Opened ⟨g, start⟩ ⟨freshStart, stem, limit⟩ opened names)
    (ho' : Opened ⟨g, start⟩ ⟨freshStart, stem', limit'⟩ opened' names') :
    ∃ σ, Opened.Related σ opened opened' names names' := by
  cases ho with
  | kept off =>
    cases ho' with
    | kept _ =>
      refine ⟨Equiv.refl String, (Grammar.rename_eq_self fun _ _ => rfl).symm, rfl, rfl, ?_⟩
      exact fun name _ _ => ⟨List.not_mem_nil, rfl⟩
    | renewed on _ => exact absurd (off.symm.trans on) Bool.false_ne_true
  | @renewed n on free =>
    cases ho' with
    | kept off => exact absurd (off.symm.trans on) Bool.false_ne_true
    | @renewed n' _ free' =>
      have hnew : ¬ g.Mentions (FreshNames.numbered stem n) := free.free
      have hnew' : ¬ g.Mentions (FreshNames.numbered stem' n') := free'.free
      have hleft := Equiv.swap_apply_left (FreshNames.numbered stem n)
        (FreshNames.numbered stem' n')
      refine ⟨Equiv.swap (FreshNames.numbered stem n) (FreshNames.numbered stem' n'),
        (Grammar.rename_swap_add_unit hnew hnew' hstart).symm, hleft.symm,
        congrArg ([·]) hleft, fun name hm hn => ?_⟩
      have hne : name ≠ FreshNames.numbered stem n := fun he => hn (he ▸ List.mem_singleton_self _)
      have hold := (Grammar.mentions_of_mentions_add_unit hstart hm).resolve_right hne
      have hne' : name ≠ FreshNames.numbered stem' n' := fun he => hnew' (he ▸ hold)
      exact ⟨List.mem_singleton.not.mpr hne', Equiv.swap_apply_of_ne_of_ne hne hne'⟩

namespace Opened.Related

variable (hr : Opened.Related σ opened opened' names names')
include hr

theorem size_nullable : opened.grammar.nullable.size = opened'.grammar.nullable.size := by
  rw [hr.grammar, Grammar.size_nullable_rename]

theorem start_mem_nullable_iff :
    opened.start ∈ opened.grammar.nullable ↔ opened'.start ∈ opened'.grammar.nullable := by
  rw [hr.grammar, hr.start, Grammar.mem_nullable_rename]

theorem units : opened.grammar.withoutEpsilon.unitClosure.Renamed σ
    opened'.grammar.withoutEpsilon.unitClosure := by
  rw [hr.grammar, Grammar.withoutEpsilon_rename]
  exact Grammar.unitClosure_rename σ _

theorem trimmed : opened'.grammar.trimmed = opened.grammar.trimmed.rename σ := by
  rw [hr.grammar, Grammar.trimmed_rename]

end Opened.Related

-- ---------------------------------------------------------------------------
-- The renaming
-- ---------------------------------------------------------------------------

section
variable {u u' v v' : Workspace} {ws vs : Wrappers} {links links' : Rule → List String}
variable (hr : Opened.Related σ opened opened' names names')
variable (hw : Wrapped ⟨opened.grammar.trimmed, names⟩ opened.grammar.trimmed.mixedRules [] ws u)
variable (hw' :
  Wrapped ⟨opened'.grammar.trimmed, names'⟩ opened'.grammar.trimmed.mixedRules [] vs u')
variable (hk : Linked u u.grammar.longRules links v)
variable (hk' : Linked u' u'.grammar.longRules links' v')

include hw hk in
theorem issued_eq_append : v.names.issued =
    names.issued ++ (ws.map Prod.snd ++ u.grammar.longRules.flatMap links) :=
  (drawn_wrapped_linked hw hk).issued_eq

include hw hk in
theorem mentions_iff_drawn : v.grammar.Mentions name ↔ opened.grammar.trimmed.Mentions name ∨
    name ∈ ws.map Prod.snd ++ u.grammar.longRules.flatMap links := by
  rw [hk.mentions_iff, hw.mentions_iff, List.mem_append, or_assoc]

include hw hk in
theorem nodup_issued {input : PointedGrammar} {settings : Settings}
    (ho : Opened input settings opened names) : v.names.issued.Nodup := by
  have hheads : v.grammar.heads.Nodup := v.grammar.nodup_heads
  rw [heads_eq hw hk ho] at hheads
  exact hheads.of_append_right

include hr hw hw' hk hk'

theorem length_issued_eq : v.names.issued.length = v'.names.issued.length := by
  have hfirst : names.issued.length = names'.issued.length := by
    rw [← hr.issued, List.length_map]
  simp only [issued_eq_append hw hk, issued_eq_append hw' hk', List.length_append, List.length_map,
    hfirst, Wrapped.length_eq hr.trimmed hw hw', length_links_eq hr.trimmed hw hw' hk hk']

theorem allocated_eq {input : PointedGrammar} {settings settings' : Settings}
    (ho : Opened input settings opened names) (ho' : Opened input settings' opened' names') :
    v.names.allocated = v'.names.allocated := by
  have htally := hk.drawn.tallied (hw.drawn.tallied ho.tallied)
  have htally' := hk'.drawn.tallied (hw'.drawn.tallied ho'.tallied)
  refine UInt32.toNat_inj.mp ?_
  rw [htally.allocated, htally'.allocated, length_issued_eq hr hw hw' hk hk']

section
variable (hmap : v.names.issued.map π = v'.names.issued)
variable (hfix : ∀ name, name ∉ v.names.issued → name ∉ v'.names.issued → π name = name)
include hmap

theorem map_drawn : names.issued.map π = names.issued.map σ ∧
    (ws.map Prod.snd).map π = vs.map Prod.snd ∧
    (u.grammar.longRules.flatMap links).map π = u'.grammar.longRules.flatMap links' := by
  have hfirst : (names.issued.map π).length = names'.issued.length := by
    rw [← hr.issued, List.length_map, List.length_map]
  have hsecond : ((ws.map Prod.snd).map π).length = (vs.map Prod.snd).length := by
    simp only [List.length_map, Wrapped.length_eq hr.trimmed hw hw']
  rw [issued_eq_append hw hk, issued_eq_append hw' hk', List.map_append] at hmap
  obtain ⟨hissued, hlater⟩ := List.append_inj hmap hfirst
  rw [List.map_append] at hlater
  exact ⟨hissued.trans hr.issued.symm, List.append_inj hlater hsecond⟩

include hfix

theorem eq_of_mentions_trimmed (hm : opened.grammar.trimmed.Mentions name) : π name = σ name := by
  by_cases hi : name ∈ names.issued
  · exact List.map_inj_left.mp (map_drawn hr hw hw' hk hk' hmap).1 name hi
  -- Both renamings leave an old name alone: `σ` moves the start symbols only, and `π` only what one
  -- of the two runs has drawn.
  · obtain ⟨hi', hσ⟩ := hr.old name (Grammar.mentions_of_mentions_trimmed hm) hi
    have hm' : opened'.grammar.trimmed.Mentions name := by
      rw [hr.trimmed, ← hσ]
      exact Grammar.mentions_rename.mpr hm
    rw [hσ]
    refine hfix name ?_ ?_
    · rw [issued_eq_append hw hk, List.mem_append, not_or]
      exact ⟨hi, fun hd => (drawn_wrapped_linked hw hk).not_mentions name hd hm⟩
    · rw [issued_eq_append hw' hk', List.mem_append, not_or]
      exact ⟨hi', fun hd => (drawn_wrapped_linked hw' hk').not_mentions name hd hm'⟩

theorem eq_self_of_mentions (hm : v.grammar.Mentions name) (hi : name ∉ v.names.issued) :
    π name = name := by
  rw [issued_eq_append hw hk, List.mem_append, not_or] at hi
  have htrimmed := ((mentions_iff_drawn hw hk).mp hm).resolve_right hi.2
  rw [eq_of_mentions_trimmed hr hw hw' hk hk' hmap hfix htrimmed]
  exact (hr.old name (Grammar.mentions_of_mentions_trimmed htrimmed) hi.1).2

theorem rename_result : v.grammar.rename π = v'.grammar := by
  obtain ⟨-, hwrappers, hlinks⟩ := map_drawn hr hw hw' hk hk' hmap
  have hold : ∀ name, opened.grammar.trimmed.Mentions name → π name = σ name :=
    fun _ => eq_of_mentions_trimmed hr hw hw' hk hk' hmap hfix
  exact (Linked.rename_eq hr.trimmed hw hw' hk hk' hold hwrappers hlinks).symm

end

end

-- ---------------------------------------------------------------------------
-- Counterparts
-- ---------------------------------------------------------------------------

/-- The name that the second conversion has handed out where the first handed out this one; any
other name is its own counterpart. -/
def counterpart (c d : Conversion) (name : String) : String :=
  ((c.names.issued.zip d.names.issued).lookup name).getD name

theorem map_counterpart (hn : c.names.issued.Nodup)
    (hl : c.names.issued.length = d.names.issued.length) :
    c.names.issued.map (c.counterpart d) = d.names.issued := by
  have hfst := List.map_fst_zip (Nat.le_of_eq hl)
  have hsnd := List.map_snd_zip (Nat.le_of_eq hl.symm)
  have hmap : ((c.names.issued.zip d.names.issued).map Prod.fst).map (c.counterpart d) =
      (c.names.issued.zip d.names.issued).map Prod.snd := Wrappers.map_nameOf (hfst.symm ▸ hn)
  rwa [hfst, hsnd] at hmap

theorem counterpart_of_not_mem (hn : name ∉ c.names.issued) : c.counterpart d name = name := by
  have hnone : (c.names.issued.zip d.names.issued).lookup name = none := by
    rw [List.lookup_eq_none_iff]
    intro pair hm
    have hfst := (List.of_mem_zip hm).1
    simpa using fun he : name = pair.1 => hn (he ▸ hfst)
  rw [counterpart, hnone, Option.getD_none]

theorem eq_counterpart {f : String → String} (hn : c.names.issued.Nodup)
    (hl : c.names.issued.length = d.names.issued.length)
    (hmap : c.names.issued.map f = d.names.issued) (hf : name ∉ c.names.issued → f name = name) :
    f name = c.counterpart d name := by
  by_cases hi : name ∈ c.names.issued
  · exact List.map_inj_left.mp (hmap.trans (map_counterpart hn hl).symm) name hi
  · rw [counterpart_of_not_mem hi, hf hi]

/-- Stem and limit only choose names: they do not bear on how many are handed out, nor on the
statistics, and the second result is the first with every name handed out replaced by its
counterpart, order included. -/
theorem restemmed_convert (hstart : start ∈ g.heads)
    (hc : convert (begin ⟨g, start⟩ ⟨freshStart, stem, limit⟩) = .ok () c)
    (hd : convert (begin ⟨g, start⟩ ⟨freshStart, stem', limit'⟩) = .ok () d) :
    c.names.issued.length = d.names.issued.length ∧ c.stats = d.stats ∧
      c.names.issued.map (c.counterpart d) = d.names.issued ∧
      Set.InjOn (c.counterpart d) {name | c.grammar.Mentions name} ∧
      c.counterpart d c.start = d.start ∧
      ∃ π : Equiv.Perm String, (∀ name, c.grammar.Mentions name → π name = c.counterpart d name) ∧
        c.grammar.rename π = d.grammar := by
  obtain @⟨opened, names, ws, links, u, v, opens, hw, hk, grammar_eq, start_eq, names_eq,
    stats_eq⟩ := finished_of_convert hc
  obtain @⟨opened', names', vs, links', u', v', opens', hw', hk', grammar_eq', start_eq', names_eq',
    stats_eq'⟩ := finished_of_convert hd
  obtain ⟨σ, hr⟩ := Opened.exists_related hstart opens opens'
  have hlen : c.names.issued.length = d.names.issued.length := by
    rw [names_eq, names_eq']
    exact length_issued_eq hr hw hw' hk hk'
  have hnodup : c.names.issued.Nodup := names_eq ▸ nodup_issued hw hk opens
  have hnodup' : d.names.issued.Nodup := names_eq' ▸ nodup_issued hw' hk' opens'
  obtain ⟨π, hmap, hfix⟩ := exists_perm_map_eq hnodup hnodup' hlen
  have hruns : v.names.issued.map π = v'.names.issued := names_eq ▸ names_eq' ▸ hmap
  rw [names_eq, names_eq'] at hfix
  have hπ : ∀ name, c.grammar.Mentions name → π name = c.counterpart d name := by
    refine fun name hm => eq_counterpart hnodup hlen hmap fun hi => ?_
    exact eq_self_of_mentions hr hw hw' hk hk' hruns hfix (grammar_eq ▸ hm) (names_eq ▸ hi)
  refine ⟨hlen, ?_, map_counterpart hnodup hlen, ?_, ?_, π, hπ, ?_⟩
  · rw [stats_eq, stats_eq', hr.size_nullable, decide_eq_decide.mpr hr.start_mem_nullable_iff,
      hr.units.passes, hr.units.removed, Wrapped.length_eq hr.trimmed hw hw',
      Wrapped.length_longRules_eq hr.trimmed hw hw', allocated_eq hr hw hw' hk hk' opens opens']
  · intro name hm other ho he
    rw [← hπ name hm, ← hπ other ho] at he
    exact π.injective he
  · have hstart' : opened.grammar.trimmed.Mentions opened.start := by
      refine Or.inl ?_
      rw [Grammar.heads_trimmed]
      exact opens.start_mem_heads (Or.inl hstart)
    have hm : c.grammar.Mentions c.start := by
      rw [grammar_eq, start_eq, mentions_iff_drawn hw hk]
      exact Or.inl hstart'
    rw [← hπ _ hm, start_eq, start_eq', hr.start]
    exact eq_of_mentions_trimmed hr hw hw' hk hk' hruns hfix hstart'
  · rw [grammar_eq, grammar_eq']
    exact rename_result hr hw hw' hk hk' hruns hfix

/-- `S → X0 | ab`, `Y1 → a`, where `X0` derives nothing. -/
def crossed : PointedGrammar :=
  ⟨.ofRules [("S", [.nonterminal "X0"]), ("S", .compact "ab"), ("Y1", .compact "a")], "S"⟩

/-- Over `X` the name that the input mentions is handed out after all; over `Y` a number is
skipped. -/
theorem restemmed_convert_crossed :
    "S" ∈ crossed.grammar.heads ∧
    ∃ c d, convert (begin crossed ⟨false, "X", none⟩) = .ok () c ∧
      convert (begin crossed ⟨false, "Y", some 3⟩) = .ok () d ∧
      c.names.issued = ["X0", "X1"] ∧ d.names.issued = ["Y0", "Y2"] ∧ c.stats = d.stats ∧
      ∃ π : Equiv.Perm String, (∀ name, c.grammar.Mentions name → π name = c.counterpart d name) ∧
        c.grammar.rename π = d.grammar := by
  have hstart : "S" ∈ crossed.grammar.heads := by decide +kernel
  have hc : convert (begin crossed ⟨false, "X", none⟩) =
      .ok () ((begin crossed ⟨false, "X", none⟩).afterAll Stage.all.tail) :=
    convert_eq_ok_iff.mpr ⟨rfl, by decide +kernel⟩
  have hd : convert (begin crossed ⟨false, "Y", some 3⟩) =
      .ok () ((begin crossed ⟨false, "Y", some 3⟩).afterAll Stage.all.tail) :=
    convert_eq_ok_iff.mpr ⟨rfl, by decide +kernel⟩
  obtain ⟨-, hstats, -, -, -, hrename⟩ := restemmed_convert hstart hc hd
  exact ⟨hstart, _, _, hc, hd, by decide +kernel, by decide +kernel, hstats, hrename⟩

end Conversion

end ContextFree
