import ContextFree.Proofs.FinishedConversions

/-!
# The layout of a converted grammar

Behind the old heads, which keep their order, a converted grammar has exactly
the names that were handed out, in that order: the new start symbol, if there
is one, then the wrappers, then the links. Wrappers and links have one
production each. A wrapper stands for a terminal of its own and is used; a link
is used in one place only; and the new start symbol is not used at all
(`layout_convert`).
-/

namespace ContextFree

variable {name : String} {p : Production}

-- ---------------------------------------------------------------------------
-- Wrappers
-- ---------------------------------------------------------------------------

namespace Wrapped

variable {start u : Workspace} {ws : Wrappers} {done : List Rule} {part : List String}
variable {pair : String × String}

theorem mem_productions_iff (hw : Wrapped start done part ws u) (hm : pair ∈ ws) :
    p ∈ u.grammar.productions pair.2 ↔ p = [.terminal pair.1] :=
  hw.reached.mem_productions_wrapper hm

theorem wrapper_mem_heads (hw : Wrapped start done part ws u) (hm : pair ∈ ws) :
    pair.2 ∈ u.grammar.heads := by
  rw [hw.heads]
  exact List.mem_append_right _ (List.mem_map_of_mem hm)

theorem fst_ne_wrapper (hw : Wrapped start done part ws u) (hm : pair ∈ ws) :
    ∀ r ∈ u.grammar.longRules, r.1 ≠ pair.2 := by
  rintro ⟨head, p⟩ hr rfl
  simp only [Grammar.longRules, List.mem_filter, decide_eq_true_eq, Grammar.mem_rules_iff,
    hw.mem_productions_iff hm] at hr
  obtain ⟨rfl, hlong⟩ := hr
  simp at hlong

theorem wrapper_mem_symbols (hw : Wrapped start start.grammar.mixedRules [] ws u)
    (hm : pair ∈ ws) : .nonterminal pair.2 ∈ u.grammar.symbols := by
  have hmet := hw.mem_terminals.mp (List.mem_map_of_mem (f := Prod.fst) hm)
  obtain ⟨r, hr, ht⟩ := List.mem_flatMap.mp (hmet.resolve_right List.not_mem_nil)
  unfold Grammar.symbols
  rw [hw.rules, List.flatMap_append, List.mem_append]
  refine Or.inl (List.mem_flatMap.mpr
    ⟨_, List.mem_map_of_mem (Grammar.mem_mixedRules.mp hr).1, ?_⟩)
  rw [if_pos hr]
  refine Production.nonterminal_mem_dress.mpr (Or.inr ⟨pair.1, ht, ?_⟩)
  exact (Wrappers.nameOf_eq hw.nodup_terminals hm).symm

end Wrapped

-- ---------------------------------------------------------------------------
-- Links
-- ---------------------------------------------------------------------------

namespace Linked

variable {start u : Workspace} {done : List Rule} {links : Rule → List String}

theorem mem_rules_iff (hl : Linked start done links u) {rule : Rule} :
    rule ∈ u.grammar.rules ↔ (∃ r ∈ start.grammar.rules, rule = r.opening (links r)) ∨
      ∃ r ∈ done, rule ∈ r.continuation (links r) := by
  rw [hl.rules, List.mem_append, List.mem_map, List.mem_flatMap]
  simp only [eq_comm]

theorem map_fst_continuations (hl : Linked start done links u) :
    (done.flatMap fun r => r.continuation (links r)).map Prod.fst = done.flatMap links := by
  rw [List.map_flatMap]
  refine List.flatMap_congr fun r hr => Rule.map_fst_continuation ?_
  have := hl.length r hr
  omega

theorem mem_productions_iff_of_short (hl : Linked start done links u)
    (hn : name ∈ start.grammar.heads) (hshort : ∀ r ∈ done, r.1 ≠ name) :
    p ∈ u.grammar.productions name ↔ p ∈ start.grammar.productions name := by
  rw [← Grammar.mem_rules_iff, ← Grammar.mem_rules_iff, hl.mem_rules_iff]
  constructor
  · rintro (⟨r, hr, he⟩ | ⟨r, hr, hm⟩)
    · have hfst : r.1 = name := (congrArg Prod.fst he).symm
      rw [hl.others r fun hd => hshort r hd hfst, Rule.opening_nil] at he
      exact he ▸ hr
    · have hlink : name ∈ done.flatMap links := by
        rw [← hl.map_fst_continuations]
        exact List.mem_map.mpr ⟨(name, p), List.mem_flatMap.mpr ⟨r, hr, hm⟩, rfl⟩
      exact absurd (Or.inl hn) (hl.drawn.not_mentions name hlink)
  · intro hr
    refine Or.inl ⟨(name, p), hr, ?_⟩
    rw [hl.others (name, p) fun hd => hshort _ hd rfl, Rule.opening_nil]

theorem exists_production (hl : Linked start done links u) (hm : name ∈ done.flatMap links) :
    ∃ p, p.length = 2 ∧ u.grammar.productions name = [p] := by
  rw [← hl.map_fst_continuations] at hm
  obtain ⟨⟨_, p⟩, hp, rfl⟩ := List.mem_map.mp hm
  obtain ⟨r, hr, hc⟩ := List.mem_flatMap.mp hp
  refine ⟨p, hl.length_of_mem hr (Or.inr hc), Grammar.productions_eq_singleton fun q => ?_⟩
  rw [← Grammar.mem_rules_iff, hl.mem_rules_iff]
  constructor
  · rintro (⟨r', hr', he⟩ | hq)
    · have hfst := congrArg Prod.fst he
      have hhead : r'.1 ∈ start.grammar.heads :=
        Grammar.mem_heads_of_mem_productions (Grammar.mem_rules_iff.mp hr')
      rw [hl.map_fst_continuations] at hm
      exact absurd (Or.inl hhead) (hfst ▸ hl.drawn.not_mentions _ hm)
    · have hn : ((done.flatMap fun r => r.continuation (links r)).map Prod.fst).Nodup := by
        rw [hl.map_fst_continuations]
        exact hl.drawn.nodup
      have he := List.inj_on_of_nodup_map hn (List.mem_flatMap.mpr hq) hp rfl
      exact congrArg Prod.snd he
  · rintro rfl
    exact Or.inr ⟨r, hr, hc⟩

theorem occurrences_link (hl : Linked start done links u) (hm : name ∈ done.flatMap links) :
    u.grammar.occurrences name = 1 := by
  have hold : start.grammar.symbols.count (.nonterminal name) = 0 := by
    refine List.count_eq_zero.mpr fun hs => ?_
    exact hl.drawn.not_mentions name hm (Grammar.mentions_iff_symbols.mpr (Or.inr hs))
  have hnodup : ((done.flatMap links).map Symbol.nonterminal).Nodup :=
    hl.drawn.nodup.map fun _ _ => Symbol.nonterminal.inj
  rw [Grammar.occurrences, hl.symbols.count_eq, List.count_append, hold,
    List.count_eq_one_of_mem hnodup (List.mem_map_of_mem hm)]

theorem occurrences_of_mentions (hl : Linked start done links u)
    (hn : start.grammar.Mentions name) :
    u.grammar.occurrences name = start.grammar.occurrences name := by
  have hlink : Symbol.nonterminal name ∉ (done.flatMap links).map Symbol.nonterminal := by
    intro hm
    obtain ⟨link, hlink, he⟩ := List.mem_map.mp hm
    obtain rfl := Symbol.nonterminal.inj he
    exact hl.drawn.not_mentions link hlink hn
  rw [Grammar.occurrences, hl.symbols.count_eq, List.count_append, List.count_eq_zero.mpr hlink]
  rfl

end Linked

-- ---------------------------------------------------------------------------
-- The start symbol
-- ---------------------------------------------------------------------------

namespace Grammar

variable {g : Grammar}

theorem heads_trimmed (g : Grammar) : g.trimmed.heads = g.heads := by
  rw [trimmed, heads_unitClosure, heads_withoutEpsilon]

theorem exists_of_mem_productions_trimmed {head : String} (hp : p ∈ g.trimmed.productions head) :
    (∀ target, p ≠ [.nonterminal target]) ∧ p ≠ [] ∧
      ∃ target, ∃ q ∈ g.productions target, p.Sublist q := by
  obtain ⟨hunit, target, _, hp⟩ := mem_productions_unitClosure.mp hp
  obtain ⟨hne, q, hq, hd⟩ := mem_productions_withoutEpsilon.mp hp
  exact ⟨hunit, hne, target, q, hq, hd.sublist⟩

theorem mentions_of_mentions_trimmed (hm : g.trimmed.Mentions name) : g.Mentions name := by
  rw [mentions_iff_symbols, heads_trimmed] at hm
  rcases hm with hm | hm
  · exact Or.inl hm
  · obtain ⟨head, p, hp, hs⟩ := mem_symbols.mp hm
    obtain ⟨-, -, target, q, hq, hsub⟩ := exists_of_mem_productions_trimmed hp
    exact mentions_iff_symbols.mpr (Or.inr (mem_symbols.mpr ⟨target, q, hq, hsub.subset hs⟩))

/-- A new head is not on any right-hand side once the units are gone, not even where it was put
over itself. -/
theorem nonterminal_not_mem_symbols_trimmed {head : String} (hn : ¬ g.Mentions name) :
    .nonterminal name ∉ (g.add name [.nonterminal head]).trimmed.symbols := by
  intro hs
  obtain ⟨_, p, hp, hm⟩ := mem_symbols.mp hs
  obtain ⟨hunit, hne, target, q, hq, hsub⟩ := exists_of_mem_productions_trimmed hp
  rcases mem_productions_add.mp hq with hq | ⟨_, rfl⟩
  · exact not_mem_of_not_mentions hn hq (hsub.subset hm)
  · rcases List.sublist_singleton.mp hsub with rfl | rfl
    · exact hne rfl
    · exact hunit head rfl

end Grammar

-- ---------------------------------------------------------------------------
-- Finished conversions
-- ---------------------------------------------------------------------------

namespace Conversion

variable {input opened : PointedGrammar} {settings : Settings} {names : FreshNames}
variable {c : Conversion}

theorem Opened.heads_eq (ho : Opened input settings opened names) :
    opened.grammar.heads =
      input.grammar.heads ++ if settings.freshStart then [opened.start] else [] := by
  cases ho with
  | kept off => simp [off]
  | renewed on free =>
    simp only [on, if_true]
    rw [Grammar.heads_add]
    exact if_neg (Grammar.not_mem_heads_of_not_mentions free.free)

theorem Opened.issued_eq (ho : Opened input settings opened names) :
    names.issued = if settings.freshStart then [opened.start] else [] := by
  cases ho with
  | kept off => simp [off, Settings.supply, FreshNames.start]
  | renewed on free =>
    simp only [on, if_true]
    rfl

theorem Opened.tallied (ho : Opened input settings opened names) : names.Tallied := by
  have hs : settings.supply.Tallied := FreshNames.tallied_start ..
  cases ho with
  | kept _ => exact hs
  | renewed _ free => exact hs.past free

theorem Opened.occurrences_start (ho : Opened input settings opened names)
    (on : settings.freshStart = true) : opened.grammar.trimmed.occurrences opened.start = 0 := by
  cases ho with
  | kept off => simp [off] at on
  | renewed _ free =>
    exact List.count_eq_zero.mpr (Grammar.nonterminal_not_mem_symbols_trimmed free.free)

theorem Opened.start_mem_heads (ho : Opened input settings opened names)
    (hs : input.start ∈ input.grammar.heads ∨ settings.freshStart = true) :
    opened.start ∈ opened.grammar.heads := by
  cases ho with
  | kept off => exact hs.resolve_right (by simp [off])
  | renewed _ _ => exact Grammar.mem_heads_add.mpr (Or.inr rfl)

section
variable {u v : Workspace} {ws : Wrappers} {links : Rule → List String}
variable (wrapped :
  Wrapped ⟨opened.grammar.trimmed, names⟩ opened.grammar.trimmed.mixedRules [] ws u)
variable (linked : Linked u u.grammar.longRules links v)
include wrapped linked

theorem issued_eq (ho : Opened input settings opened names) : v.names.issued =
    (if settings.freshStart then [opened.start] else []) ++ ws.map Prod.snd ++
      u.grammar.longRules.flatMap links := by
  rw [linked.drawn.issued_eq, wrapped.drawn.issued_eq, ho.issued_eq]

theorem heads_eq (ho : Opened input settings opened names) :
    v.grammar.heads = input.grammar.heads ++ v.names.issued := by
  rw [issued_eq wrapped linked ho, linked.heads, wrapped.heads, Grammar.heads_trimmed, ho.heads_eq]
  simp only [List.append_assoc]

theorem productions_wrapper {pair : String × String} (hm : pair ∈ ws) :
    v.grammar.productions pair.2 = [[.terminal pair.1]] := by
  refine Grammar.productions_eq_singleton fun q => ?_
  rw [linked.mem_productions_iff_of_short (wrapped.wrapper_mem_heads hm)
    (wrapped.fst_ne_wrapper hm), wrapped.mem_productions_iff hm]

theorem occurrences_wrapper_pos {pair : String × String} (hm : pair ∈ ws) :
    0 < v.grammar.occurrences pair.2 := by
  refine List.count_pos_iff.mpr (linked.symbols.mem_iff.mpr ?_)
  exact List.mem_append_left _ (wrapped.wrapper_mem_symbols hm)

theorem occurrences_eq_zero (hh : name ∈ opened.grammar.heads)
    (hz : opened.grammar.trimmed.occurrences name = 0) : v.grammar.occurrences name = 0 := by
  have hhead : name ∈ opened.grammar.trimmed.heads := by rwa [Grammar.heads_trimmed]
  have hu : u.grammar.Mentions name := (wrapped.mentions_iff name).mpr (Or.inl (Or.inl hhead))
  rw [linked.occurrences_of_mentions hu]
  refine List.count_eq_zero.mpr fun hs => ?_
  rcases wrapped.nonterminal_mem_symbols hs with hs | hm
  · exact List.count_eq_zero.mp hz hs
  · exact wrapped.drawn.not_mentions name hm (Or.inl hhead)

end

/-- What a finished conversion has added to the heads, and where it stands. -/
structure Layout (input : PointedGrammar) (settings : Settings) (c : Conversion)
    (wrappers links : List String) : Prop where
  heads : c.grammar.heads = input.grammar.heads ++ c.names.issued
  grown : c.grammar.heads.length = input.grammar.heads.length + c.stats.freshNames.toNat
  issued : c.names.issued =
    (if settings.freshStart then [c.start] else []) ++ wrappers ++ links
  counted : wrappers.length = c.stats.wrappers
  wrapper : ∀ x ∈ wrappers, ∃ t, c.grammar.productions x = [[.terminal t]]
  distinct : ∀ x ∈ wrappers, ∀ y ∈ wrappers,
    c.grammar.productions x = c.grammar.productions y → x = y
  used : ∀ x ∈ wrappers, 0 < c.grammar.occurrences x
  link : ∀ x ∈ links, ∃ l r, c.grammar.productions x = [[.nonterminal l, .nonterminal r]]
  once : ∀ x ∈ links, c.grammar.occurrences x = 1
  start : settings.freshStart = true → c.grammar.occurrences c.start = 0

theorem layout_convert (h : convert (begin input settings) = .ok () c) :
    ∃ wrappers links, Layout input settings c wrappers links := by
  have hnormal := inNormalForm_convert h
  obtain @⟨opened, names, ws, links, u, v, opens, wrapped, linked, grammar_eq, start_eq, names_eq,
    stats_eq⟩ := finished_of_convert h
  have hheads : c.grammar.heads = input.grammar.heads ++ c.names.issued := by
    rw [grammar_eq, names_eq]
    exact heads_eq wrapped linked opens
  have htally : c.stats.freshNames.toNat = c.names.issued.length := by
    rw [stats_eq, names_eq]
    exact (linked.drawn.tallied (wrapped.drawn.tallied opens.tallied)).allocated
  rw [grammar_eq] at hnormal
  refine ⟨ws.map Prod.snd, u.grammar.longRules.flatMap links, ?_⟩
  constructor
  case heads => exact hheads
  case grown => rw [hheads, List.length_append, htally]
  case issued =>
    rw [names_eq, start_eq]
    exact issued_eq wrapped linked opens
  case counted =>
    rw [stats_eq]
    exact List.length_map _
  all_goals simp only [grammar_eq, List.forall_mem_map]
  case wrapper => exact fun pair hm => ⟨pair.1, productions_wrapper wrapped linked hm⟩
  case distinct =>
    intro pair hm other ho he
    rw [productions_wrapper wrapped linked hm, productions_wrapper wrapped linked ho] at he
    have hfst : pair.1 = other.1 := by simpa using he
    rw [List.inj_on_of_nodup_map wrapped.nodup_terminals hm ho hfst]
  case used => exact fun _ => occurrences_wrapper_pos wrapped linked
  case link =>
    intro link hm
    obtain ⟨p, hlen, hp⟩ := linked.exists_production hm
    have hmem : (link, p) ∈ v.grammar.rules := by
      rw [Grammar.mem_rules_iff, hp]
      exact List.mem_cons_self
    cases hnormal (link, p) hmem with
    | terminal t => simp at hlen
    | binary l r => exact ⟨l, r, hp⟩
  case once => exact fun _ => linked.occurrences_link
  case start =>
    intro on
    rw [start_eq]
    exact occurrences_eq_zero wrapped linked (opens.start_mem_heads (Or.inr on))
      (opens.occurrences_start on)

/-- One wrapper, for the `a` of `S → aB`, and three links, since `ASA` is now a production of
three heads. -/
theorem layout_convert_textbook :
    convert (begin .textbook .standard) =
      .ok () ((begin .textbook .standard).afterAll Settings.standard.stages) ∧
    ((begin .textbook .standard).afterAll Settings.standard.stages).grammar.heads =
      ["S", "A", "B", "X0", "X1", "X2", "X3", "X4"] ∧
    ∃ wrappers links, Layout .textbook .standard
      ((begin .textbook .standard).afterAll Settings.standard.stages) wrappers links := by
  have hconvert : convert (begin .textbook .standard) =
      .ok () ((begin .textbook .standard).afterAll Settings.standard.stages) :=
    convert_eq_ok_iff.mpr ⟨rfl, by decide +kernel⟩
  exact ⟨hconvert, by decide +kernel, layout_convert hconvert⟩

end Conversion

end ContextFree
