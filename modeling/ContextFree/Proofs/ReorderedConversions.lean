import ContextFree.Proofs.ConvertedLayout
import ContextFree.Proofs.Renaming
import ContextFree.Proofs.RuleOrder

/-!
# Conversions of reordered grammars

Two grammars with the same rules in another order are converted alike
(`reordered_convert`). They draw the same names, since what is drawn depends on
the names that are mentioned and on the number of names needed only
(`Workspace.Level`). But a name may be drawn for another terminal or for
another rule, so the results are the same after a renaming: it takes the
wrapper of each terminal to the wrapper of that terminal, and the links of each
rule to the links of what has become of that rule.
-/

namespace ContextFree

open FreshNames (Drawn Short)
open scoped List

variable {g h : Grammar} {names last last' : FreshNames}
variable {drawn others : List String}

-- ---------------------------------------------------------------------------
-- The names that are drawn
-- ---------------------------------------------------------------------------

/-- Two workspaces that hand out the same names. -/
structure Workspace.Level (s t : Workspace) : Prop where
  names : s.names = t.names
  mentions : ∀ name, s.grammar.Mentions name ↔ t.grammar.Mentions name

namespace Workspace.Level

variable {s t : Workspace}

theorem of_same (hs : g.Same h) (names : FreshNames) : Level ⟨g, names⟩ ⟨h, names⟩ :=
  ⟨rfl, fun _ => hs.mentions_iff⟩

theorem draws (hl : s.Level t) (hd : Drawn s.grammar s.names drawn last) :
    Drawn t.grammar t.names drawn last :=
  hl.names ▸ hd.congr hl.mentions

theorem drawn_eq (hl : s.Level t) (hs : Drawn s.grammar s.names drawn last)
    (ht : Drawn t.grammar t.names others last') (hlen : drawn.length = others.length) :
    drawn = others ∧ last = last' :=
  (hl.draws hs).eq_of_length ht hlen

theorem not_short (hl : s.Level t) (hs : Drawn s.grammar s.names drawn last) :
    ¬ Short t.grammar t.names drawn.length others last' :=
  fun hshort => hshort.not_drawn (hl.draws hs)

end Workspace.Level

-- ---------------------------------------------------------------------------
-- Wrapping
-- ---------------------------------------------------------------------------

namespace Wrapped

variable {s t u v : Workspace} {ws vs : Wrappers} {π : Equiv.Perm String}

section
variable (hw : Wrapped s s.grammar.mixedRules [] ws u)
include hw

theorem longRules_eq : u.grammar.longRules = s.grammar.longRules.map (Rule.wrapped ws.nameOf) := by
  have hnone : (ws.map Wrappers.ruleOf).filter (2 < ·.2.length) = [] := by
    refine List.filter_eq_nil_iff.mpr fun rule hm => ?_
    obtain ⟨_, _, rfl⟩ := List.mem_map.mp hm
    simp [Wrappers.ruleOf]
  unfold Grammar.longRules
  rw [hw.rules_eq, List.filter_append, hnone, List.append_nil, List.filter_map]
  congr 1
  exact List.filter_congr fun rule _ => by simp

theorem linksNeeded_eq : u.grammar.linksNeeded = s.grammar.linksNeeded := by
  unfold Grammar.linksNeeded
  rw [hw.longRules_eq, List.map_map]
  congr 1
  exact List.map_congr_left fun rule _ => by simp

end

variable (hs : s.grammar.Same t.grammar)
variable (hw : Wrapped s s.grammar.mixedRules [] ws u)
variable (hv : Wrapped t t.grammar.mixedRules [] vs v)
include hs hw hv

theorem names_eq (hl : s.Level t) : ws.map Prod.snd = vs.map Prod.snd ∧ u.names = v.names :=
  hl.drawn_eq hw.drawn hv.drawn (by rw [hw.length_names, hv.length_names, hs.wrappersNeeded_eq])

theorem level (hl : s.Level t) : u.Level v := by
  obtain ⟨hnames, hlast⟩ := names_eq hs hw hv hl
  refine ⟨hlast, fun name => ?_⟩
  rw [hw.mentions_iff, hv.mentions_iff, hl.mentions, hnames]

theorem terminals_perm : ws.map Prod.fst ~ vs.map Prod.fst := by
  rw [hw.terminals, hv.terminals, List.append_nil, List.append_nil]
  refine OrderedSet.toList_perm fun t => ?_
  rw [OrderedSet.mem_ofList, OrderedSet.mem_ofList]
  exact hs.mixedTerminals_perm.mem_iff

theorem same_rename (hfix : ∀ name, s.grammar.Mentions name → π name = name)
    (hmove : ∀ t ∈ ws.map Prod.fst, π (ws.nameOf t) = vs.nameOf t) :
    (u.grammar.rename π).Same v.grammar := by
  have hperm := terminals_perm hs hw hv
  have hold : s.grammar.rename π = s.grammar := Grammar.rename_eq_self hfix
  refine Grammar.same_of_perm ?_ ?_
  · rw [hw.heads_rename hmove, hold, hv.heads, ← Wrappers.map_nameOf hv.nodup_terminals]
    exact hs.heads_perm.append (hperm.map _)
  · rw [hw.rules_rename hmove, hold, hv.rules_eq, Wrappers.map_ruleOf hv.nodup_terminals]
    exact (hs.rules_perm.map _).append (hperm.map _)

end Wrapped

-- ---------------------------------------------------------------------------
-- Chaining
-- ---------------------------------------------------------------------------

namespace Linked

variable {s t u v : Workspace} {links links' : Rule → List String} {π : Equiv.Perm String}
variable (hu : Linked s s.grammar.longRules links u)
variable (hv : Linked t t.grammar.longRules links' v)
include hu hv

theorem names_eq (hl : s.Level t) (hneed : s.grammar.linksNeeded = t.grammar.linksNeeded) :
    s.grammar.longRules.flatMap links = t.grammar.longRules.flatMap links' ∧
      u.names = v.names := by
  refine hl.drawn_eq hu.drawn hv.drawn ?_
  rw [hu.length_links, hv.length_links]
  exact hneed

theorem same_rename (hs : (s.grammar.rename π).Same t.grammar)
    (hmove : ∀ r ∈ s.grammar.longRules, (links r).map π = links' (r.rename π)) :
    (u.grammar.rename π).Same v.grammar := by
  have hothers : ∀ r ∉ (s.grammar.rename π).longRules, links' r = [] :=
    fun r hr => hv.others r fun hm => hr (hs.longRules_perm.mem_iff.mpr hm)
  refine Grammar.same_of_perm ?_ ?_
  · rw [hu.heads_rename hmove, hv.heads]
    exact hs.heads_perm.append (hs.longRules_perm.flatMap_right _)
  · rw [hu.rules_rename hmove hothers, hv.rules]
    exact (hs.rules_perm.map _).append (hs.longRules_perm.flatMap_right _)

end Linked

-- ---------------------------------------------------------------------------
-- The renaming
-- ---------------------------------------------------------------------------

theorem forall_eq_of_flatMap_eq {α β : Type} {f f' : α → List β} {xs : List α}
    (hl : ∀ a ∈ xs, (f a).length = (f' a).length) (he : xs.flatMap f = xs.flatMap f') :
    ∀ a ∈ xs, f a = f' a := by
  induction xs with
  | nil => simp
  | cons a xs ih =>
    rw [List.flatMap_cons, List.flatMap_cons] at he
    obtain ⟨ha, hxs⟩ := List.append_inj he (hl a List.mem_cons_self)
    refine List.forall_mem_cons.mpr ⟨ha, ih (fun b hb => hl b ?_) hxs⟩
    exact List.mem_cons_of_mem _ hb

section
variable {s t u u' v v' : Workspace} {ws vs : Wrappers} {links links' : Rule → List String}
variable (hs : s.grammar.Same t.grammar) (hl : s.Level t)
variable (hw : Wrapped s s.grammar.mixedRules [] ws u)
variable (hw' : Wrapped t t.grammar.mixedRules [] vs u')
variable (hk : Linked u u.grammar.longRules links v)
variable (hk' : Linked u' u'.grammar.longRules links' v')

include hw hk in
theorem drawn_wrapped_linked :
    Drawn s.grammar s.names (ws.map Prod.snd ++ u.grammar.longRules.flatMap links) v.names :=
  hw.drawn.extend hw.mentions_iff hk.drawn

include hs hl hw hw' hk hk' in
theorem names_wrapped_linked : ws.map Prod.snd = vs.map Prod.snd ∧
    u.grammar.longRules.flatMap links = u'.grammar.longRules.flatMap links' ∧
    v.names = v'.names := by
  have hneed : u.grammar.linksNeeded = u'.grammar.linksNeeded := by
    rw [hw.linksNeeded_eq, hw'.linksNeeded_eq, hs.linksNeeded_eq]
  exact ⟨(Wrapped.names_eq hs hw hw' hl).1,
    Linked.names_eq hk hk' (Wrapped.level hs hw hw' hl) hneed⟩

include hw in
theorem flatMap_links : u.grammar.longRules.flatMap links =
    s.grammar.longRules.flatMap fun r => links (r.wrapped ws.nameOf) := by
  rw [hw.longRules_eq, List.flatMap_map]

include hw hk in
theorem length_links_wrapped {r : Rule} (hr : r ∈ s.grammar.longRules) :
    (links (r.wrapped ws.nameOf)).length + 2 = r.2.length := by
  have hm : r.wrapped ws.nameOf ∈ u.grammar.longRules :=
    hw.longRules_eq ▸ List.mem_map_of_mem hr
  rw [← hk.length _ hm, Rule.length_wrapped]

include hs hl hw hw' hk hk' in
theorem exists_renaming : ∃ π : Equiv.Perm String,
    (∀ name ∉ ws.map Prod.snd ++ u.grammar.longRules.flatMap links, π name = name) ∧
      (v.grammar.rename π).Same v'.grammar := by
  have hdrawn := drawn_wrapped_linked hw hk
  obtain ⟨hnames, hlinks, -⟩ := names_wrapped_linked hs hl hw hw' hk hk'
  -- The names of the first run, and beside each the one that the second run has in its place.
  have hperm : ws.map Prod.snd ++ u.grammar.longRules.flatMap links ~
      (ws.map Prod.fst).map vs.nameOf ++
        s.grammar.longRules.flatMap fun r => links' (r.wrapped vs.nameOf) := by
    rw [hnames, hlinks, flatMap_links hw', ← Wrappers.map_nameOf hw'.nodup_terminals]
    exact ((Wrapped.terminals_perm hs hw hw').symm.map _).append
      (hs.longRules_perm.symm.flatMap_right _)
  obtain ⟨π, hmap, hmoved⟩ :=
    exists_perm_map_eq hdrawn.nodup (hperm.nodup_iff.mp hdrawn.nodup) hperm.length_eq
  have hfix : ∀ name ∉ ws.map Prod.snd ++ u.grammar.longRules.flatMap links, π name = name :=
    fun name hn => hmoved name hn (hperm.mem_iff.not.mp hn)
  have hold : ∀ name, s.grammar.Mentions name → π name = name :=
    fun name hm => hfix name fun hd => hdrawn.not_mentions name hd hm
  rw [List.map_append, ← Wrappers.map_nameOf hw.nodup_terminals, List.map_map, flatMap_links hw,
    List.map_flatMap] at hmap
  obtain ⟨hwrappers, hchains⟩ := List.append_inj hmap (by simp only [List.length_map])
  have hwrapper : ∀ t ∈ ws.map Prod.fst, π (ws.nameOf t) = vs.nameOf t :=
    List.map_inj_left.mp hwrappers
  have hlink : ∀ r ∈ s.grammar.longRules,
      (links (r.wrapped ws.nameOf)).map π = links' (r.wrapped vs.nameOf) := by
    refine forall_eq_of_flatMap_eq (fun r hr => ?_) hchains
    have h₁ := length_links_wrapped hw hk hr
    have h₂ := length_links_wrapped hw' hk' (hs.longRules_perm.mem_iff.mp hr)
    rw [List.length_map]
    omega
  refine ⟨π, hfix, Linked.same_rename hk hk'
    (Wrapped.same_rename hs hw hw' hold hwrapper) fun r hr => ?_⟩
  rw [hw.longRules_eq] at hr
  obtain ⟨old, ho, rfl⟩ := List.mem_map.mp hr
  have hrule : old ∈ s.grammar.rules := (List.mem_filter.mp ho).1
  rw [hw.rename_wrapped hwrapper hrule, Grammar.rename_rule_eq_self hold hrule]
  exact hlink old ho

end

-- ---------------------------------------------------------------------------
-- Conversions
-- ---------------------------------------------------------------------------

namespace Conversion

variable {start : String} {settings : Settings} {opened opened' : PointedGrammar}
variable {names' : FreshNames} {c d : Conversion}

theorem Opened.same (hs : g.Same h) (ho : Opened ⟨g, start⟩ settings opened names)
    (ho' : Opened ⟨h, start⟩ settings opened' names') :
    opened.grammar.Same opened'.grammar ∧ opened.start = opened'.start ∧ names = names' := by
  cases ho with
  | kept off =>
    cases ho' with
    | kept _ => exact ⟨hs, rfl, rfl⟩
    | renewed on _ => simp [off] at on
  | renewed on free =>
    cases ho' with
    | kept off => simp [on] at off
    | renewed _ free' =>
      obtain rfl := ((FreshNames.FirstFree.congr fun _ _ => hs.mentions_iff).mp free).unique free'
      exact ⟨hs.add _ _, rfl, rfl⟩

/-- What goes well in one order goes well in the other: as many names are needed, and the same
ones are free. -/
theorem Finished.not_failed (hs : g.Same h) (hf : Finished ⟨g, start⟩ settings c) :
    ¬ Failed ⟨h, start⟩ settings := by
  obtain ⟨opens, wrapped, linked, -, -, -, -⟩ := hf
  intro hfailed
  cases hfailed with
  | start on dry =>
    cases opens with
    | kept off => simp [on] at off
    | renewed _ free =>
      exact ((FreshNames.FirstFree.congr fun _ _ => hs.mentions_iff).mp free).not_dry dry
  | wrapper opens' short =>
    obtain ⟨hsame, -, rfl⟩ := opens.same hs opens'
    have hlen := wrapped.length_names.trans hsame.trimmed.wrappersNeeded_eq
    exact (Workspace.Level.of_same hsame.trimmed _).not_short wrapped.drawn (hlen ▸ short)
  | link opens' wrapped' short =>
    obtain ⟨hsame, -, rfl⟩ := opens.same hs opens'
    have hlevel := Wrapped.level hsame.trimmed wrapped wrapped' (.of_same hsame.trimmed _)
    have hlen := linked.length_links.trans (wrapped.linksNeeded_eq.trans
      (hsame.trimmed.linksNeeded_eq.trans wrapped'.linksNeeded_eq.symm))
    exact hlevel.not_short linked.drawn (hlen ▸ short)

theorem exists_convert_of_same (hs : g.Same h)
    (hc : ∃ c, convert (begin ⟨g, start⟩ settings) = .ok () c) :
    ∃ d, convert (begin ⟨h, start⟩ settings) = .ok () d := by
  obtain ⟨c, hc⟩ := hc
  obtain ⟨d, hd, -⟩ | ⟨_, _, _, hfailed⟩ := convert_cases ⟨h, start⟩ settings
  · exact ⟨d, hd⟩
  · exact absurd hfailed ((finished_of_convert hc).not_failed hs)

/-- The order of heads and productions decides only for which terminal and which rule a name is
drawn. -/
theorem reordered_convert (hs : g.Same h) (hstart : start ∈ g.heads) :
    ((∃ c, convert (begin ⟨g, start⟩ settings) = .ok () c) ↔
      ∃ d, convert (begin ⟨h, start⟩ settings) = .ok () d) ∧
    ∀ c d, convert (begin ⟨g, start⟩ settings) = .ok () c →
      convert (begin ⟨h, start⟩ settings) = .ok () d →
      c.names.issued = d.names.issued ∧ c.start = d.start ∧ c.stats = d.stats ∧
      ∃ π : Equiv.Perm String, (∀ name ∉ c.names.issued, π name = name) ∧ π c.start = c.start ∧
        (c.grammar.rename π).Same d.grammar := by
  refine ⟨⟨exists_convert_of_same hs, exists_convert_of_same hs.symm⟩, fun c d hc hd => ?_⟩
  obtain @⟨opened, names, ws, links, u, v, opens, hw, hk, grammar_eq, start_eq, names_eq,
    stats_eq⟩ := finished_of_convert hc
  obtain @⟨opened', names', vs, links', u', v', opens', hw', hk', grammar_eq', start_eq', names_eq',
    stats_eq'⟩ := finished_of_convert hd
  obtain ⟨hsame, hstarts, rfl⟩ := opens.same hs opens'
  have hlevel := Workspace.Level.of_same hsame.trimmed names
  have hdrawn := drawn_wrapped_linked hw hk
  obtain ⟨hwrappers, -, hnames⟩ := names_wrapped_linked hsame.trimmed hlevel hw hw' hk hk'
  obtain ⟨π, hfix, hrename⟩ := exists_renaming hsame.trimmed hlevel hw hw' hk hk'
  refine ⟨?_, ?_, ?_, π, fun name hn => hfix name fun hm => hn ?_, hfix _ fun hm => ?_, ?_⟩
  · rw [names_eq, names_eq', hnames]
  · rw [start_eq, start_eq', hstarts]
  · have hunits := hsame.withoutEpsilon.alike
    have hcount : ws.length = vs.length := by simpa using congrArg List.length hwrappers
    have hchained : u.grammar.longRules.length = u'.grammar.longRules.length := by
      rw [hw.longRules_eq, hw'.longRules_eq, List.length_map, List.length_map]
      exact hsame.trimmed.longRules_perm.length_eq
    rw [stats_eq, stats_eq', hunits.passes, hunits.removed, hcount, hchained, hnames, hstarts,
      OrderedSet.size_congr fun _ => hsame.mem_nullable_iff,
      decide_eq_decide.mpr hsame.mem_nullable_iff]
  · rw [names_eq, hdrawn.issued_eq]
    exact List.mem_append_right _ hm
  · rw [start_eq] at hm
    refine hdrawn.not_mentions _ hm (Or.inl ?_)
    rw [Grammar.heads_trimmed]
    exact opens.start_mem_heads (Or.inl hstart)
  · rw [grammar_eq, grammar_eq']
    exact hrename

/-- Two productions in one of two orders. -/
def either (first second : String) : PointedGrammar :=
  ⟨.ofRules [("S", .compact first), ("S", .compact second)], "S"⟩

/-- The wrappers of `a` and `b` change places. -/
theorem reordered_convert_either :
    (either "ab" "ba").grammar.Same (either "ba" "ab").grammar ∧
    "S" ∈ (either "ab" "ba").grammar.heads ∧
    ∃ c d, convert (begin (either "ab" "ba") .standard) = .ok () c ∧
      convert (begin (either "ba" "ab") .standard) = .ok () d ∧
      ¬ c.grammar.Same d.grammar ∧ c.names.issued = d.names.issued ∧
      ∃ π : Equiv.Perm String, π c.start = c.start ∧ (c.grammar.rename π).Same d.grammar := by
  have hs : (either "ab" "ba").grammar.Same (either "ba" "ab").grammar := by decide +kernel
  have hstart : "S" ∈ (either "ab" "ba").grammar.heads := by decide +kernel
  have hc : convert (begin (either "ab" "ba") .standard) =
      .ok () ((begin (either "ab" "ba") .standard).afterAll Settings.standard.stages) :=
    convert_eq_ok_iff.mpr ⟨rfl, by decide +kernel⟩
  have hd : convert (begin (either "ba" "ab") .standard) =
      .ok () ((begin (either "ba" "ab") .standard).afterAll Settings.standard.stages) :=
    convert_eq_ok_iff.mpr ⟨rfl, by decide +kernel⟩
  obtain ⟨hnames, -, -, π, -, hπ, hsame⟩ := (reordered_convert hs hstart).2 _ _ hc hd
  exact ⟨hs, hstart, _, _, hc, hd, by decide +kernel, hnames, π, hπ, hsame⟩

end Conversion

end ContextFree
