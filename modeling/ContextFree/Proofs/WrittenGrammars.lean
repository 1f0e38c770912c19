import ContextFree.Notation.Writer
import ContextFree.Proofs.Readings
import Mathlib.Data.List.TakeWhile

/-!
# Reading what has been written

A written grammar is read back if nothing in it can be taken for something else:
`Writable` asks that of the names, of the kinds of the symbols, and of the
productions that are written without gaps. A name must not hold a blank or a
mark; a symbol must be what a reader makes of its name; a name of several
characters that stands alone must be a head, since it would be read character by
character otherwise; and characters without gaps must not spell a head.

Line by line the text is cut into the heads and the written productions
(`ruleOn_lineChars`), and with the heads known each production is read as what
it was (`reading_chars`). What comes back has the productions of every head in
their order, and the heads sorted (`readText_text`).
-/

namespace ContextFree.Notation

open Text

variable {g : Grammar} {head name : String} {heads : List String} {p : Production}
  {ps : List Production} {s : Symbol} {c : Char}

-- ---------------------------------------------------------------------------
-- What can be written
-- ---------------------------------------------------------------------------

/-- What a line is cut at: comments, bars, and both arrows by the character they end in. -/
def marks : List Char := ['#', '|', '→', '>']

structure IsPlain (name : String) : Prop where
  word : IsWord name.toList
  notEpsilon : name ≠ "ε"
  unmarked : ∀ c ∈ name.toList, c ∉ marks

/-- The reader has no other reading for the written production. -/
structure Legible (heads : List String) (p : Production) : Prop where
  plain : ∀ s ∈ p, IsPlain s.name
  kind : ∀ s ∈ p, s.isNonterminal = true ↔ NamesNonterminal heads s.name
  alone : p.length = 1 → ∀ s ∈ p, s.name.toList.length = 1 ∨ s.name ∈ heads
  unspelled : 2 ≤ p.length → p.Compact → String.ofList (p.flatMap (·.name.toList)) ∉ heads

structure Writable (g : Grammar) : Prop where
  nonempty : g.heads ≠ []
  productive : ∀ head ∈ g.heads, g.productions head ≠ []
  plain : ∀ head ∈ g.heads, IsPlain head
  legible : ∀ rule ∈ g.rules, Legible g.heads rule.2

instance (name : String) : Decidable (IsPlain name) :=
  have : Decidable (IsWord name.toList) :=
    @instDecidableAnd _ _ inferInstance (List.decidableBAll _ _)
  have : Decidable (∀ c ∈ name.toList, c ∉ marks) := List.decidableBAll _ _
  decidable_of_iff (IsWord name.toList ∧ name ≠ "ε" ∧ ∀ c ∈ name.toList, c ∉ marks)
    ⟨fun h => ⟨h.1, h.2.1, h.2.2⟩, fun h => ⟨h.1, h.2, h.3⟩⟩

instance (heads : List String) (p : Production) : Decidable (Legible heads p) :=
  decidable_of_iff ((∀ s ∈ p, IsPlain s.name) ∧
      (∀ s ∈ p, s.isNonterminal = true ↔ NamesNonterminal heads s.name) ∧
      (p.length = 1 → ∀ s ∈ p, s.name.toList.length = 1 ∨ s.name ∈ heads) ∧
      (2 ≤ p.length → p.Compact → String.ofList (p.flatMap (·.name.toList)) ∉ heads))
    ⟨fun h => ⟨h.1, h.2.1, h.2.2.1, h.2.2.2⟩, fun h => ⟨h.1, h.2, h.3, h.4⟩⟩

instance (g : Grammar) : Decidable (Writable g) :=
  decidable_of_iff (g.heads ≠ [] ∧ (∀ head ∈ g.heads, g.productions head ≠ []) ∧
      (∀ head ∈ g.heads, IsPlain head) ∧ ∀ rule ∈ g.rules, Legible g.heads rule.2)
    ⟨fun h => ⟨h.1, h.2.1, h.2.2.1, h.2.2.2⟩, fun h => ⟨h.1, h.2, h.3, h.4⟩⟩

theorem Legible.inOrder (h : Legible heads p) : Legible (inOrder heads) p where
  plain := h.plain
  kind := by simpa [NamesNonterminal] using h.kind
  alone := by simpa using h.alone
  unspelled := by simpa using h.unspelled

theorem ne_epsilon_of_isPlain (h : IsPlain name) : name.toList ≠ ['ε'] := fun he =>
  h.notEpsilon (String.toList_inj.mp he)

-- ---------------------------------------------------------------------------
-- Reading a written production
-- ---------------------------------------------------------------------------

theorem namesIn_of_mem (h : name ∈ heads) : namesIn heads name.toList = [name.toList] := by
  rw [namesIn, String.ofList_toList, if_pos h]

theorem map_filter_flatten {parts : List (List Char)}
    (h : ∀ part ∈ parts, ∃ c, part = [c] ∧ c ≠ 'ε') :
    (parts.flatten.filter (· != 'ε')).map (fun c => [c]) = parts := by
  induction parts with
  | nil => rfl
  | cons part parts ih =>
    obtain ⟨⟨c, rfl, hc⟩, hparts⟩ := List.forall_mem_cons.mp h
    rw [List.flatten_cons, List.filter_append, List.map_append, ih hparts]
    simp [hc]

section
variable (hheads : ∀ head ∈ heads, IsPlain head) (h : Legible heads p)
include h

theorem Legible.isWord : ∀ part ∈ p.map (·.name.toList), IsWord part := by
  intro part hm
  obtain ⟨s, hs, rfl⟩ := List.mem_map.mp hm
  exact (h.plain s hs).word

theorem Legible.no_blank : ∀ c ∈ p.flatMap (·.name.toList), isBlank c = false := by
  intro c hc
  obtain ⟨s, hs, hc⟩ := List.mem_flatMap.mp hc
  exact (h.plain s hs).word.2 c hc

theorem namesIn_compact (hcompact : p.Compact)
    (hspelled : String.ofList (p.flatMap (·.name.toList)) ∉ heads) :
    namesIn heads (p.flatMap (·.name.toList)) = p.map (·.name.toList) := by
  have hblank : ¬ (p.flatMap (·.name.toList)).any isBlank = true := by
    intro hany
    obtain ⟨c, hc, hb⟩ := List.any_eq_true.mp hany
    exact Bool.false_ne_true ((h.no_blank c hc).symm.trans hb)
  rw [namesIn, if_neg hspelled, if_neg hblank, List.flatMap_def, map_filter_flatten]
  intro part hm
  obtain ⟨s, hs, rfl⟩ := List.mem_map.mp hm
  obtain ⟨c, hc⟩ := List.length_eq_one_iff.mp (hcompact s hs)
  exact ⟨c, hc, fun he => ne_epsilon_of_isPlain (h.plain s hs) (he ▸ hc)⟩

include hheads

theorem namesIn_spaced (hlong : 2 ≤ p.length) :
    namesIn heads ([' '].intercalate (p.map (·.name.toList))) = p.map (·.name.toList) := by
  have hgap : ' ' ∈ [' '].intercalate (p.map (·.name.toList)) := by
    match p, hlong with
    | _ :: _ :: _, _ =>
      rw [List.map_cons, List.map_cons, List.intercalate_cons_cons]
      simp
  have hblank : isBlank ' ' = true := by decide
  have hhead : String.ofList ([' '].intercalate (p.map (·.name.toList))) ∉ heads := fun hm => by
    have hword := (hheads _ hm).word.2 ' ' (by rwa [String.toList_ofList])
    exact Bool.false_ne_true (hword.symm.trans hblank)
  have hkept : ∀ part ∈ p.map (·.name.toList), (part != ['ε']) = true := by
    intro part hm
    obtain ⟨s, hs, rfl⟩ := List.mem_map.mp hm
    simpa using ne_epsilon_of_isPlain (h.plain s hs)
  rw [namesIn, if_neg hhead, if_pos (List.any_eq_true.mpr ⟨' ', hgap, hblank⟩),
    words_intercalate h.isWord, List.filter_eq_self.mpr hkept]

-- A symbol alone has no gap that would tell how it is written: its name is read as a whole if it
-- is a head, and else it has one character only.
theorem namesIn_chars : namesIn heads p.chars = p.map (·.name.toList) := by
  match p with
  | [] =>
    have hepsilon : String.ofList ['ε'] ∉ heads := fun hm => (hheads _ hm).notEpsilon rfl
    rw [Production.chars, if_pos rfl, namesIn, if_neg hepsilon]
    decide
  | [s] =>
    have hchars : Production.chars [s] = s.name.toList := by simp [Production.chars]
    rw [hchars]
    by_cases hm : s.name ∈ heads
    · exact namesIn_of_mem hm
    · have hone := (h.alone rfl s (by simp)).resolve_right hm
      have hcompact : Production.Compact [s] := by simpa [Production.Compact] using hone
      simpa using namesIn_compact h hcompact (by simpa using hm)
  | s :: t :: rest =>
    rw [Production.chars, if_neg (List.cons_ne_nil _ _)]
    split
    · rename_i hcompact
      exact namesIn_compact h hcompact (h.unspelled (by simp) hcompact)
    · exact namesIn_spaced hheads h (by simp)

theorem reading_chars : reading heads p.chars = p := by
  rw [reading, namesIn_chars hheads h, List.map_map]
  refine (List.map_congr_left fun s hs => ?_).trans (List.map_id p)
  exact (congrArg (symbolNamed heads) String.ofList_toList).trans (symbolNamed_name (h.kind s hs))

end

-- ---------------------------------------------------------------------------
-- Reading a written line
-- ---------------------------------------------------------------------------

/-- A character inside the parts of a line: no mark, and of the blanks the space only. -/
def IsInner (c : Char) : Prop := c ∉ marks ∧ (isBlank c = true → c = ' ')

instance (c : Char) : Decidable (IsInner c) := by
  unfold IsInner
  infer_instance

def bodyChars (ps : List Production) : List Char :=
  [' ', '|'].intercalate ((ps.map Production.chars).map (' ' :: ·))

theorem mem_intercalate {separator : List Char} {parts : List (List Char)}
    (h : c ∈ separator.intercalate parts) : c ∈ separator ∨ ∃ part ∈ parts, c ∈ part := by
  induction parts with
  | nil => simp at h
  | cons part parts ih =>
    cases parts with
    | nil =>
      rw [List.intercalate_singleton] at h
      exact Or.inr ⟨part, by simp, h⟩
    | cons second rest =>
      rw [List.intercalate_cons_cons, List.append_assoc, List.mem_append, List.mem_append] at h
      rcases h with h | h | h
      · exact Or.inr ⟨part, by simp, h⟩
      · exact Or.inl h
      · exact (ih h).imp_right fun ⟨other, ho, hc⟩ => ⟨other, List.mem_cons_of_mem _ ho, hc⟩

theorem IsPlain.isInner (h : IsPlain name) (hc : c ∈ name.toList) : IsInner c :=
  ⟨h.unmarked c hc, fun hb => absurd hb (by simp [h.word.2 c hc])⟩

theorem Legible.isInner (h : Legible heads p) (hc : c ∈ p.chars) : IsInner c := by
  have hname : ∀ s ∈ p, c ∈ s.name.toList → IsInner c := fun s hs => (h.plain s hs).isInner
  unfold Production.chars at hc
  split at hc
  · obtain rfl := List.mem_singleton.mp hc
    exact ⟨by decide, by decide⟩
  split at hc
  · obtain ⟨s, hs, hc⟩ := List.mem_flatMap.mp hc
    exact hname s hs hc
  · rcases mem_intercalate hc with hc | ⟨part, hm, hc⟩
    · obtain rfl := List.mem_singleton.mp hc
      exact ⟨by decide, fun _ => rfl⟩
    · obtain ⟨s, hs, rfl⟩ := List.mem_map.mp hm
      exact hname s hs hc

theorem Legible.trimmed (h : Legible heads p) : p.chars ≠ [] ∧ Trimmed p.chars := by
  unfold Production.chars
  split
  · exact ⟨by simp, trimmed_of_no_blank (List.forall_mem_singleton.mpr (by decide))⟩
  rename_i hne
  split
  · refine ⟨?_, trimmed_of_no_blank h.no_blank⟩
    obtain ⟨s, rest, rfl⟩ := List.exists_cons_of_ne_nil hne
    have hword := (h.plain s List.mem_cons_self).word.1
    simp [hword]
  · exact trimmed_intercalate (by simpa using hne) h.isWord

theorem isBlank_of_mem_space : ∀ c ∈ [' '], isBlank c = true :=
  List.forall_mem_singleton.mpr (by decide)

theorem map_trim_splitOn {parts : List (List Char)} (hne : parts ≠ [])
    (h : ∀ part ∈ parts, '|' ∉ part ∧ part ≠ [] ∧ Trimmed part) :
    (([' ', '|'].intercalate (parts.map (' ' :: ·))).splitOn '|').map trim = parts := by
  induction parts with
  | nil => contradiction
  | cons part parts ih =>
    obtain ⟨⟨hbar, hpart, htrimmed⟩, hparts⟩ := List.forall_mem_cons.mp h
    cases parts with
    | nil =>
      have hlast : trim (' ' :: part) = part := by
        simpa using trim_pad htrimmed hpart isBlank_of_mem_space (List.forall_mem_nil _)
      rw [List.map_singleton, List.intercalate_singleton,
        List.splitOn_eq_singleton (by simp [hbar]), List.map_singleton, hlast]
    | cons second rest =>
      have hfirst : trim (' ' :: part ++ [' ']) = part :=
        trim_pad htrimmed hpart isBlank_of_mem_space isBlank_of_mem_space
      have hcut : '|' ∉ ' ' :: part ++ [' '] := by simp [hbar]
      have htext : ' ' :: part ++ [' ', '|'] ++ [' ', '|'].intercalate
          ((second :: rest).map (' ' :: ·)) = (' ' :: part ++ [' ']) ++ '|' ::
            [' ', '|'].intercalate ((second :: rest).map (' ' :: ·)) := by simp
      rw [List.map_cons, List.map_cons, List.intercalate_cons_cons, ← List.map_cons, htext,
        List.splitOn_append_cons_self_of_not_mem hcut, List.map_cons, hfirst,
        ih (List.cons_ne_nil _ _) hparts]

section
variable (hhead : IsPlain head) (hps : ∀ p ∈ ps, Legible heads p)

theorem lineChars_eq : Grammar.lineChars head ps =
    (head.toList ++ [' ']) ++ '-' :: '>' :: bodyChars ps := by
  simp [Grammar.lineChars, bodyChars, List.map_map, Function.comp_def]

include hps

theorem mem_bodyChars (hc : c ∈ bodyChars ps) : c = '|' ∨ IsInner c := by
  have hspace : IsInner ' ' := by decide
  rcases mem_intercalate hc with hc | ⟨part, hm, hc⟩
  · simp only [List.mem_cons, List.not_mem_nil, or_false] at hc
    rcases hc with rfl | rfl
    · exact Or.inr hspace
    · exact Or.inl rfl
  · rw [List.map_map] at hm
    obtain ⟨p, hp, rfl⟩ := List.mem_map.mp hm
    rcases List.mem_cons.mp hc with rfl | hc
    · exact Or.inr hspace
    · exact Or.inr ((hps p hp).isInner hc)

include hhead

theorem mem_lineChars (hc : c ∈ Grammar.lineChars head ps) :
    c ∈ ['-', '>', '|'] ∨ IsInner c := by
  rw [lineChars_eq] at hc
  simp only [List.mem_append, List.mem_cons, List.not_mem_nil, or_false] at hc
  rcases hc with (hc | rfl) | rfl | rfl | hc
  · exact Or.inr (hhead.isInner hc)
  · exact Or.inr (by decide)
  · exact Or.inl (by decide)
  · exact Or.inl (by decide)
  · rcases mem_bodyChars hps hc with rfl | hc
    · exact Or.inl (by decide)
    · exact Or.inr hc

theorem not_mem_lineChars (hmark : c ∉ ['-', '>', '|']) (hinner : ¬ IsInner c) :
    c ∉ Grammar.lineChars head ps :=
  fun hc => (mem_lineChars hhead hps hc).elim hmark hinner

theorem withoutComment_lineChars :
    withoutComment (Grammar.lineChars head ps) = Grammar.lineChars head ps := by
  have hnone := not_mem_lineChars (c := '#') hhead hps (by decide) (by decide)
  refine List.takeWhile_eq_self_iff.mpr fun c hc => ?_
  exact bne_iff_ne.mpr fun he => hnone (he ▸ hc)

theorem not_blank_lineChars : ¬ Blank (Grammar.lineChars head ps) := by
  obtain ⟨c, hc⟩ := List.exists_mem_of_ne_nil _ hhead.word.1
  intro hb
  have hblank := hb c (by
    rw [withoutComment_lineChars hhead hps, lineChars_eq]
    simp [hc])
  exact Bool.false_ne_true ((hhead.word.2 c hc).symm.trans hblank)

theorem arrow_lineChars : arrowCount (Grammar.lineChars head ps) = 1 ∧
    beforeArrow (Grammar.lineChars head ps) = head.toList ++ [' '] ∧
    afterArrow (Grammar.lineChars head ps) = bodyChars ps := by
  have hinner : ∀ {c}, IsInner c → c ≠ '→' ∧ c ≠ '>' := fun hc =>
    ⟨fun he => hc.1 (he ▸ by decide), fun he => hc.1 (he ▸ by decide)⟩
  have hbefore : ∀ c ∈ head.toList ++ [' '], c ≠ '→' ∧ c ≠ '>' := by
    intro c hc
    rcases List.mem_append.mp hc with hc | hc
    · exact hinner (hhead.isInner hc)
    · obtain rfl := List.mem_singleton.mp hc
      decide
  have hafter : ∀ c ∈ bodyChars ps, c ≠ '→' ∧ c ≠ '>' := by
    intro c hc
    rcases mem_bodyChars hps hc with rfl | hc
    · decide
    · exact hinner hc
  rw [lineChars_eq, (arrow_behind hbefore _).1, beforeArrow_append hbefore,
    afterArrow_append hbefore, arrowCount_eq_zero hafter]
  exact ⟨rfl, rfl, rfl⟩

theorem headOn_lineChars : headOn (Grammar.lineChars head ps) = head.toList := by
  have htrim : trim ([] ++ head.toList ++ [' ']) = head.toList :=
    trim_pad (trimmed_of_no_blank hhead.word.2) hhead.word.1 (List.forall_mem_nil _)
      isBlank_of_mem_space
  rw [headOn, withoutComment_lineChars hhead hps, (arrow_lineChars hhead hps).2.1]
  exact htrim

theorem not_bad_lineChars : ¬ Bad (Grammar.lineChars head ps) := by
  rw [not_bad_iff (not_blank_lineChars hhead hps), headOn_lineChars hhead hps,
    withoutComment_lineChars hhead hps]
  exact ⟨(arrow_lineChars hhead hps).1, hhead.word⟩

theorem ruleOn_lineChars (hne : ps ≠ []) :
    ruleOn (Grammar.lineChars head ps) = ⟨head.toList, ps.map Production.chars⟩ := by
  have hparts : ∀ part ∈ ps.map Production.chars, '|' ∉ part ∧ part ≠ [] ∧ Trimmed part := by
    intro part hm
    obtain ⟨p, hp, rfl⟩ := List.mem_map.mp hm
    exact ⟨fun hbar => ((hps p hp).isInner hbar).1 (by decide), (hps p hp).trimmed⟩
  rw [ruleOn, headOn_lineChars hhead hps, withoutComment_lineChars hhead hps,
    (arrow_lineChars hhead hps).2.2, bodyChars, map_trim_splitOn (by simpa using hne) hparts]

end

-- ---------------------------------------------------------------------------
-- Reading a written grammar
-- ---------------------------------------------------------------------------

/-- The grammar with its heads sorted; the least of them is the start symbol. -/
structure Restored (g : Grammar) (input : PointedGrammar) : Prop where
  heads : input.grammar.heads.Perm g.heads
  ascending : Ascending input.grammar.heads
  start : input.start ∈ g.heads
  least : ∀ head ∈ g.heads, (compare input.start head).isLE = true
  productions : ∀ head ∈ g.heads, input.grammar.productions head = g.productions head
  same : input.grammar.Same g

section
variable (h : Writable g)
include h

theorem Writable.legible_of_mem (hp : p ∈ g.productions head) : Legible (inOrder g.heads) p :=
  (h.legible (head, p) (Grammar.mem_rules_iff.mpr hp)).inOrder

theorem linesOf_chars : linesOf '\n' '\r' g.chars = g.lines := by
  have hline : ∀ {c}, c ∉ ['-', '>', '|'] → ¬ IsInner c → ∀ line ∈ g.lines, c ∉ line := by
    intro c hmark hinner line hl
    obtain ⟨head, hm, rfl⟩ := List.mem_map.mp hl
    exact not_mem_lineChars (h.plain head (mem_inOrder.mp hm))
      (fun p hp => h.legible_of_mem hp) hmark hinner
  exact linesOf_flatMap_break (hline (by decide) (by decide)) (hline (by decide) (by decide))

theorem not_bad_lines : ∀ line ∈ g.lines, ¬ Blank line ∧ ¬ Bad line := by
  intro line hl
  obtain ⟨head, hm, rfl⟩ := List.mem_map.mp hl
  have hhead := h.plain head (mem_inOrder.mp hm)
  have hps : ∀ p ∈ g.productions head, Legible (inOrder g.heads) p :=
    fun p hp => h.legible_of_mem hp
  exact ⟨not_blank_lineChars hhead hps, not_bad_lineChars hhead hps⟩

theorem rulesOn_lines : rulesOn g.lines = (inOrder g.heads).map fun head =>
    ⟨head.toList, (g.productions head).map Production.chars⟩ := by
  have hshown : ∀ line ∈ g.lines, decide (¬ Blank line) = true :=
    fun line hl => decide_eq_true (not_bad_lines h line hl).1
  rw [rulesOn, List.filter_eq_self.mpr hshown, Grammar.lines, List.map_map]
  refine List.map_congr_left fun head hm => ?_
  have hm := mem_inOrder.mp hm
  exact ruleOn_lineChars (h.plain head hm) (fun p hp => h.legible_of_mem hp)
    (h.productive head hm)

omit h in
theorem nodup_inOrder_heads (g : Grammar) : (inOrder g.heads).Nodup :=
  (inOrder_perm g.heads).nodup_iff.mpr g.nodup_heads

theorem headsOn_lines : headsOn g.lines = inOrder g.heads := by
  rw [headsOn, rulesOn_lines h, List.map_map]
  simp only [Function.comp_def, RuleLine.headName, String.ofList_toList, List.map_id']
  exact OrderedSet.eraseDups_of_nodup (nodup_inOrder_heads g)

theorem alternativesOf_lines (hm : head ∈ g.heads) :
    alternativesOf g.lines head = (g.productions head).map Production.chars := by
  rw [alternativesOf, rulesOn_lines h, List.filter_map]
  simp only [Function.comp_def, RuleLine.headName, String.ofList_toList]
  rw [List.filter_eq, (nodup_inOrder_heads g).count, if_pos (mem_inOrder.mpr hm)]
  simp

theorem productions_grammarOf_lines (hm : head ∈ g.heads) :
    (grammarOf (rulesOn g.lines)).productions head = g.productions head := by
  have hread : (g.productions head).map (reading (inOrder g.heads) ∘ Production.chars) =
      g.productions head := by
    refine (List.map_congr_left fun p hp => ?_).trans (List.map_id _)
    exact reading_chars (fun name hn => h.plain name (mem_inOrder.mp hn)) (h.legible_of_mem hp)
  rw [productions_grammarOf, headsOn_lines h, alternativesOf_lines h hm, List.map_map, hread,
    OrderedSet.eraseDups_of_nodup (g.nodup_productions head)]

theorem restored_grammarOf {start : String} {rest : List String}
    (hstart : inOrder g.heads = start :: rest) :
    Restored g ⟨grammarOf (rulesOn g.lines), start⟩ := by
  have hheads : (grammarOf (rulesOn g.lines)).heads = inOrder g.heads :=
    heads_grammarOf.trans (headsOn_lines h)
  have hascending : Ascending (inOrder g.heads) := ascending_inOrder g.nodup_heads
  constructor
  case heads => exact hheads ▸ inOrder_perm g.heads
  case ascending => exact hheads ▸ hascending
  case start => exact mem_inOrder.mp (hstart ▸ List.mem_cons_self)
  case least =>
    intro head hm
    rw [← mem_inOrder, hstart] at hm
    rw [hstart] at hascending
    rcases List.mem_cons.mp hm with rfl | hm
    · simp
    · rw [(List.pairwise_cons.mp hascending).1 head hm]
      rfl
  case productions => exact fun head hm => productions_grammarOf_lines h hm
  case same =>
    have hmem : ∀ head, head ∈ (grammarOf (rulesOn g.lines)).heads ↔ head ∈ g.heads := by
      simp [hheads]
    refine ⟨hmem, fun head p => ?_⟩
    by_cases hm : head ∈ g.heads
    · rw [productions_grammarOf_lines h hm]
    · rw [Grammar.productions_of_not_mem hm, Grammar.productions_of_not_mem (mt (hmem head).mp hm)]

end

/-- A grammar that can be written comes back from its text, with its heads sorted. -/
theorem readText_text (h : Writable g) :
    ∃ input, readText g.text = .ok input ∧ Restored g input := by
  have hread : readText g.text = readLines g.lines := by
    rw [readText, Grammar.text, String.toList_ofList, linesOf_chars h]
  have hne : inOrder g.heads ≠ [] := fun he =>
    h.nonempty (by simpa [he] using (length_inOrder g.heads).symm)
  obtain ⟨start, rest, hstart⟩ := List.exists_cons_of_ne_nil hne
  rw [hread]
  rcases readLines_cases g.lines with ⟨_, first, others, hrules, hr⟩ | ⟨_, _, hfirst, _⟩ | ⟨hall, _⟩
  · have hhead : String.ofList first.head = start := by
      rw [rulesOn_lines h, hstart, List.map_cons] at hrules
      rw [← (List.cons.inj hrules).1, String.ofList_toList]
    rw [hhead] at hr
    exact ⟨_, hr, restored_grammarOf h hstart⟩
  · obtain ⟨line, hl, hbad⟩ := hfirst.exists_bad
    exact absurd hbad (not_bad_lines h line hl).2
  · have hrules := rulesOn_eq_nil_iff.mpr hall
    rw [rulesOn_lines h, hstart] at hrules
    simp at hrules

/-- Names of one and of several characters, ε, a lower-case head, and heads out of order. -/
def sentences : Grammar :=
  .ofRules [("x", [.nonterminal "VP"]), ("x", []), ("VP", [.terminal "chases", .nonterminal "S"]),
    ("S", [.nonterminal "x", .nonterminal "VP"]), ("S", [.terminal "a", .nonterminal "S",
      .terminal "-"]), ("S", [.terminal "b"])]

theorem readText_text_sentences : Writable sentences ∧
    Grammar.lineChars "S" (sentences.productions "S") = "S -> x VP | aS- | b".toList ∧
    Grammar.lineChars "x" (sentences.productions "x") = "x -> VP | ε".toList ∧
    ∃ input, readText sentences.text = .ok input ∧ Restored sentences input := by
  have h : Writable sentences := by decide +kernel
  exact ⟨h, by decide +kernel, by decide +kernel, readText_text h⟩

end ContextFree.Notation
