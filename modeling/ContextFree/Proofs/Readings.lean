import ContextFree.Proofs.RuleLines
import ContextFree.Proofs.RuleLists

/-!
# What rule lines mean

The heads of all lines, taken together, decide how every alternative is read:
`namesIn` cuts an alternative into names, `symbolNamed` makes a symbol of each,
and both ask for the heads, wherever they stand. `Meaning` is what lines say
with that reading: heads in the order of their first appearance, and behind each
the readings of all its alternatives, each once.

A grammar read from lines has their meaning (`readLines_meaning`), and so no
name stands for a nonterminal in one place and for a terminal in another.
-/

namespace ContextFree.Notation

open Text

variable {lines : List (List Char)} {heads : List String} {g : Grammar} {rule : RuleLine}
  {rules : List RuleLine} {read : List Char → Production} {alternative text : List Char}
  {name : String} {s : Symbol}

-- ---------------------------------------------------------------------------
-- Readings
-- ---------------------------------------------------------------------------

def namesIn (heads : List String) (alternative : List Char) : List (List Char) :=
  if String.ofList alternative ∈ heads then [alternative]
  else if alternative.any isBlank then (words alternative).filter (· != ['ε'])
  else (alternative.filter (· != 'ε')).map fun c => [c]

def NamesNonterminal (heads : List String) (name : String) : Prop :=
  name ∈ heads ∨ name.toList.head?.any isUppercase = true

instance (heads : List String) (name : String) : Decidable (NamesNonterminal heads name) := by
  unfold NamesNonterminal
  infer_instance

def symbolNamed (heads : List String) (name : String) : Symbol :=
  if NamesNonterminal heads name then .nonterminal name else .terminal name

def reading (heads : List String) (alternative : List Char) : Production :=
  (namesIn heads alternative).map fun text => symbolNamed heads (String.ofList text)

@[simp] theorem name_symbolNamed : (symbolNamed heads name).name = name := by
  unfold symbolNamed
  split <;> rfl

theorem isNonterminal_symbolNamed :
    (symbolNamed heads name).isNonterminal = true ↔ NamesNonterminal heads name := by
  unfold symbolNamed
  split
  · rename_i h
    exact iff_of_true rfl h
  · rename_i h
    exact iff_of_false nofun h

theorem symbolNamed_of_mem (h : name ∈ heads) : symbolNamed heads name = .nonterminal name :=
  if_pos (Or.inl h)

theorem symbolNamed_name (h : s.isNonterminal = true ↔ NamesNonterminal heads s.name) :
    symbolNamed heads s.name = s := by
  cases s with
  | nonterminal name => exact if_pos (h.mp rfl)
  | terminal name => exact if_neg (mt h.mpr Bool.false_ne_true)

section
variable {set : OrderedSet (List Char)} (h : ∀ text, text ∈ set ↔ String.ofList text ∈ heads)
include h

theorem classify_eq (text : List Char) :
    classify set text = symbolNamed heads (String.ofList text) := by
  simp [classify, symbolNamed, NamesNonterminal, h, or_comm]

theorem readAlternative_eq (alternative : List Char) :
    readAlternative set alternative = reading heads alternative := by
  unfold readAlternative reading namesIn
  by_cases hm : String.ofList alternative ∈ heads
  · rw [if_pos ((h _).mpr hm), if_pos hm, List.map_singleton, symbolNamed_of_mem hm]
  · rw [if_neg (mt (h _).mp hm), if_neg hm, funext (classify_eq h)]
    split
    · rfl
    · rw [List.map_map]
      rfl

end

theorem isWord_of_mem_namesIn (hheads : ∀ head ∈ heads, IsWord head.toList)
    (h : text ∈ namesIn heads alternative) : IsWord text := by
  unfold namesIn at h
  split at h
  · rename_i hm
    rw [List.mem_singleton] at h
    simpa [h] using hheads _ hm
  split at h
  · exact isWord_of_mem_words (List.mem_filter.mp h).1
  · rename_i hblank
    obtain ⟨c, hc, rfl⟩ := List.mem_map.mp h
    have hnot : ¬ isBlank c = true :=
      fun hb => hblank (List.any_eq_true.mpr ⟨c, (List.mem_filter.mp hc).1, hb⟩)
    exact ⟨List.cons_ne_nil _ _, by simpa using hnot⟩

-- ---------------------------------------------------------------------------
-- One line after the other
-- ---------------------------------------------------------------------------

def RuleLine.headName (rule : RuleLine) : String := String.ofList rule.head

def addLine (read : List Char → Production) (g : Grammar) (rule : RuleLine) : Grammar :=
  (g.declare rule.headName).addAll (rule.alternatives.map fun a => (rule.headName, read a))

theorem heads_addLine : (addLine read g rule).heads = (g.heads ++ [rule.headName]).eraseDups := by
  rw [addLine, Grammar.heads_addAll_of_subset (by simp), Grammar.heads_declare_eq]

theorem productions_addLine : (addLine read g rule).productions name =
    (g.productions name ++
      if rule.headName = name then rule.alternatives.map read else []).eraseDups := by
  rw [addLine, Grammar.productions_addAll, Grammar.productions_declare]
  split <;> simp [List.filter_map, Function.comp_def, *]

theorem heads_foldl_addLine : (rules.foldl (addLine read) g).heads =
    (g.heads ++ rules.map RuleLine.headName).eraseDups := by
  induction rules generalizing g with
  | nil =>
    have hn : g.heads.Nodup := g.nodup_heads
    rw [List.map_nil, List.append_nil, OrderedSet.eraseDups_of_nodup hn, List.foldl_nil]
  | cons rule rules ih =>
    rw [List.foldl_cons, ih, heads_addLine, OrderedSet.eraseDups_eraseDups_append,
      List.append_assoc, List.map_cons, List.singleton_append]

theorem productions_foldl_addLine : (rules.foldl (addLine read) g).productions name =
    (g.productions name ++
      ((rules.filter (·.headName = name)).flatMap RuleLine.alternatives).map read).eraseDups := by
  induction rules generalizing g with
  | nil => simp [OrderedSet.eraseDups_of_nodup (g.nodup_productions name)]
  | cons rule rules ih =>
    rw [List.foldl_cons, ih, productions_addLine, OrderedSet.eraseDups_eraseDups_append,
      List.append_assoc]
    by_cases hn : rule.headName = name <;> simp [hn]

theorem grammarOf_eq (rules : List RuleLine) : grammarOf rules =
    rules.foldl (addLine (reading (rules.map RuleLine.headName).eraseDups)) .empty := by
  have hheads : ∀ text, text ∈ headsOf rules ↔
      String.ofList text ∈ (rules.map RuleLine.headName).eraseDups := by
    intro text
    simp [headsOf, RuleLine.headName, String.ofList_inj]
  rw [← funext (readAlternative_eq hheads)]
  rfl

-- ---------------------------------------------------------------------------
-- The meaning of lines
-- ---------------------------------------------------------------------------

def headsOn (lines : List (List Char)) : List String :=
  ((rulesOn lines).map RuleLine.headName).eraseDups

/-- The alternatives of a head on all its lines, one behind the other. -/
def alternativesOf (lines : List (List Char)) (name : String) : List (List Char) :=
  ((rulesOn lines).filter (·.headName = name)).flatMap RuleLine.alternatives

structure Meaning (lines : List (List Char)) (input : PointedGrammar) : Prop where
  start : ((rulesOn lines).map RuleLine.headName).head? = some input.start
  heads : input.grammar.heads = headsOn lines
  readings : ∀ name ∈ headsOn lines, input.grammar.productions name =
    ((alternativesOf lines name).map (reading (headsOn lines))).eraseDups
  productive : ∀ name ∈ headsOn lines, input.grammar.productions name ≠ []
  kind : ∀ s ∈ input.grammar.symbols,
    s.isNonterminal = true ↔ NamesNonterminal (headsOn lines) s.name
  apart : ∀ name, .terminal name ∈ input.grammar.symbols → ¬ input.grammar.Mentions name
  words : ∀ name, .terminal name ∈ input.grammar.symbols ∨ input.grammar.Mentions name →
    IsWord name.toList

theorem heads_grammarOf : (grammarOf (rulesOn lines)).heads = headsOn lines := by
  rw [grammarOf_eq, heads_foldl_addLine]
  rfl

theorem productions_grammarOf : (grammarOf (rulesOn lines)).productions name =
    ((alternativesOf lines name).map (reading (headsOn lines))).eraseDups := by
  rw [grammarOf_eq, productions_foldl_addLine]
  rfl

theorem mem_symbols_grammarOf (h : s ∈ (grammarOf (rulesOn lines)).symbols) :
    ∃ alternative, ∃ text ∈ namesIn (headsOn lines) alternative,
      s = symbolNamed (headsOn lines) (String.ofList text) := by
  obtain ⟨name, p, hp, hs⟩ := Grammar.mem_symbols.mp h
  rw [productions_grammarOf, List.mem_eraseDups, List.mem_map] at hp
  obtain ⟨alternative, _, rfl⟩ := hp
  obtain ⟨text, ht, rfl⟩ := List.mem_map.mp hs
  exact ⟨alternative, text, ht, rfl⟩

theorem exists_line_of_mem_headsOn (h : name ∈ headsOn lines) :
    ∃ line ∈ lines, ¬ Blank line ∧ (ruleOn line).headName = name := by
  rw [headsOn, List.mem_eraseDups, rulesOn, List.map_map, List.mem_map] at h
  obtain ⟨line, hl, hn⟩ := h
  obtain ⟨hl, hb⟩ := List.mem_filter.mp hl
  exact ⟨line, hl, by simpa using hb, hn⟩

theorem isWord_of_mem_headsOn (hgood : ∀ line ∈ lines, ¬ Bad line) (h : name ∈ headsOn lines) :
    IsWord name.toList := by
  obtain ⟨line, hl, hb, rfl⟩ := exists_line_of_mem_headsOn h
  rw [RuleLine.headName, String.toList_ofList]
  exact ((not_bad_iff hb).mp (hgood line hl)).2

theorem productions_grammarOf_ne_nil (h : name ∈ headsOn lines) :
    (grammarOf (rulesOn lines)).productions name ≠ [] := by
  obtain ⟨line, hl, hb, hn⟩ := exists_line_of_mem_headsOn h
  have hrule : ruleOn line ∈ (rulesOn lines).filter (·.headName = name) :=
    List.mem_filter.mpr ⟨List.mem_map_of_mem (List.mem_filter.mpr ⟨hl, by simpa using hb⟩),
      by simpa using hn⟩
  obtain ⟨alternative, ha⟩ : ∃ alternative, alternative ∈ (ruleOn line).alternatives :=
    List.exists_mem_of_ne_nil _ (by simp [ruleOn])
  refine List.ne_nil_of_mem (a := reading (headsOn lines) alternative) ?_
  rw [productions_grammarOf, List.mem_eraseDups]
  exact List.mem_map_of_mem (List.mem_flatMap.mpr ⟨_, hrule, ha⟩)

/-- Lines that are read have the meaning that their rules have together. -/
theorem readLines_meaning {input : PointedGrammar} (h : readLines lines = .ok input) :
    Meaning lines input := by
  obtain ⟨hgood, first, rest, hrules, hr⟩ | ⟨_, _, _, hr⟩ | ⟨_, hr⟩ := readLines_cases lines
  · obtain rfl := Except.ok.inj (hr.symm.trans h)
    have hheads : ∀ head ∈ headsOn lines, IsWord head.toList :=
      fun head hm => isWord_of_mem_headsOn hgood hm
    have hkind : ∀ s ∈ (grammarOf (rulesOn lines)).symbols,
        (s.isNonterminal = true ↔ NamesNonterminal (headsOn lines) s.name) ∧
        IsWord s.name.toList := by
      intro s hs
      obtain ⟨alternative, text, ht, rfl⟩ := mem_symbols_grammarOf hs
      rw [isNonterminal_symbolNamed, name_symbolNamed, String.toList_ofList]
      exact ⟨Iff.rfl, isWord_of_mem_namesIn hheads ht⟩
    constructor
    case start =>
      rw [hrules]
      rfl
    case heads => exact heads_grammarOf
    case readings => exact fun name _ => productions_grammarOf
    case productive => exact fun name hn => productions_grammarOf_ne_nil hn
    case kind => exact fun s hs => (hkind s hs).1
    case apart =>
      intro name hterminal hmentions
      have hneither := mt (hkind _ hterminal).1.mpr Bool.false_ne_true
      rcases Grammar.mentions_iff_symbols.mp hmentions with hm | hm
      · exact hneither (Or.inl (heads_grammarOf ▸ hm))
      · exact hneither ((hkind _ hm).1.mp rfl)
    case words =>
      rintro name (hm | hm)
      · exact (hkind _ hm).2
      · rcases Grammar.mentions_iff_symbols.mp hm with hm | hm
        · exact hheads name (heads_grammarOf ▸ hm)
        · exact (hkind _ hm).2
  · exact nomatch hr.symm.trans h
  · exact nomatch hr.symm.trans h

/-- Heads are used before their lines, one head has two lines, and a lower-case name is a head. -/
def forwardLines : List (List Char) :=
  ["# sentences".toList, "S -> NP vp | ε | aSb  # twice".toList, "vp → NP".toList, [],
    "S -> xεy | ε|vp".toList, "\tNP -> the dog".toList]

theorem readLines_meaning_forward : ∃ input, readLines forwardLines = .ok input ∧
    Meaning forwardLines input ∧ input.grammar.heads = ["S", "vp", "NP"] ∧
    input.grammar.productions "S" =
      [[.nonterminal "NP", .nonterminal "vp"], [],
        [.terminal "a", .nonterminal "S", .terminal "b"], [.terminal "x", .terminal "y"],
        [.nonterminal "vp"]] := by
  have h : readLines forwardLines = .ok ⟨grammarOf (rulesOn forwardLines), "S"⟩ := by
    decide +kernel
  exact ⟨_, h, readLines_meaning h, by decide +kernel, by decide +kernel⟩

end ContextFree.Notation
