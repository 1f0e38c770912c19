import ContextFree.Proofs.CheckedFilling
import ContextFree.Proofs.Numbering
import Mathlib.Data.List.Nodup

/-!
# Compiled grammars

The names of a grammar are numbered while its rules are put into the two
indexes, those of a rule one after the other (`ruleNames`). In the end the
table of names is the one that has seen all of them, and the start symbol last
(`names_ofGrammar`).

A lookup answers with the numbers of the heads that a scan of the rules finds,
each once and in the order of the grammar (`headsOf_rules`). `compiled_exact`
puts this together with the bounds of all numbers, which are what keeps the
filling of a table in range.
-/

namespace ContextFree

variable {g : Grammar} {p : Production} {A : String} {i j : NameId}

-- ---------------------------------------------------------------------------
-- Scans
-- ---------------------------------------------------------------------------

theorem headsOf_map (g : Grammar) (p : Production) (head : String) :
    headsOf ((g.productions head).map fun q => (head, q)) p =
      if p ∈ g.productions head then [head] else [] := by
  have hkept : (g.productions head).filter (· = p) =
      List.replicate (if p ∈ g.productions head then 1 else 0) p := by
    rw [List.filter_eq, (g.nodup_productions head).count]
  rw [headsOf, List.filter_map, List.map_map]
  show ((g.productions head).filter (· = p)).map _ = _
  rw [hkept]
  split <;> rfl

/-- A scan of the rules passes every head once. -/
theorem headsOf_rules (g : Grammar) (p : Production) :
    headsOf g.rules p = g.heads.filter (p ∈ g.productions ·) := by
  rw [Grammar.rules_eq_flatMap]
  induction g.heads with
  | nil => rfl
  | cons head heads ih =>
    have happend : ∀ rules others, headsOf (rules ++ others) p =
        headsOf rules p ++ headsOf others p := fun rules others => by simp [headsOf]
    rw [List.flatMap_cons, happend, ih, headsOf_map, List.filter_cons]
    split <;> simp [*]

-- ---------------------------------------------------------------------------
-- The numbered names
-- ---------------------------------------------------------------------------

/-- The names of a rule in the order in which they are numbered. A rule that is not in normal form
is passed over. -/
def ruleNames : Rule → List String
  | (head, [.terminal _]) => [head]
  | (head, [.nonterminal left, .nonterminal right]) => [head, left, right]
  | _ => []

theorem ruleNames_of_not_isNormal (hp : ¬ p.IsNormal) : ruleNames (A, p) = [] := by
  unfold ruleNames
  split
  next he =>
    cases he
    exact absurd (.terminal _) hp
  next he =>
    cases he
    exact absurd (.binary _ _) hp
  next => rfl

namespace RuleIndex

theorem names_addRule (ix : RuleIndex) (rule : Rule) :
    (ix.addRule rule).names =
      (ruleNames rule).foldl (fun t name => (t.intern name).2) ix.names := by
  obtain ⟨A, p⟩ := rule
  by_cases hp : p.IsNormal
  · cases hp with
    | terminal t => rfl
    | binary B C => rfl
  · rw [addRule_of_not_isNormal hp, ruleNames_of_not_isNormal hp, List.foldl_nil]

theorem names_foldl_addRule (ix : RuleIndex) (rules : List Rule) :
    (rules.foldl addRule ix).names =
      (rules.flatMap ruleNames).foldl (fun t name => (t.intern name).2) ix.names := by
  rw [List.foldl_flatMap]
  exact (List.foldl_hom names fun ix rule => (names_addRule ix rule).symm).symm

end RuleIndex

-- ---------------------------------------------------------------------------
-- Lookups
-- ---------------------------------------------------------------------------

namespace NameTable.Resolves

variable {t : NameTable} {ids : List NameId} {names : List String}

theorem map_name? (h : t.Resolves ids names) : ids.map t.name? = names.map some := by
  induction h with
  | nil => rfl
  | cons ha _ ih => rw [List.map_cons, List.map_cons, ha, ih]

theorem nodup (h : t.Resolves ids names) (hn : names.Nodup) : ids.Nodup := by
  have hmap : (ids.map t.name?).Nodup := by
    rw [h.map_name?]
    exact hn.map fun _ _ => Option.some.inj
  exact List.Nodup.of_map _ hmap

theorem lt_size (h : t.Resolves ids names) (hi : i ∈ ids) : i.index < t.size := by
  obtain ⟨name, hname⟩ := h.exists_name hi
  exact lt_size_of_name? hname

end NameTable.Resolves

theorem nodup_headsOf (g : Grammar) (p : Production) : (headsOf g.rules p).Nodup := by
  rw [headsOf_rules]
  exact g.nodup_heads.filter _

namespace RuleIndex.Describes

variable {ix : RuleIndex}

theorem lookup_eq_nil (d : ix.Describes g.rules)
    (h : ix.names.name? i = none ∨ ix.names.name? j = none) : ix.binary.lookup (i, j) = [] := by
  by_contra hne
  obtain ⟨⟨B, hB⟩, C, hC⟩ := d.known hne
  simp [hB, hC] at h

theorem nodup_binary (d : ix.Describes g.rules) (i j : NameId) :
    (ix.binary.lookup (i, j)).Nodup := by
  cases hi : ix.names.name? i with
  | none => simp [d.lookup_eq_nil (Or.inl hi)]
  | some B =>
    cases hj : ix.names.name? j with
    | none => simp [d.lookup_eq_nil (Or.inr hj)]
    | some C => exact (d.binary hi hj).nodup (nodup_headsOf g _)

end RuleIndex.Describes

-- ---------------------------------------------------------------------------
-- Compiled grammars
-- ---------------------------------------------------------------------------

namespace Recognizer

theorem names_ofGrammar (input : PointedGrammar) :
    (ofGrammar input).index.names =
      .ofNames (input.grammar.rules.flatMap ruleNames ++ [input.start]) := by
  have hrules : (RuleIndex.ofGrammar input.grammar).names =
      .ofNames (input.grammar.rules.flatMap ruleNames) :=
    RuleIndex.names_foldl_addRule .empty input.grammar.rules
  rw [NameTable.ofNames_concat, ← hrules]
  rfl

/-- Compiling a grammar loses nothing that a scan of its rules would find, and the table of a word
is filled without an access out of range. -/
theorem compiled_exact (g : Grammar) (s : String) :
    let r := ofGrammar ⟨g, s⟩
    let names := r.index.names
    names = .ofNames (g.rules.flatMap ruleNames ++ [s]) ∧
    (∀ t, (r.index.lexical.lookup t).map names.name? =
      (g.heads.filter ([.terminal t] ∈ g.productions ·)).map some) ∧
    (∀ B C i j, names.id? B = some i → names.id? C = some j →
      (r.index.binary.lookup (i, j)).map names.name? =
        (g.heads.filter ([.nonterminal B, .nonterminal C] ∈ g.productions ·)).map some) ∧
    (∀ i j, names.name? i = none ∨ names.name? j = none → r.index.binary.lookup (i, j) = []) ∧
    ((∀ t, (r.index.lexical.lookup t).Nodup) ∧ ∀ key, (r.index.binary.lookup key).Nodup) ∧
    ((∀ t, ∀ parent ∈ r.index.lexical.lookup t, parent.index < names.size) ∧
      (∀ key, ∀ parent ∈ r.index.binary.lookup key, parent.index < names.size) ∧
      r.start.index < names.size) ∧
    ∀ tokens, r.index.fill? tokens = some (r.fill tokens) := by
  intro r names
  have hd : r.index.Describes g.rules := describes ⟨g, s⟩
  have hstart : names.name? r.start = some s := NameTable.name?_intern
  refine ⟨names_ofGrammar ⟨g, s⟩, fun t => ?_, fun B C i j hi hj => ?_,
    fun i j => hd.lookup_eq_nil, ⟨fun t => (hd.lexical t).nodup (nodup_headsOf g _),
    fun key => hd.nodup_binary key.1 key.2⟩,
    ⟨fun t parent hp => (hd.lexical t).lt_size hp, fun key => hd.closed key,
    NameTable.lt_size_of_name? hstart⟩, RuleIndex.fill?_eq hd⟩
  · rw [(hd.lexical t).map_name?, headsOf_rules]
  · rw [NameTable.id?_eq_some_iff] at hi hj
    rw [(hd.binary hi hj).map_name?, headsOf_rules]

/-- The rules of `S → AB` and `C → AB` stand under the numbers of `A` and `B`; there is no fifth
name. -/
theorem compiled_exact_sample :
    let r := ofGrammar .sample
    let names := r.index.names
    names.id? "A" = some ⟨1⟩ ∧ names.id? "B" = some ⟨2⟩ ∧
      (r.index.binary.lookup (⟨1⟩, ⟨2⟩)).map names.name? = [some "S", some "C"] ∧
      names.name? ⟨4⟩ = none ∧ r.index.binary.lookup (⟨4⟩, ⟨1⟩) = [] ∧
      ∃ parent ∈ r.index.lexical.lookup "a", names.name? parent = some "A" ∧
        parent.index < names.size := by
  intro r names
  obtain ⟨hnames, hlexical, hbinary, hother, -, ⟨hbelow, -⟩, -⟩ := compiled_exact .sample "S"
  have hseen : names = .ofNames (Grammar.sample.rules.flatMap ruleNames ++ ["S"]) := hnames
  have hA : names.id? "A" = some ⟨1⟩ := by
    rw [hseen, NameTable.id?_ofNames (by decide +kernel)]
    decide +kernel
  have hB : names.id? "B" = some ⟨2⟩ := by
    rw [hseen, NameTable.id?_ofNames (by decide +kernel)]
    decide +kernel
  have hnone : names.name? ⟨4⟩ = none := by
    rw [hseen, NameTable.name?_ofNames]
    decide +kernel
  have hparents : (r.index.lexical.lookup "a").map names.name? = [some "A", some "C"] :=
    (hlexical "a").trans (by decide +kernel)
  obtain ⟨parent, hp, hname⟩ : ∃ parent ∈ r.index.lexical.lookup "a",
      names.name? parent = some "A" := by
    rw [← List.mem_map, hparents]
    exact List.mem_cons_self
  exact ⟨hA, hB, (hbinary "A" "B" ⟨1⟩ ⟨2⟩ hA hB).trans (by decide +kernel), hnone,
    hother ⟨4⟩ ⟨1⟩ (Or.inl hnone), parent, hp, hname, hbelow "a" parent hp⟩

end Recognizer
end ContextFree
