import ContextFree.Grammar.Lemmas
import ContextFree.Recognizer.Basic
import Mathlib.Data.List.Forall2

/-!
# What the parent indexes hold

A lookup answers as a scan of all rules would: with the heads of the rules that
have the given right-hand side, in their order (`Describes`). The names on
right-hand sides are numbered before they serve as a key, so a name that comes
later cannot be mistaken for one of them.
-/

namespace ContextFree

def headsOf (rules : List Rule) (p : Production) : List String :=
  (rules.filter fun rule => rule.2 = p).map Prod.fst

def NameTable.Resolves (t : NameTable) (ids : List NameId) (names : List String) : Prop :=
  List.Forall₂ (fun id name => t.name? id = some name) ids names

variable {rules : List Rule} {p q : Production} {A B C : String} {a l r : NameId}

theorem headsOf_append : headsOf (rules ++ [(A, p)]) q =
    headsOf rules q ++ if p = q then [A] else [] := by
  by_cases h : p = q <;> simp [headsOf, h]

@[simp] theorem mem_headsOf : A ∈ headsOf rules p ↔ (A, p) ∈ rules := by
  simp [headsOf]

namespace NameTable.Resolves

variable {t t' : NameTable} {ids : List NameId} {names : List String}

@[simp] theorem nil : t.Resolves [] [] := List.Forall₂.nil

theorem mono (h : t.Resolves ids names)
    (hm : ∀ id name, t.name? id = some name → t'.name? id = some name) : t'.Resolves ids names :=
  List.Forall₂.imp hm h

theorem snoc (h : t.Resolves ids names) (ha : t.name? a = some A) :
    t.Resolves (ids ++ [a]) (names ++ [A]) :=
  List.rel_append h (.cons ha .nil)

theorem resolve_eq (h : t.Resolves ids names) : t.resolve ids = names := by
  induction h with
  | nil => rfl
  | cons ha _ ih =>
    simp only [resolve] at ih
    simp [resolve, ha, ih]

theorem exists_name (h : t.Resolves ids names) (ha : a ∈ ids) : ∃ A, t.name? a = some A := by
  induction h with
  | nil => simp at ha
  | cons hb _ ih =>
    cases ha with
    | head => exact ⟨_, hb⟩
    | tail _ ha => exact ih ha

end NameTable.Resolves

namespace RuleIndex

variable {ix : RuleIndex}

theorem addRule_of_not_isNormal (hp : ¬ p.IsNormal) : ix.addRule (A, p) = ix := by
  unfold addRule
  split
  next he =>
    cases he
    exact absurd (.terminal _) hp
  next he =>
    cases he
    exact absurd (.binary _ _) hp
  next => rfl

structure Describes (ix : RuleIndex) (rules : List Rule) : Prop where
  lexical : ∀ t, ix.names.Resolves (ix.lexical.lookup t) (headsOf rules [.terminal t])
  binary : ∀ {l r B C}, ix.names.name? l = some B → ix.names.name? r = some C →
    ix.names.Resolves (ix.binary.lookup (l, r)) (headsOf rules [.nonterminal B, .nonterminal C])
  numbered : ∀ {A B C}, (A, [.nonterminal B, .nonterminal C]) ∈ rules →
    (∃ l, ix.names.name? l = some B) ∧ ∃ r, ix.names.name? r = some C
  known : ∀ {l r}, ix.binary.lookup (l, r) ≠ [] →
    (∃ B, ix.names.name? l = some B) ∧ ∃ C, ix.names.name? r = some C

namespace Describes

theorem empty : RuleIndex.empty.Describes [] where
  lexical _ := by simp [RuleIndex.empty, headsOf]
  binary hl := by simp [RuleIndex.empty] at hl
  numbered h := by simp at h
  known h := by simp [RuleIndex.empty] at h

/-- Numbering one more name is of no consequence: a key with the new number holds nothing, and
no rule has the new name in a pair. -/
theorem intern (h : ix.Describes rules) (name : String) :
    Describes { ix with names := (ix.names.intern name).2 } rules := by
  have hm : ∀ id other, ix.names.name? id = some other →
      (ix.names.intern name).2.name? id = some other :=
    fun _ _ => NameTable.name?_intern_of_name?
  have hold : ∀ {id other}, (ix.names.intern name).2.name? id = some other →
      ((∃ x, ix.names.name? id = some x) ∨ ∃ i, ix.names.name? i = some other) →
      ix.names.name? id = some other := by
    rintro id other hid (⟨x, hx⟩ | ⟨i, hi⟩)
    · rw [hm _ _ hx] at hid
      rw [hx, hid]
    · rw [NameTable.name?_inj hid (hm _ _ hi)]
      exact hi
  refine ⟨fun t => (h.lexical t).mono hm, fun {l r B C} hl hr => ?_, fun hp => ?_, fun hk => ?_⟩
  · by_cases ho : ix.names.name? l = some B ∧ ix.names.name? r = some C
    · exact (h.binary ho.1 ho.2).mono hm
    · have hlookup : ix.binary.lookup (l, r) = [] := by
        by_contra hne
        obtain ⟨hB, hC⟩ := h.known hne
        exact ho ⟨hold hl (Or.inl hB), hold hr (Or.inl hC)⟩
      have hheads : headsOf rules [.nonterminal B, .nonterminal C] = [] := by
        rw [List.eq_nil_iff_forall_not_mem]
        intro A hA
        obtain ⟨hB, hC⟩ := h.numbered (mem_headsOf.mp hA)
        exact ho ⟨hold hl (Or.inr hB), hold hr (Or.inr hC)⟩
      simp [hlookup, hheads]
  · obtain ⟨⟨l, hl⟩, r, hr⟩ := h.numbered hp
    exact ⟨⟨l, hm _ _ hl⟩, r, hm _ _ hr⟩
  · obtain ⟨⟨B, hB⟩, C, hC⟩ := h.known hk
    exact ⟨⟨B, hm _ _ hB⟩, C, hm _ _ hC⟩

theorem addLexical (h : ix.Describes rules) (ha : ix.names.name? a = some A) (t : String) :
    Describes { ix with lexical := ix.lexical.add t a } (rules ++ [(A, [.terminal t])]) where
  lexical u := by
    rw [ParentIndex.lookup_add, headsOf_append]
    by_cases hu : u = t
    · simpa [hu] using (h.lexical t).snoc ha
    · simpa [hu, Ne.symm hu] using h.lexical u
  binary hl hr := by simpa [headsOf_append] using h.binary hl hr
  numbered hp := h.numbered (by simpa using hp)
  known hk := h.known hk

theorem addBinary (h : ix.Describes rules) (ha : ix.names.name? a = some A)
    (hl : ix.names.name? l = some B) (hr : ix.names.name? r = some C) :
    Describes { ix with binary := ix.binary.add (l, r) a }
      (rules ++ [(A, [.nonterminal B, .nonterminal C])]) where
  lexical t := by simpa [headsOf_append] using h.lexical t
  binary {l' r' B' C'} hl' hr' := by
    rw [ParentIndex.lookup_add, headsOf_append]
    by_cases hk : (l', r') = (l, r)
    · obtain ⟨rfl, rfl⟩ := Prod.mk.inj hk
      obtain rfl : B = B' := Option.some.inj (hl.symm.trans hl')
      obtain rfl : C = C' := Option.some.inj (hr.symm.trans hr')
      simpa using (h.binary hl hr).snoc ha
    · have hne : ¬ (B = B' ∧ C = C') := by
        rintro ⟨rfl, rfl⟩
        exact hk (Prod.ext (NameTable.name?_inj hl' hl) (NameTable.name?_inj hr' hr))
      simpa [hk, hne] using h.binary hl' hr'
  numbered {A' B' C'} hp := by
    rcases List.mem_append.mp hp with hp | hp
    · exact h.numbered hp
    · simp only [List.mem_singleton, Prod.mk.injEq, List.cons.injEq, Symbol.nonterminal.injEq,
        and_true] at hp
      obtain ⟨rfl, rfl, rfl⟩ := hp
      exact ⟨⟨l, hl⟩, r, hr⟩
  known {l' r'} hk := by
    by_cases hkey : (l', r') = (l, r)
    · obtain ⟨rfl, rfl⟩ := Prod.mk.inj hkey
      exact ⟨⟨B, hl⟩, C, hr⟩
    · rw [ParentIndex.lookup_add, if_neg hkey] at hk
      exact h.known hk

theorem pass (h : ix.Describes rules) (hp : ¬ p.IsNormal) :
    ix.Describes (rules ++ [(A, p)]) where
  lexical t := by
    have hne : p ≠ [.terminal t] := fun he => hp (he ▸ .terminal t)
    simpa [headsOf_append, hne] using h.lexical t
  binary {l r B C} hl hr := by
    have hne : p ≠ [.nonterminal B, .nonterminal C] := fun he => hp (he ▸ .binary B C)
    simpa [headsOf_append, hne] using h.binary hl hr
  numbered {A' B C} hm := by
    rcases List.mem_append.mp hm with hm | hm
    · exact h.numbered hm
    · obtain ⟨-, rfl⟩ : A' = A ∧ _ = p := by simpa using hm
      exact absurd (.binary B C) hp
  known hk := h.known hk

theorem addRule (h : ix.Describes rules) (rule : Rule) :
    (ix.addRule rule).Describes (rules ++ [rule]) := by
  obtain ⟨A, p⟩ := rule
  by_cases hp : p.IsNormal
  · cases hp with
    | terminal t => exact (h.intern A).addLexical NameTable.name?_intern t
    | binary B C =>
      have hA : (ix.names.intern A).2.name? (ix.names.intern A).1 = some A :=
        NameTable.name?_intern
      have hB : ((ix.names.intern A).2.intern B).2.name? ((ix.names.intern A).2.intern B).1 =
          some B := NameTable.name?_intern
      have hnames := ((h.intern A).intern B).intern C
      exact hnames.addBinary
        (NameTable.name?_intern_of_name? (NameTable.name?_intern_of_name? hA))
        (NameTable.name?_intern_of_name? hB) NameTable.name?_intern
  · rw [addRule_of_not_isNormal hp]
    exact h.pass hp

theorem foldl_addRule (h : ix.Describes rules) (more : List Rule) :
    (more.foldl RuleIndex.addRule ix).Describes (rules ++ more) := by
  induction more generalizing ix rules with
  | nil => simpa using h
  | cons rule more ih => simpa using ih (h.addRule rule)

end Describes

theorem describes_ofGrammar (g : Grammar) : (ofGrammar g).Describes g.rules :=
  Describes.empty.foldl_addRule g.rules

end RuleIndex

theorem Recognizer.describes (input : PointedGrammar) :
    (ofGrammar input).index.Describes input.grammar.rules :=
  (RuleIndex.describes_ofGrammar input.grammar).intern input.start

namespace RuleIndex.Describes

variable {ix : RuleIndex} {g : Grammar} {t : String}

theorem mem_lexical (h : ix.Describes g.rules) :
    A ∈ ix.names.resolve (ix.lexical.lookup t) ↔ [.terminal t] ∈ g.productions A := by
  simp [(h.lexical t).resolve_eq]

theorem mem_binary (h : ix.Describes g.rules) (hl : ix.names.name? l = some B)
    (hr : ix.names.name? r = some C) :
    A ∈ ix.names.resolve (ix.binary.lookup (l, r)) ↔
      [.nonterminal B, .nonterminal C] ∈ g.productions A := by
  simp [(h.binary hl hr).resolve_eq]

theorem exists_name_of_mem_binary (h : ix.Describes rules) (ha : a ∈ ix.binary.lookup (l, r)) :
    ∃ A, ix.names.name? a = some A := by
  obtain ⟨⟨B, hB⟩, C, hC⟩ := h.known (List.ne_nil_of_mem ha)
  exact (h.binary hB hC).exists_name ha

end RuleIndex.Describes
end ContextFree
