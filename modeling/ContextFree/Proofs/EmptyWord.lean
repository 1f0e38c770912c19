import ContextFree.Deletion
import ContextFree.Proofs.Words

/-!
# The empty word

`mem_nullable_iff`: the search for nullable nonterminals finds those that
derive the empty word. A name is found only on account of names found before,
so each has a derivation; and where a pass finds nothing, no derivation of the
empty word can lead outside the set.

`mem_productions_withoutEpsilon`: deleting ε leaves the non-empty deletion
variants of the old productions. Every word but the empty one keeps its
derivations (`keepsWords_withoutEpsilon`), with the nonterminals left out that
derived nothing in it.
-/

namespace ContextFree

variable {g : Grammar} {known nullable : OrderedSet String} {heads : List String}
variable {head name : String} {p q r : Production} {w : List String}

-- ---------------------------------------------------------------------------
-- Nullable nonterminals
-- ---------------------------------------------------------------------------

theorem Production.Vanishes.mono {more : OrderedSet String} (h : ∀ name ∈ known, name ∈ more)
    (hp : p.Vanishes known) : p.Vanishes more := by
  intro s hs
  obtain ⟨name, hn, rfl⟩ := hp s hs
  exact ⟨name, h name hn, rfl⟩

theorem Production.vanishes_nonterminal_cons :
    Vanishes known (.nonterminal name :: p) ↔ name ∈ known ∧ p.Vanishes known := by
  simp [Vanishes]

namespace Yields

theorem of_vanishes (hk : ∀ name ∈ known, g.Derives name []) (hp : p.Vanishes known) :
    Yields g p [] := by
  induction p with
  | nil => exact .nil
  | cons s p ih =>
    obtain ⟨name, hn, rfl⟩ := hp s List.mem_cons_self
    obtain ⟨q, hq, hy⟩ := Grammar.derives_iff.mp (hk name hn)
    exact .nonterminal hq hy (ih fun s hs => hp s (List.mem_cons_of_mem _ hs))

theorem vanishes (closed : ∀ head, ∀ p ∈ g.productions head, p.Vanishes known → head ∈ known)
    (hy : Yields g p w) (hw : w = []) : p.Vanishes known := by
  induction hy with
  | nil => simp [Production.Vanishes]
  | terminal t _ _ => simp at hw
  | nonterminal rule _ _ ihq ihp =>
    rw [List.append_eq_nil_iff] at hw
    exact Production.vanishes_nonterminal_cons.mpr ⟨closed _ _ rule (ihq hw.1), ihp hw.2⟩

end Yields

namespace Grammar

theorem derives_of_mem_nullableVisit (hk : ∀ name ∈ known, g.Derives name []) :
    ∀ name ∈ g.nullableVisit known head, g.Derives name [] := by
  intro name hn
  unfold nullableVisit at hn
  split at hn
  · rename_i hp
    obtain ⟨p, hp, hv⟩ := hp
    rcases OrderedSet.mem_insert.mp hn with hn | rfl
    · exact hk name hn
    · exact derives_of_mem hp (Yields.of_vanishes hk hv)
  · exact hk name hn

theorem derives_of_mem_foldl_nullableVisit (hk : ∀ name ∈ known, g.Derives name []) :
    ∀ name ∈ heads.foldl g.nullableVisit known, g.Derives name [] := by
  induction heads generalizing known with
  | nil => exact hk
  | cons head heads ih => exact ih (derives_of_mem_nullableVisit hk)

theorem mem_foldl_nullableVisit_of_vanishes (hh : head ∈ heads) (hp : p ∈ g.productions head)
    (hv : p.Vanishes known) : head ∈ heads.foldl g.nullableVisit known := by
  induction heads generalizing known with
  | nil => simp at hh
  | cons other heads ih =>
    rcases List.mem_cons.mp hh with rfl | hh
    · rw [List.foldl_cons]
      refine mem_foldl_nullableVisit ?_
      simp only [nullableVisit, if_pos (⟨p, hp, hv⟩ : ∃ p ∈ g.productions head, p.Vanishes known)]
      simp
    · exact ih hh (hv.mono fun name => mem_nullableVisit)

theorem mem_searchNullable_iff {passes : Nat} (hk : ∀ name ∈ known, g.Derives name []) :
    name ∈ (g.searchNullable known passes).names ↔ g.Derives name [] := by
  fun_induction searchNullable g known passes with
  | case1 known passes hfix =>
    refine ⟨hk name, fun hd => ?_⟩
    have hclosed : ∀ head p, p ∈ g.productions head → p.Vanishes known → head ∈ known := by
      intro head p hp hv
      rw [← hfix]
      exact mem_foldl_nullableVisit_of_vanishes (mem_heads_of_mem_productions hp) hp hv
    exact (Production.vanishes_nonterminal_cons.mp (Yields.vanishes hclosed hd rfl)).1
  | case2 known passes _ ih => exact ih (derives_of_mem_foldl_nullableVisit hk)

theorem mem_nullable_iff : name ∈ g.nullable ↔ g.Derives name [] :=
  mem_searchNullable_iff (by simp)

end Grammar

-- ---------------------------------------------------------------------------
-- Deletion variants
-- ---------------------------------------------------------------------------

namespace Production

/-- The second list is the first without some occurrences of nullable nonterminals. -/
inductive DropsTo (nullable : OrderedSet String) : Production → Production → Prop
  | nil : DropsTo nullable [] []
  | keep {p q : Production} (s : Symbol) (rest : DropsTo nullable p q) :
    DropsTo nullable (s :: p) (s :: q)
  | drop {p q : Production} {name : String} (mem : name ∈ nullable)
    (rest : DropsTo nullable p q) : DropsTo nullable (.nonterminal name :: p) q

theorem DropsTo.refl (p : Production) : p.DropsTo nullable p := by
  induction p with
  | nil => exact .nil
  | cons s p ih => exact .keep s ih

theorem DropsTo.sublist (hd : p.DropsTo nullable q) : q.Sublist p := by
  induction hd with
  | nil => exact .slnil
  | keep s _ ih => exact ih.cons_cons s
  | drop _ _ ih => exact ih.cons _

theorem DropsTo.eq_of_empty (hd : p.DropsTo .empty q) : q = p := by
  induction hd with
  | nil => rfl
  | keep s _ ih => rw [ih]
  | drop hm => simp at hm

theorem mem_extend {partials : OrderedSet Production} {s : Symbol} :
    q ∈ extend nullable partials s ↔
      (∃ kept ∈ partials, q = kept ++ [s]) ∨ Optional nullable s ∧ q ∈ partials := by
  unfold extend
  split <;> simp [*]
  grind

theorem mem_foldl_extend {partials : OrderedSet Production} :
    q ∈ p.foldl (extend nullable) partials ↔
      ∃ kept ∈ partials, ∃ r, p.DropsTo nullable r ∧ q = kept ++ r := by
  induction p generalizing partials with
  | nil =>
    constructor
    · exact fun hq => ⟨q, hq, [], .nil, (List.append_nil q).symm⟩
    · rintro ⟨kept, hk, r, hd, rfl⟩
      cases hd
      simpa using hk
  | cons s p ih =>
    rw [List.foldl_cons, ih]
    constructor
    · rintro ⟨kept, hk, r, hd, rfl⟩
      rcases mem_extend.mp hk with ⟨first, hf, rfl⟩ | ⟨⟨name, hn, rfl⟩, hf⟩
      · exact ⟨first, hf, s :: r, .keep s hd, by simp⟩
      · exact ⟨kept, hf, r, .drop hn hd, rfl⟩
    · rintro ⟨kept, hk, r, hd, rfl⟩
      cases hd with
      | keep _ hd =>
        exact ⟨kept ++ [s], mem_extend.mpr (Or.inl ⟨kept, hk, rfl⟩), _, hd, by simp⟩
      | drop hn hd =>
        exact ⟨kept, mem_extend.mpr (Or.inr ⟨⟨_, hn, rfl⟩, hk⟩), r, hd, rfl⟩

theorem mem_variants : q ∈ p.variants nullable ↔ q ≠ [] ∧ p.DropsTo nullable q := by
  simp only [variants, List.mem_filter, OrderedSet.mem_toList, mem_foldl_extend]
  simp [and_comm]

end Production

namespace Yields

theorem of_dropsTo (hk : ∀ name ∈ nullable, g.Derives name []) (hd : p.DropsTo nullable q)
    (hy : Yields g q w) : Yields g p w := by
  induction hd generalizing w with
  | nil => exact hy
  | keep s _ ih =>
    rw [← List.singleton_append, append_iff] at hy ⊢
    obtain ⟨u, v, rfl, hu, hv⟩ := hy
    exact ⟨u, v, rfl, hu, ih hv⟩
  | drop hn _ ih =>
    rw [← List.singleton_append, append_iff]
    exact ⟨[], w, rfl, hk _ hn, ih hy⟩

theorem eq_nil (hn : ∀ head, [] ∉ g.productions head) (hy : Yields g p w) (hw : w = []) :
    p = [] := by
  induction hy with
  | nil => rfl
  | terminal t _ _ => simp at hw
  | nonterminal rule _ _ ihq _ =>
    rw [List.append_eq_nil_iff] at hw
    exact absurd (ihq hw.1 ▸ rule) (hn _)

end Yields

-- ---------------------------------------------------------------------------
-- Grammars without ε
-- ---------------------------------------------------------------------------

namespace Grammar

theorem mem_variantRules {rule : Rule} : rule ∈ g.variantRules nullable ↔
    rule.2 ≠ [] ∧ ∃ p ∈ g.productions rule.1, p.DropsTo nullable rule.2 ∧ rule.2 ≠ p := by
  obtain ⟨head, q⟩ := rule
  simp only [variantRules, List.mem_flatMap, List.mem_filter, List.mem_map,
    Production.mem_variants, decide_eq_true_eq, Prod.mk.injEq]
  constructor
  · rintro ⟨⟨owner, p⟩, ⟨hr, _⟩, q, ⟨⟨hq, hd⟩, hne⟩, rfl, rfl⟩
    exact ⟨hq, p, mem_rules_iff.mp hr, hd, hne⟩
  · rintro ⟨hq, p, hp, hd, hne⟩
    have hp' : p ≠ [] := by
      rintro rfl
      exact hq (List.sublist_nil.mp hd.sublist)
    exact ⟨(head, p), ⟨mem_rules_iff.mpr hp, hp'⟩, q, ⟨⟨hq, hd⟩, hne⟩, rfl, rfl⟩

theorem heads_withoutEpsilon (g : Grammar) : g.withoutEpsilon.heads = g.heads := by
  rw [withoutEpsilon, heads_removeAll, heads_addAll_of_subset]
  intro rule hr
  obtain ⟨_, p, hp, _⟩ := mem_variantRules.mp hr
  exact mem_heads_of_mem_productions hp

theorem mem_productions_withoutEpsilon : q ∈ g.withoutEpsilon.productions head ↔
    q ≠ [] ∧ ∃ p ∈ g.productions head, p.DropsTo g.nullable q := by
  rw [withoutEpsilon, mem_productions_removeAll, mem_productions_addAll, mem_variantRules]
  simp only [List.mem_filter, mem_rules_iff, decide_eq_true_eq, not_and]
  constructor
  · rintro ⟨hq | ⟨hq, p, hp, hd, _⟩, hn⟩
    · exact ⟨hn hq, q, hq, .refl q⟩
    · exact ⟨hq, p, hp, hd⟩
  · rintro ⟨hq, p, hp, hd⟩
    refine ⟨?_, fun _ => hq⟩
    by_cases he : q = p
    · exact Or.inl (he ▸ hp)
    · exact Or.inr ⟨hq, p, hp, hd, he⟩

/-- Of what yields a word something is left that yields it without ε, and more than nothing
unless the word is empty. -/
theorem exists_dropsTo_yields (hy : Yields g p w) :
    ∃ q, p.DropsTo g.nullable q ∧ Yields g.withoutEpsilon q w := by
  induction hy with
  | nil => exact ⟨[], .nil, .nil⟩
  | terminal t _ ih =>
    obtain ⟨q, hd, hy⟩ := ih
    exact ⟨.terminal t :: q, .keep _ hd, .terminal t hy⟩
  | @nonterminal p r u v name rule first _ ihr ihp =>
    obtain ⟨q, hdq, hyq⟩ := ihp
    obtain ⟨r', hdr, hyr⟩ := ihr
    by_cases hu : u = []
    · subst hu
      exact ⟨q, .drop (mem_nullable_iff.mpr (derives_of_mem rule first)) hdq, hyq⟩
    · have hr' : r' ≠ [] := by
        rintro rfl
        exact hu (Yields.nil_iff.mp hyr)
      have hm := mem_productions_withoutEpsilon.mpr ⟨hr', r, rule, hdr⟩
      exact ⟨.nonterminal name :: q, .keep _ hdq, .nonterminal hm hyr hyq⟩

theorem keepsWords_withoutEpsilon (g : Grammar) : g.KeepsWords g.withoutEpsilon where
  heads head hh := by rwa [heads_withoutEpsilon]
  derives head _ w hw := by
    have hk : ∀ name ∈ g.nullable, g.Derives name [] := fun _ => mem_nullable_iff.mp
    constructor
    · refine Yields.of_admissible fun name q hq v hv => ?_
      obtain ⟨_, p, hp, hd⟩ := mem_productions_withoutEpsilon.mp hq
      exact derives_of_mem hp (hv.of_dropsTo hk hd)
    · intro hd
      obtain ⟨q, hq, hy⟩ := exists_dropsTo_yields hd
      cases hq with
      | keep _ hq => cases hq; exact hy
      | drop _ hq =>
        cases hq
        exact absurd (Yields.nil_iff.mp hy) hw

theorem nullable_eq_empty (hn : ∀ head, [] ∉ g.productions head) : g.nullable = .empty := by
  refine OrderedSet.ext (List.eq_nil_iff_forall_not_mem.mpr fun name hm => ?_)
  have he := Yields.eq_nil hn (mem_nullable_iff.mp hm) rfl
  simp at he

theorem withoutEpsilon_eq_self (hn : ∀ head, [] ∉ g.productions head) : g.withoutEpsilon = g := by
  have ha : g.variantRules g.nullable = [] := by
    refine List.eq_nil_iff_forall_not_mem.mpr fun rule hr => ?_
    obtain ⟨_, p, _, hd, hne⟩ := mem_variantRules.mp hr
    rw [nullable_eq_empty hn] at hd
    exact hne hd.eq_of_empty
  have hr : g.rules.filter (·.2 = []) = [] := by
    refine List.filter_eq_nil_iff.mpr ?_
    rintro ⟨head, p⟩ hm
    rw [mem_rules_iff] at hm
    simp only [decide_eq_true_eq]
    exact fun he : p = [] => hn head (he ▸ hm)
  rw [withoutEpsilon, ha, hr]
  rfl

end Grammar

end ContextFree
