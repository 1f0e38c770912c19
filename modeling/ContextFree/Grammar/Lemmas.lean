import ContextFree.Grammar.Basic

/-!
# The views of a grammar after each operation

One lemma per view and operation. Together with `ext_views`, which says that a
grammar is known by its heads and the productions of each, they describe the
operations completely.
-/

namespace ContextFree

/-- The rewriting loops end because a count falls. -/
theorem countP_lt_countP {α : Type} {p q : α → Bool} {xs : List α} {a : α} (ha : a ∈ xs)
    (hp : p a = false) (hq : q a = true) (h : ∀ x ∈ xs, p x = true → q x = true) :
    xs.countP p < xs.countP q := by
  induction xs with
  | nil => exact absurd ha List.not_mem_nil
  | cons x xs ih =>
    have hle := List.countP_mono_left fun y hy => h y (List.mem_cons_of_mem x hy)
    rw [List.countP_cons, List.countP_cons]
    rcases List.mem_cons.mp ha with rfl | ha
    · rw [hp, hq]
      simp only [Bool.false_eq_true, if_false, if_true]
      omega
    · have hlt := ih ha fun y hy => h y (List.mem_cons_of_mem x hy)
      by_cases hx : p x = true
      · rw [if_pos hx, if_pos (h x List.mem_cons_self hx)]
        omega
      · rw [if_neg hx]
        omega

namespace Grammar

variable {g h : Grammar} {head other : String} {p q : Production}

-- ---------------------------------------------------------------------------
-- The views
-- ---------------------------------------------------------------------------

theorem lookup_eq_some_iff {entries : List (String × OrderedSet Production)}
    (hn : (entries.map Prod.fst).Nodup) {set : OrderedSet Production} :
    entries.lookup head = some set ↔ (head, set) ∈ entries := by
  induction entries with
  | nil => simp
  | cons entry rest ih =>
    obtain ⟨name, first⟩ := entry
    rw [List.map_cons, List.nodup_cons] at hn
    by_cases he : head = name
    · subst he
      simp only [List.lookup_cons, beq_self_eq_true, Option.some.injEq, List.mem_cons,
        Prod.mk.injEq, true_and]
      refine ⟨fun hs => Or.inl hs.symm, fun hs => ?_⟩
      rcases hs with hs | hs
      · exact hs.symm
      · exact absurd (List.mem_map.mpr ⟨_, hs, rfl⟩) hn.1
    · have hb : (head == name) = false := by simpa using he
      simp [List.lookup_cons, hb, ih hn.2, he]

theorem find?_eq_some_iff {set : OrderedSet Production} :
    g.find? head = some set ↔ (head, set) ∈ g.entries :=
  lookup_eq_some_iff g.nodup_heads

theorem mem_heads_iff : head ∈ g.heads ↔ ∃ set, (head, set) ∈ g.entries := by
  simp [heads]

theorem find?_eq_none_iff : g.find? head = none ↔ head ∉ g.heads := by
  rw [mem_heads_iff, Option.eq_none_iff_forall_ne_some]
  simp [find?_eq_some_iff]

theorem nodup_productions (g : Grammar) (head : String) : (g.productions head).Nodup := by
  unfold productions
  split
  · exact OrderedSet.nodup _
  · exact List.nodup_nil

theorem mem_productions_iff :
    p ∈ g.productions head ↔ ∃ set, (head, set) ∈ g.entries ∧ p ∈ set := by
  unfold productions
  cases he : g.find? head with
  | none =>
    simp only [List.not_mem_nil, false_iff, not_exists, not_and]
    intro set hs
    rw [find?_eq_none_iff, mem_heads_iff] at he
    exact absurd ⟨set, hs⟩ he
  | some set =>
    have hs := find?_eq_some_iff.mp he
    constructor
    · exact fun hp => ⟨set, hs, hp⟩
    · rintro ⟨other, ho, hp⟩
      rw [← find?_eq_some_iff, he, Option.some.injEq] at ho
      exact ho ▸ hp

theorem mem_heads_of_mem_productions (hp : p ∈ g.productions head) : head ∈ g.heads := by
  obtain ⟨set, hs, _⟩ := mem_productions_iff.mp hp
  exact mem_heads_iff.mpr ⟨set, hs⟩

theorem productions_of_not_mem (hh : head ∉ g.heads) : g.productions head = [] := by
  unfold productions
  rw [find?_eq_none_iff.mpr hh]

@[simp] theorem mem_rules_iff : (head, p) ∈ g.rules ↔ p ∈ g.productions head := by
  rw [mem_productions_iff]
  simp only [rules, List.mem_flatMap, List.mem_map, Prod.mk.injEq]
  constructor
  · rintro ⟨⟨name, set⟩, hs, q, hq, rfl, rfl⟩
    exact ⟨set, hs, hq⟩
  · rintro ⟨set, hs, hp⟩
    exact ⟨(head, set), hs, p, hp, rfl, rfl⟩

theorem productions_of_mem_entries {set : OrderedSet Production} (hs : (head, set) ∈ g.entries) :
    g.productions head = set.toList := by
  unfold productions
  rw [find?_eq_some_iff.mpr hs]

theorem rules_eq_flatMap (g : Grammar) :
    g.rules = g.heads.flatMap fun head => (g.productions head).map fun p => (head, p) := by
  unfold rules heads
  rw [List.flatMap_map, List.flatMap_def, List.flatMap_def]
  congr 1
  apply List.map_congr_left
  rintro ⟨name, set⟩ hs
  rw [productions_of_mem_entries hs]

theorem nodup_flatMap_rules {heads : List String} (hn : heads.Nodup)
    {gain : String → List Production} (hg : ∀ head, (gain head).Nodup) :
    (heads.flatMap fun head => (gain head).map fun p => (head, p)).Nodup := by
  refine List.pairwise_flatMap.mpr ⟨fun head _ => ?_, hn.imp fun hne => ?_⟩
  · refine List.pairwise_map.mpr ((hg head).imp fun hne he => hne ?_)
    exact (Prod.mk.inj he).2
  · simp only [List.mem_map]
    rintro _ ⟨p, _, rfl⟩ _ ⟨q, _, rfl⟩ he
    exact hne (Prod.mk.inj he).1

theorem nodup_rules (g : Grammar) : g.rules.Nodup := by
  rw [rules_eq_flatMap]
  exact nodup_flatMap_rules g.nodup_heads g.nodup_productions

/-- A grammar is known by its heads in order and the productions of each in order. -/
theorem ext_views (hh : g.heads = h.heads)
    (hp : ∀ head ∈ g.heads, g.productions head = h.productions head) : g = h := by
  apply ext_entries
  have key : ∀ k : Grammar, k.entries.map (fun e => (e.1, e.2.toList)) =
      k.heads.map fun head => (head, k.productions head) := by
    intro k
    unfold heads
    rw [List.map_map]
    apply List.map_congr_left
    rintro ⟨name, set⟩ hs
    simp [productions_of_mem_entries hs]
  have hmap : g.entries.map (fun e => (e.1, e.2.toList)) =
      h.entries.map (fun e => (e.1, e.2.toList)) := by
    rw [key, key, ← hh]
    apply List.map_congr_left
    intro head hm
    rw [hp head hm]
  refine List.map_inj_right ?_ |>.mp hmap
  rintro ⟨a, s⟩ ⟨b, t⟩ hab
  simp only [Prod.mk.injEq] at hab
  rw [hab.1, OrderedSet.ext hab.2]

theorem mentions_iff {name : String} : g.Mentions name ↔
    name ∈ g.heads ∨ ∃ rule ∈ g.rules, Symbol.nonterminal name ∈ rule.2 := by
  unfold Mentions rules
  simp only [List.mem_flatMap, List.mem_map]
  constructor
  · rintro (h | ⟨entry, he, p, hp, hs⟩)
    · exact Or.inl h
    · exact Or.inr ⟨_, ⟨entry, he, p, hp, rfl⟩, hs⟩
  · rintro (h | ⟨_, ⟨entry, he, p, hp, rfl⟩, hs⟩)
    · exact Or.inl h
    · exact Or.inr ⟨entry, he, p, hp, hs⟩

-- ---------------------------------------------------------------------------
-- Declare and adjust
-- ---------------------------------------------------------------------------

theorem declare_of_mem (hh : head ∈ g.heads) : g.declare head = g := by
  simp [declare, hh]

theorem heads_declare :
    (g.declare head).heads = if head ∈ g.heads then g.heads else g.heads ++ [head] := by
  by_cases hh : head ∈ g.heads
  · simp [declare, hh]
  · rw [if_neg hh]
    simp [declare, hh]
    simp [heads]

@[simp] theorem mem_heads_declare :
    other ∈ (g.declare head).heads ↔ other ∈ g.heads ∨ other = head := by
  rw [heads_declare]
  by_cases hh : head ∈ g.heads
  · rw [if_pos hh]
    exact ⟨Or.inl, fun ho => ho.elim id (· ▸ hh)⟩
  · simp [hh]

@[simp] theorem productions_declare : (g.declare head).productions other = g.productions other := by
  by_cases hh : head ∈ g.heads
  · rw [declare_of_mem hh]
  · have he : (g.declare head).entries = g.entries ++ [(head, .empty)] := by simp [declare, hh]
    unfold productions find?
    rw [he, List.lookup_append]
    cases hl : g.entries.lookup other with
    | some set => rfl
    | none =>
      by_cases ho : other = head
      · subst ho; simp
      · have hb : (other == head) = false := by simpa using ho
        simp [List.lookup_cons, hb]

theorem heads_adjust {f : OrderedSet Production → OrderedSet Production} :
    (g.adjust head f).heads = g.heads := by
  unfold heads adjust
  rw [List.map_map]
  apply List.map_congr_left
  intro entry _
  by_cases he : entry.1 = head <;> simp [he]

theorem find?_adjust {f : OrderedSet Production → OrderedSet Production} :
    (g.adjust head f).find? other =
      if other = head then (g.find? other).map f else g.find? other := by
  simp only [find?, adjust]
  generalize g.entries = entries
  induction entries with
  | nil => simp
  | cons entry rest ih =>
    obtain ⟨name, set⟩ := entry
    simp only [List.map_cons]
    by_cases he : name = head
    · subst he
      by_cases ho : other = name
      · subst ho; simp
      · have hb : (other == name) = false := by simpa using ho
        simpa [List.lookup_cons, hb, ho] using ih
    · by_cases hn : other = name
      · subst hn; simp [he]
      · have hb : (other == name) = false := by simpa using hn
        simpa [List.lookup_cons, hb, he] using ih

theorem productions_adjust_of_ne {f : OrderedSet Production → OrderedSet Production}
    (hne : other ≠ head) : (g.adjust head f).productions other = g.productions other := by
  unfold productions
  rw [find?_adjust, if_neg hne]

theorem productions_adjust_self {f : OrderedSet Production → OrderedSet Production}
    {set : OrderedSet Production} (hs : g.find? head = some set) :
    (g.adjust head f).productions head = (f set).toList := by
  unfold productions
  rw [find?_adjust, if_pos rfl, hs]
  rfl

-- ---------------------------------------------------------------------------
-- Operations that answer
-- ---------------------------------------------------------------------------

theorem adjust_congr {f f' : OrderedSet Production → OrderedSet Production}
    (h : ∀ set, g.find? head = some set → f set = f' set) : g.adjust head f = g.adjust head f' := by
  refine ext_entries (List.map_congr_left ?_)
  rintro ⟨name, set⟩ hs
  by_cases hn : name = head
  · subst hn
    rw [if_pos rfl, if_pos rfl, h set (find?_eq_some_iff.mpr hs)]
  · rw [if_neg hn, if_neg hn]

theorem adjust_id : g.adjust head id = g := by
  refine ext_entries ((List.map_congr_left ?_).trans (List.map_id _))
  rintro ⟨name, set⟩ _
  by_cases hn : name = head <;> simp [hn]

theorem snd_tryAdjust {f : OrderedSet Production → Bool × OrderedSet Production} :
    (g.tryAdjust head f).2 = g.adjust head fun set => (f set).2 := by
  unfold tryAdjust
  cases he : g.find? head with
  | none =>
    refine adjust_id.symm.trans (adjust_congr fun set hs => ?_)
    rw [he] at hs
    cases hs
  | some set =>
    show g.adjust head (fun _ => (f set).2) = _
    refine adjust_congr fun other ho => ?_
    rw [he, Option.some.injEq] at ho
    rw [ho]

/-- An operation answers for the list of productions, which is empty where there is no entry. -/
theorem fst_tryAdjust {f : OrderedSet Production → Bool × OrderedSet Production}
    {P : List Production → Prop} (hnil : ¬ P []) (hf : ∀ set, (f set).1 = true ↔ P set.toList) :
    (g.tryAdjust head f).1 = true ↔ P (g.productions head) := by
  unfold tryAdjust productions
  cases g.find? head with
  | none => exact iff_of_false Bool.false_ne_true hnil
  | some set => exact hf set

-- ---------------------------------------------------------------------------
-- Add
-- ---------------------------------------------------------------------------

theorem add_eq : g.add head p = (g.declare head).adjust head (·.insert p) := snd_tryAdjust

theorem heads_add :
    (g.add head p).heads = if head ∈ g.heads then g.heads else g.heads ++ [head] := by
  rw [add_eq, heads_adjust, heads_declare]

theorem heads_add_of_mem (hh : head ∈ g.heads) : (g.add head p).heads = g.heads := by
  rw [heads_add, if_pos hh]

@[simp] theorem mem_heads_add : other ∈ (g.add head p).heads ↔ other ∈ g.heads ∨ other = head := by
  rw [add_eq, heads_adjust, mem_heads_declare]

theorem productions_add_of_ne (hne : other ≠ head) :
    (g.add head p).productions other = g.productions other := by
  rw [add_eq, productions_adjust_of_ne hne, productions_declare]

theorem find?_declare_self (g : Grammar) (head : String) :
    ∃ set, (g.declare head).find? head = some set ∧ set.toList = g.productions head := by
  cases he : (g.declare head).find? head with
  | none => exact absurd (find?_eq_none_iff.mp he) (by simp)
  | some set =>
    refine ⟨set, rfl, ?_⟩
    have hd : (g.declare head).productions head = g.productions head := productions_declare
    rw [← hd, productions, he]

theorem productions_add_self :
    (g.add head p).productions head =
      if p ∈ g.productions head then g.productions head else g.productions head ++ [p] := by
  obtain ⟨set, hs, hl⟩ := find?_declare_self g head
  rw [add_eq, productions_adjust_self hs, ← hl]
  by_cases hp : p ∈ set.toList
  · rw [if_pos hp, OrderedSet.toList_insert_of_mem hp]
  · rw [if_neg hp, OrderedSet.toList_insert_of_not_mem hp]

@[simp] theorem fst_tryAdd : (g.tryAdd head p).1 = true ↔ p ∉ g.productions head := by
  obtain ⟨set, hs, hl⟩ := find?_declare_self g head
  rw [tryAdd, tryAdjust, hs, ← hl]
  exact OrderedSet.fst_tryInsert

@[simp] theorem mem_productions_add :
    q ∈ (g.add head p).productions other ↔
      q ∈ g.productions other ∨ other = head ∧ q = p := by
  by_cases ho : other = head
  · subst ho
    rw [productions_add_self]
    by_cases hp : p ∈ g.productions other
    · rw [if_pos hp]
      exact ⟨Or.inl, fun hq => hq.elim id fun hq => hq.2 ▸ hp⟩
    · simp [hp]
  · rw [productions_add_of_ne ho]
    simp [ho]

-- ---------------------------------------------------------------------------
-- Remove
-- ---------------------------------------------------------------------------

theorem remove_eq : g.remove head p = g.adjust head (·.erase p) := snd_tryAdjust

@[simp] theorem heads_remove : (g.remove head p).heads = g.heads := by
  rw [remove_eq, heads_adjust]

theorem productions_remove_of_ne (hne : other ≠ head) :
    (g.remove head p).productions other = g.productions other := by
  rw [remove_eq, productions_adjust_of_ne hne]

theorem productions_remove_self :
    (g.remove head p).productions head = (g.productions head).filter (· ≠ p) := by
  cases he : g.find? head with
  | none =>
    have hh := find?_eq_none_iff.mp he
    rw [productions_of_not_mem hh, productions_of_not_mem (by rwa [heads_remove]), List.filter_nil]
  | some set =>
    have hl : g.productions head = set.toList := by rw [productions, he]
    rw [hl, remove_eq, productions_adjust_self he, OrderedSet.toList_erase]

@[simp] theorem fst_tryRemove : (g.tryRemove head p).1 = true ↔ p ∈ g.productions head :=
  fst_tryAdjust (P := (p ∈ ·)) List.not_mem_nil fun _ => OrderedSet.fst_tryErase

@[simp] theorem mem_productions_remove :
    q ∈ (g.remove head p).productions other ↔
      q ∈ g.productions other ∧ ¬ (other = head ∧ q = p) := by
  by_cases ho : other = head
  · subst ho
    rw [productions_remove_self]
    simp
  · rw [productions_remove_of_ne ho]
    simp [ho]

-- ---------------------------------------------------------------------------
-- Replace
-- ---------------------------------------------------------------------------

theorem replace_eq : g.replace head p q = g.adjust head (·.replace p q) := snd_tryAdjust

@[simp] theorem heads_replace : (g.replace head p q).heads = g.heads := by
  rw [replace_eq, heads_adjust]

theorem productions_replace_of_ne (hne : other ≠ head) :
    (g.replace head p q).productions other = g.productions other := by
  rw [replace_eq, productions_adjust_of_ne hne]

theorem productions_replace_self :
    (g.replace head p q).productions head =
      if p ∈ g.productions head then OrderedSet.supplant p q (g.productions head)
      else g.productions head := by
  cases he : g.find? head with
  | none =>
    have hh := find?_eq_none_iff.mp he
    rw [productions_of_not_mem hh, productions_of_not_mem (by rwa [heads_replace])]
    simp
  | some set =>
    have hl : g.productions head = set.toList := by rw [productions, he]
    rw [hl, replace_eq, productions_adjust_self he]
    split
    · exact OrderedSet.toList_replace_of_mem ‹_›
    · rw [OrderedSet.replace_of_not_mem ‹_›]

@[simp] theorem fst_tryReplace : (g.tryReplace head p q).1 = true ↔ p ∈ g.productions head :=
  fst_tryAdjust (P := (p ∈ ·)) List.not_mem_nil fun _ => OrderedSet.fst_tryReplace

-- ---------------------------------------------------------------------------
-- Lists of rules
-- ---------------------------------------------------------------------------

theorem mem_productions_addAll {rules : List Rule} :
    q ∈ (g.addAll rules).productions other ↔ q ∈ g.productions other ∨ (other, q) ∈ rules := by
  induction rules generalizing g with
  | nil => simp [addAll]
  | cons rule rest ih =>
    have h := ih (g := g.add rule.1 rule.2)
    simp only [addAll, List.foldl_cons] at h ⊢
    rw [h, mem_productions_add, or_assoc, List.mem_cons, Prod.ext_iff]

@[simp] theorem mem_heads_addAll {rules : List Rule} :
    other ∈ (g.addAll rules).heads ↔ other ∈ g.heads ∨ other ∈ rules.map Prod.fst := by
  induction rules generalizing g with
  | nil => simp [addAll]
  | cons rule rest ih =>
    have h := ih (g := g.add rule.1 rule.2)
    simp only [addAll, List.foldl_cons] at h ⊢
    rw [h, mem_heads_add, or_assoc, List.map_cons, List.mem_cons]

theorem mem_productions_removeAll {rules : List Rule} :
    q ∈ (g.removeAll rules).productions other ↔ q ∈ g.productions other ∧ (other, q) ∉ rules := by
  induction rules generalizing g with
  | nil => simp [removeAll]
  | cons rule rest ih =>
    have h := ih (g := g.remove rule.1 rule.2)
    simp only [removeAll, List.foldl_cons] at h ⊢
    rw [h, mem_productions_remove, and_assoc, List.mem_cons, Prod.ext_iff, not_or]

@[simp] theorem heads_removeAll {rules : List Rule} : (g.removeAll rules).heads = g.heads := by
  induction rules generalizing g with
  | nil => rfl
  | cons rule rest ih =>
    have h := ih (g := g.remove rule.1 rule.2)
    simp only [removeAll, List.foldl_cons] at h ⊢
    rw [h, heads_remove]

theorem heads_addAll_of_subset {rules : List Rule} (hr : ∀ rule ∈ rules, rule.1 ∈ g.heads) :
    (g.addAll rules).heads = g.heads := by
  induction rules generalizing g with
  | nil => rfl
  | cons rule rest ih =>
    have hh := heads_add_of_mem (g := g) (p := rule.2) (hr rule List.mem_cons_self)
    have h := ih (g := g.add rule.1 rule.2) fun r hm => by
      rw [hh]; exact hr r (List.mem_cons_of_mem _ hm)
    simp only [addAll, List.foldl_cons] at h ⊢
    rw [h, hh]

-- ---------------------------------------------------------------------------
-- Sameness
-- ---------------------------------------------------------------------------

theorem same_iff : g.Same h ↔
    ((∀ head ∈ g.heads, head ∈ h.heads) ∧ (∀ head ∈ h.heads, head ∈ g.heads)) ∧
      (∀ rule ∈ g.rules, rule ∈ h.rules) ∧ ∀ rule ∈ h.rules, rule ∈ g.rules := by
  constructor
  · rintro ⟨hh, hp⟩
    refine ⟨⟨fun a => (hh a).mp, fun a => (hh a).mpr⟩, ?_, ?_⟩ <;>
      · rintro ⟨a, q⟩ hr
        rw [mem_rules_iff] at hr ⊢
        simpa [hp] using hr
  · rintro ⟨⟨h₁, h₂⟩, h₃, h₄⟩
    refine ⟨fun a => ⟨h₁ a, h₂ a⟩, fun a q => ⟨fun hq => ?_, fun hq => ?_⟩⟩
    · exact mem_rules_iff.mp (h₃ (a, q) (mem_rules_iff.mpr hq))
    · exact mem_rules_iff.mp (h₄ (a, q) (mem_rules_iff.mpr hq))

instance : Decidable (g.Same h) := decidable_of_iff _ same_iff.symm

theorem Same.symm (hs : g.Same h) : h.Same g :=
  ⟨fun a => (hs.1 a).symm, fun a q => (hs.2 a q).symm⟩

end Grammar
end ContextFree
