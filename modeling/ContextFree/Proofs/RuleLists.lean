import ContextFree.Proofs.Words
import Mathlib.Data.List.Flatten
import Mathlib.Data.List.Nodup

/-!
# The rules of a grammar as one list

A production under a new head comes behind all other rules, and a new
production stands where the one it replaces stood. So the list of rules says
what has become of every rule, in order, and `symbols`, all right-hand sides
one behind the other, how often each symbol occurs.
-/

namespace ContextFree.Grammar

variable {g h : Grammar} {head name : String} {p q : Production} {s : Symbol}

-- ---------------------------------------------------------------------------
-- Two edits
-- ---------------------------------------------------------------------------

theorem rules_add_of_not_mem (hn : head ∉ g.heads) :
    (g.add head p).rules = g.rules ++ [(head, p)] := by
  have hold : ∀ other ∈ g.heads, ((g.add head p).productions other).map (fun q => (other, q)) =
      (g.productions other).map fun q => (other, q) := by
    intro other ho
    have hne : other ≠ head := fun he => hn (he ▸ ho)
    rw [productions_add_of_ne hne]
  rw [rules_eq_flatMap, rules_eq_flatMap, heads_add, if_neg hn, List.flatMap_append,
    List.flatMap_congr hold, List.flatMap_singleton, productions_add_self,
    productions_of_not_mem hn]
  rfl

theorem productions_replace (hq : q ∉ g.productions head) (other : String) :
    (g.replace head p q).productions other =
      (g.productions other).map fun r => if other = head ∧ r = p then q else r := by
  by_cases ho : other = head
  · subst ho
    rw [productions_replace_self]
    split
    · rw [OrderedSet.supplant_of_not_mem (g.nodup_productions other) hq]
      simp
    · rename_i hp
      have hne : ∀ r ∈ g.productions other, (if other = other ∧ r = p then q else r) = r :=
        fun r hr => if_neg fun h : other = other ∧ r = p => hp (h.2 ▸ hr)
      rw [List.map_congr_left hne, List.map_id']
  · rw [productions_replace_of_ne ho]
    simp [ho]

theorem rules_replace (hq : q ∉ g.productions head) : (g.replace head p q).rules =
    g.rules.map fun rule => if rule = (head, p) then (head, q) else rule := by
  rw [rules_eq_flatMap, rules_eq_flatMap, heads_replace, List.map_flatMap]
  refine List.flatMap_congr fun other _ => ?_
  rw [productions_replace hq, List.map_map, List.map_map]
  refine List.map_congr_left fun r _ => ?_
  by_cases h : other = head ∧ r = p
  · obtain ⟨rfl, rfl⟩ := h
    simp
  · simp [h]

theorem addAll_of_new {rules : List Rule} (hn : (rules.map Prod.fst).Nodup)
    (hf : ∀ rule ∈ rules, rule.1 ∉ g.heads) :
    (g.addAll rules).heads = g.heads ++ rules.map Prod.fst ∧
      (g.addAll rules).rules = g.rules ++ rules := by
  induction rules generalizing g with
  | nil => simp [addAll]
  | cons rule rules ih =>
    rw [List.map_cons, List.nodup_cons] at hn
    have hrule := hf rule List.mem_cons_self
    have hrest : ∀ other ∈ rules, other.1 ∉ (g.add rule.1 rule.2).heads := by
      intro other ho hm
      rcases mem_heads_add.mp hm with hm | he
      · exact hf other (List.mem_cons_of_mem _ ho) hm
      · exact hn.1 (he ▸ List.mem_map_of_mem ho)
    obtain ⟨hheads, hrules⟩ := ih hn.2 hrest
    rw [heads_add, if_neg hrule, List.append_assoc, List.singleton_append] at hheads
    rw [rules_add_of_not_mem hrule, List.append_assoc, List.singleton_append] at hrules
    exact ⟨hheads, hrules⟩

theorem heads_declare_eq (g : Grammar) (head : String) :
    (g.declare head).heads = (g.heads ++ [head]).eraseDups := by
  have hn : g.heads.Nodup := g.nodup_heads
  rw [heads_declare, List.eraseDups_append, OrderedSet.eraseDups_of_nodup hn]
  split <;> simp [List.removeAll, List.eraseDups_cons, *]

/-- What a head has is followed by what the new rules bring it, each at its first occurrence. -/
theorem productions_addAll (rules : List Rule) : (g.addAll rules).productions name =
    (g.productions name ++ (rules.filter (·.1 = name)).map Prod.snd).eraseDups := by
  induction rules generalizing g with
  | nil => simp [addAll, OrderedSet.eraseDups_of_nodup (g.nodup_productions name)]
  | cons rule rules ih =>
    have h := ih (g := g.add rule.1 rule.2)
    simp only [addAll, List.foldl_cons] at h ⊢
    rw [h]
    by_cases hn : rule.1 = name
    · subst hn
      rw [productions_add_self]
      simp only [decide_true, List.filter_cons_of_pos, List.map_cons]
      split
      · rename_i hm
        rw [OrderedSet.eraseDups_append_cons_of_mem hm]
      · rw [List.append_assoc, List.singleton_append]
    · rw [productions_add_of_ne (Ne.symm hn), List.filter_cons_of_neg (by simpa using hn)]

theorem productions_removeAll (rules : List Rule) : (g.removeAll rules).productions name =
    (g.productions name).filter fun p => (name, p) ∉ rules := by
  induction rules generalizing g with
  | nil => simp [removeAll]
  | cons rule rules ih =>
    obtain ⟨head, p⟩ := rule
    have h := ih (g := g.remove head p)
    simp only [removeAll, List.foldl_cons] at h ⊢
    rw [h]
    by_cases hn : name = head
    · subst hn
      rw [productions_remove_self, List.filter_filter]
      exact List.filter_congr fun q _ => by simp [Bool.and_comm]
    · rw [productions_remove_of_ne hn]
      exact List.filter_congr fun q _ => by simp [hn]

/-- A list of rules that is put together head by head has for each head what was put in for it. -/
theorem map_snd_filter_flatMap {heads : List String} (hn : heads.Nodup)
    {gain : String → List Production} (hg : name ∈ heads ∨ gain name = []) :
    ((heads.flatMap fun head => (gain head).map fun p => (head, p)).filter
      (·.1 = name)).map Prod.snd = gain name := by
  induction heads with
  | nil => simpa using hg.symm
  | cons head heads ih =>
    rw [List.nodup_cons] at hn
    rw [List.flatMap_cons, List.filter_append, List.map_append]
    by_cases h : head = name
    · subst h
      have hrest : ((heads.flatMap fun other => (gain other).map fun p => (other, p)).filter
          (·.1 = head)) = [] := by
        simp only [List.filter_eq_nil_iff, List.mem_flatMap, List.mem_map, decide_eq_true_eq]
        rintro _ ⟨other, ho, p, _, rfl⟩ rfl
        exact hn.1 ho
      simp [hrest, List.filter_map, Function.comp_def]
    · rw [ih hn.2 (hg.imp_left fun hm => (List.mem_cons.mp hm).resolve_left (Ne.symm h))]
      simp [List.filter_map, Function.comp_def, h]

theorem productions_eq_filter (g : Grammar) (head : String) :
    g.productions head = (g.rules.filter (·.1 = head)).map Prod.snd := by
  have hgain : head ∈ g.heads ∨ g.productions head = [] := by
    by_cases hh : head ∈ g.heads
    · exact Or.inl hh
    · exact Or.inr (productions_of_not_mem hh)
  rw [rules_eq_flatMap]
  exact (map_snd_filter_flatMap g.nodup_heads hgain).symm

theorem ext_rules (hh : g.heads = h.heads) (hr : g.rules = h.rules) : g = h :=
  ext_views hh fun head _ => by rw [productions_eq_filter, productions_eq_filter, hr]

/-- What has become of the rules of a head is what has become of its productions, if the rules
that have come behind them belong to other heads. -/
theorem productions_of_rules {f : Rule → Rule} {more : List Rule}
    (hr : h.rules = g.rules.map f ++ more) (hf : ∀ r, (f r).1 = r.1)
    (hmore : ∀ r ∈ more, r.1 ≠ head) :
    h.productions head = (g.productions head).map fun p => (f (head, p)).2 := by
  have hnone : more.filter (·.1 = head) = [] :=
    List.filter_eq_nil_iff.mpr fun r hm => by simpa using hmore r hm
  have hkeep : (g.rules.map f).filter (·.1 = head) = (g.rules.filter (·.1 = head)).map f := by
    rw [List.filter_map]
    congr 1
    exact List.filter_congr fun r _ => by simp [hf]
  rw [productions_eq_filter, productions_eq_filter, hr, List.filter_append, hnone, List.append_nil,
    hkeep, List.map_map, List.map_map]
  refine List.map_congr_left fun r hm => ?_
  obtain rfl : r.1 = head := by simpa using (List.mem_filter.mp hm).2
  rfl

theorem productions_eq_singleton (h : ∀ q, q ∈ g.productions head ↔ q = p) :
    g.productions head = [p] := by
  have hperm : (g.productions head).Perm [p] :=
    (List.perm_ext_iff_of_nodup (g.nodup_productions head) (List.nodup_singleton p)).mpr
      (by simpa using h)
  exact List.perm_singleton.mp hperm

-- ---------------------------------------------------------------------------
-- Symbols
-- ---------------------------------------------------------------------------

def symbols (g : Grammar) : List Symbol := g.rules.flatMap Prod.snd

def occurrences (g : Grammar) (name : String) : Nat := g.symbols.count (.nonterminal name)

theorem mem_symbols : s ∈ g.symbols ↔ ∃ head, ∃ p ∈ g.productions head, s ∈ p := by
  simp only [symbols, List.mem_flatMap, Prod.exists, mem_rules_iff]

theorem mentions_iff_symbols :
    g.Mentions name ↔ name ∈ g.heads ∨ .nonterminal name ∈ g.symbols := by
  simp only [mentions_iff, symbols, List.mem_flatMap]

theorem Same.mentions_iff (hs : g.Same h) : g.Mentions name ↔ h.Mentions name := by
  rw [mentions_iff_symbols, mentions_iff_symbols, mem_symbols, mem_symbols, hs.1 name]
  simp only [hs.2]

theorem Same.rules_perm (hs : g.Same h) : g.rules.Perm h.rules := by
  refine (List.perm_ext_iff_of_nodup g.nodup_rules h.nodup_rules).mpr ?_
  rintro ⟨head, p⟩
  rw [mem_rules_iff, mem_rules_iff, hs.2 head p]

end ContextFree.Grammar
