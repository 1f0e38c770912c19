import ContextFree.Grammar.Lemmas
import ContextFree.Proofs.FirstOccurrences

/-!
# The number of rules

Adding a rule makes a grammar larger by one if the rule is new and leaves it as
it is otherwise, so a list of rules adds as many as are new when their turn
comes (`size_addAll`). Removing rules that are there makes it smaller by as many
(`size_removeAll`).
-/

namespace ContextFree.Grammar

variable {g : Grammar} {head : String} {p : Production} {rules : List Rule}

theorem add_of_mem (hp : p ∈ g.productions head) : g.add head p = g := by
  have hheads := heads_add_of_mem (p := p) (mem_heads_of_mem_productions hp)
  refine ext_views hheads fun other _ => ?_
  by_cases ho : other = head
  · subst ho
    simp [productions_add_self, hp]
  · simp [productions_add_of_ne ho]

theorem rules_add_perm (hp : p ∉ g.productions head) :
    (g.add head p).rules.Perm (g.rules ++ [(head, p)]) := by
  refine (List.perm_ext_iff_of_nodup (nodup_rules _) ?_).mpr ?_
  · have hnew : (head, p) ∉ g.rules := by simpa using hp
    refine List.nodup_append.mpr ⟨nodup_rules g, List.pairwise_singleton _ _, ?_⟩
    rintro rule hr _ hm rfl
    exact hnew (List.mem_singleton.mp hm ▸ hr)
  · rintro ⟨other, q⟩
    simp

/-- How many rules of a list are answered as new when they are added one after the other. -/
def gains (g : Grammar) : List Rule → Nat
  | [] => 0
  | (head, p) :: rules =>
    (if (g.tryAdd head p).1 then 1 else 0) + (g.add head p).gains rules

theorem size_add (g : Grammar) (head : String) (p : Production) :
    (g.add head p).size = g.size + if (g.tryAdd head p).1 then 1 else 0 := by
  by_cases hp : p ∈ g.productions head
  · simp [add_of_mem hp, hp]
  · simpa [size, hp] using (rules_add_perm hp).length_eq

theorem size_addAll (g : Grammar) (rules : List Rule) :
    (g.addAll rules).size = g.size + g.gains rules := by
  induction rules generalizing g with
  | nil => rfl
  | cons rule rules ih =>
    obtain ⟨head, p⟩ := rule
    have h := ih (g.add head p)
    simp only [addAll, List.foldl_cons] at h ⊢
    rw [h, size_add, gains, Nat.add_assoc]

theorem gains_of_new (hn : rules.Nodup) (hr : ∀ rule ∈ rules, rule ∉ g.rules) :
    g.gains rules = rules.length := by
  induction rules generalizing g with
  | nil => rfl
  | cons rule rules ih =>
    obtain ⟨head, p⟩ := rule
    rw [List.nodup_cons] at hn
    have hp : p ∉ g.productions head := by simpa using hr (head, p) List.mem_cons_self
    have hrest : ∀ rule ∈ rules, rule ∉ (g.add head p).rules := by
      rintro ⟨other, q⟩ hm hq
      rw [mem_rules_iff, mem_productions_add] at hq
      rcases hq with hq | ⟨rfl, rfl⟩
      · exact hr _ (List.mem_cons_of_mem _ hm) (mem_rules_iff.mpr hq)
      · exact hn.1 hm
    simp [gains, hp, ih hn.2 hrest, Nat.add_comm]

theorem size_removeAll (hn : rules.Nodup) (hr : ∀ rule ∈ rules, rule ∈ g.rules) :
    (g.removeAll rules).size + rules.length = g.size := by
  have hperm : ((g.removeAll rules).rules ++ rules).Perm g.rules := by
    refine (List.perm_ext_iff_of_nodup ?_ g.nodup_rules).mpr ?_
    · refine List.nodup_append.mpr ⟨nodup_rules _, hn, ?_⟩
      rintro ⟨other, q⟩ hq _ hm rfl
      exact (mem_productions_removeAll.mp (mem_rules_iff.mp hq)).2 hm
    · rintro ⟨other, q⟩
      rw [List.mem_append, mem_rules_iff, mem_productions_removeAll, mem_rules_iff]
      have hin : (other, q) ∈ rules → q ∈ g.productions other := fun hm =>
        mem_rules_iff.mp (hr _ hm)
      by_cases hm : (other, q) ∈ rules <;> simp [hm, hin]
  simpa [size] using hperm.length_eq

theorem addAll_append (g : Grammar) (rules others : List Rule) :
    g.addAll (rules ++ others) = (g.addAll rules).addAll others :=
  List.foldl_append

theorem addAll_eraseDups (g : Grammar) (head : String) (ps : List Production) :
    g.addAll (ps.eraseDups.map fun p => (head, p)) = g.addAll (ps.map fun p => (head, p)) := by
  induction ps using List.reverseRecOn with
  | nil => rfl
  | append_singleton ps p ih =>
    rw [OrderedSet.eraseDups_concat, List.map_append, addAll_append]
    split
    · rename_i hp
      have hold : p ∈ (g.addAll (ps.map fun p => (head, p))).productions head := by
        rw [mem_productions_addAll]
        exact Or.inr (List.mem_map_of_mem hp)
      rw [ih]
      exact (add_of_mem hold).symm
    · rw [List.map_append, addAll_append, ih]

theorem addAll_flatMap_eraseDups (g : Grammar) (heads : List String)
    (gain : String → List Production) :
    g.addAll (heads.flatMap fun head => (gain head).eraseDups.map fun p => (head, p)) =
      g.addAll (heads.flatMap fun head => (gain head).map fun p => (head, p)) := by
  induction heads generalizing g with
  | nil => rfl
  | cons head heads ih =>
    simp only [List.flatMap_cons, addAll_append, addAll_eraseDups, ih]

end ContextFree.Grammar
