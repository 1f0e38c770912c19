import ContextFree.Grammar.Edit
import ContextFree.Proofs.RuleCounts
import ContextFree.Proofs.Words

/-!
# Histories of edits

The heads of a grammar that has been edited stand in the order in which they
were first given an entry (`heads_applyAll`), and the productions of a head are
what its own edits make of the empty list (`productions_applyAll`): the edits of
other heads do not show.

Of the four edits replacing is the one with cases, since the new production may
be there already, before or behind the old one. `Supplanted` covers them all:
the new production comes in the place of the old one, and of a production that
would then stand twice the first occurrence is kept.
-/

namespace ContextFree

-- ---------------------------------------------------------------------------
-- Supplanting
-- ---------------------------------------------------------------------------

namespace OrderedSet

variable {α : Type} [DecidableEq α] [BEq α] [LawfulBEq α] {old new a : α} {xs : List α}

theorem idxOf_supplant : (supplant old new xs).idxOf new = min (xs.idxOf old) (xs.idxOf new) := by
  induction xs with
  | nil => rfl
  | cons a rest ih =>
    rw [supplant]
    by_cases ha : a = old ∨ a = new
    · rw [if_pos ha]
      rcases ha with rfl | rfl <;> simp
    · rw [if_neg ha]
      rw [not_or] at ha
      rw [List.idxOf_cons_ne _ ha.2, List.idxOf_cons_ne _ ha.1, List.idxOf_cons_ne _ ha.2, ih,
        Nat.succ_min_succ]

/-- How a list is left when `new` has come in the place of `old`. -/
structure Supplanted (old new : α) (before after : List α) : Prop where
  list : after = (before.replace old new).eraseDups
  place : after.idxOf new = min (before.idxOf old) (before.idxOf new)
  others : after.filter (· ≠ new) = before.filter fun a => a ≠ old ∧ a ≠ new

theorem supplanted (hn : xs.Nodup) (ho : old ∈ xs) :
    Supplanted old new xs (supplant old new xs) where
  list := supplant_eq hn ho
  place := idxOf_supplant
  others := by
    rw [supplant_eq hn ho, filter_eraseDups, filter_replace hn, eraseDups_of_nodup (hn.filter _)]

end OrderedSet

-- ---------------------------------------------------------------------------
-- Removing and replacing
-- ---------------------------------------------------------------------------

namespace Grammar

variable {g : Grammar} {head : String} {p old new : Production}

theorem remove_of_not_mem (hp : p ∉ g.productions head) : g.remove head p = g := by
  refine ext_views heads_remove fun other _ => ?_
  by_cases ho : other = head
  · subst ho
    rw [productions_remove_self, List.filter_eq_self]
    intro q hq
    simpa using fun he : q = p => hp (he ▸ hq)
  · exact productions_remove_of_ne ho

theorem replace_of_not_mem (hp : old ∉ g.productions head) : g.replace head old new = g := by
  refine ext_views heads_replace fun other _ => ?_
  by_cases ho : other = head
  · subst ho
    rw [productions_replace_self, if_neg hp]
  · exact productions_replace_of_ne ho

theorem size_remove (g : Grammar) (head : String) (p : Production) :
    (g.remove head p).size + (if (g.tryRemove head p).1 then 1 else 0) = g.size := by
  by_cases hp : p ∈ g.productions head
  · have hrule : ∀ rule ∈ [(head, p)], rule ∈ g.rules := by simpa using hp
    rw [if_pos (fst_tryRemove.mpr hp)]
    exact size_removeAll (List.pairwise_singleton _ _) hrule
  · rw [if_neg (mt fst_tryRemove.mp hp), remove_of_not_mem hp, Nat.add_zero]

theorem rules_replace_perm (hp : old ∈ g.productions head) :
    (g.replace head old new).rules.Perm ((g.remove head old).add head new).rules := by
  refine (List.perm_ext_iff_of_nodup (nodup_rules _) (nodup_rules _)).mpr ?_
  rintro ⟨other, q⟩
  simp only [mem_rules_iff, mem_productions_replace, mem_productions_add, mem_productions_remove,
    hp, true_and]

theorem size_replace (hp : old ∈ g.productions head) :
    (g.replace head old new).size + (if new ≠ old ∧ new ∈ g.productions head then 1 else 0) =
      g.size := by
  have hperm : (g.replace head old new).size = ((g.remove head old).add head new).size :=
    (rules_replace_perm hp).length_eq
  have hremove := g.size_remove head old
  rw [if_pos (fst_tryRemove.mpr hp)] at hremove
  rw [hperm, size_add, ← hremove]
  by_cases hn : new ≠ old ∧ new ∈ g.productions head
  · have hold : ¬ ((g.remove head old).tryAdd head new).1 = true := by simp [hn]
    rw [if_pos hn, if_neg hold]
  · have hnew : ((g.remove head old).tryAdd head new).1 = true := by
      simpa [and_comm] using hn
    rw [if_neg hn, if_pos hnew]

theorem productions_remove_eq_erase (g : Grammar) (head : String) (p : Production) :
    (g.remove head p).productions head = (g.productions head).erase p := by
  rw [productions_remove_self, (g.nodup_productions head).erase_eq_filter]
  exact List.filter_congr fun q _ => by by_cases h : q = p <;> simp [h]

theorem productions_replace_eq (g : Grammar) (head : String) (old new : Production) :
    (g.replace head old new).productions head =
      ((g.productions head).replace old new).eraseDups := by
  rw [productions_replace_self]
  split
  · exact OrderedSet.supplant_eq (g.nodup_productions head) ‹_›
  · rw [List.replace_of_not_mem ‹_›, OrderedSet.eraseDups_of_nodup (g.nodup_productions head)]

end Grammar

-- ---------------------------------------------------------------------------
-- What an edit does to the views
-- ---------------------------------------------------------------------------

namespace Edit

variable {edit : Edit} {edits : List Edit} {g : Grammar} {head : String}

def opened : Edit → Option String
  | add head _ => some head
  | remove _ _ => none
  | replace _ _ _ => none
  | declare head => some head

def onProductions : Edit → List Production → List Production
  | add _ p, ps => if p ∈ ps then ps else ps ++ [p]
  | remove _ p, ps => ps.erase p
  | replace _ old new, ps => (ps.replace old new).eraseDups
  | declare _, ps => ps

theorem productions_apply (edit : Edit) (g : Grammar) :
    (edit.apply g).productions edit.head = edit.onProductions (g.productions edit.head) := by
  cases edit with
  | add head p => exact Grammar.productions_add_self
  | remove head p => exact Grammar.productions_remove_eq_erase g head p
  | replace head old new => exact Grammar.productions_replace_eq g head old new
  | declare head => exact Grammar.productions_declare

theorem heads_apply (edit : Edit) (g : Grammar) :
    (edit.apply g).heads = match edit.opened with
      | some head => if head ∈ g.heads then g.heads else g.heads ++ [head]
      | none => g.heads := by
  cases edit with
  | add head p => exact Grammar.heads_add
  | remove head p => exact Grammar.heads_remove
  | replace head old new => exact Grammar.heads_replace
  | declare head => exact Grammar.heads_declare

theorem heads_prefix_apply (edit : Edit) (g : Grammar) : g.heads <+: (edit.apply g).heads := by
  rw [heads_apply]
  cases edit.opened with
  | none => exact List.prefix_refl _
  | some head =>
    show g.heads <+: if head ∈ g.heads then g.heads else g.heads ++ [head]
    split
    · exact List.prefix_refl _
    · exact List.prefix_append _ _

-- ---------------------------------------------------------------------------
-- Histories
-- ---------------------------------------------------------------------------

theorem applyAll_concat (edits : List Edit) (edit : Edit) (g : Grammar) :
    applyAll (edits ++ [edit]) g = edit.apply (applyAll edits g) := by
  rw [applyAll, List.foldl_append]
  rfl

theorem heads_prefix_applyAll (edits : List Edit) (g : Grammar) :
    g.heads <+: (applyAll edits g).heads := by
  induction edits using List.reverseRecOn with
  | nil => exact List.prefix_refl _
  | append_singleton edits edit ih =>
    rw [applyAll_concat]
    exact ih.trans (heads_prefix_apply edit _)

theorem heads_applyAll (edits : List Edit) :
    (applyAll edits .empty).heads = (edits.filterMap opened).eraseDups := by
  induction edits using List.reverseRecOn with
  | nil => rfl
  | append_singleton edits edit ih =>
    rw [applyAll_concat, heads_apply, List.filterMap_append]
    cases ho : edit.opened with
    | none => simp [ho, ih]
    | some head =>
      have hlast : [edit].filterMap opened = [head] := by simp [ho]
      rw [hlast, OrderedSet.eraseDups_concat]
      simp only [ih, List.mem_eraseDups]

theorem productions_applyAll (edits : List Edit) (head : String) :
    (applyAll edits .empty).productions head =
      (edits.filter (·.head = head)).foldl (fun ps edit => edit.onProductions ps) [] := by
  induction edits using List.reverseRecOn with
  | nil => rfl
  | append_singleton edits edit ih =>
    rw [applyAll_concat, List.filter_append, List.foldl_append, ← ih]
    by_cases hh : edit.head = head
    · subst hh
      simpa using productions_apply edit (applyAll edits .empty)
    · simpa [hh] using productions_apply_of_ne (Ne.symm hh)

/-- What the four edits do, over every history. -/
theorem history_exact (edits : List Edit) :
    let g := applyAll edits .empty
    (g.heads = (edits.filterMap opened).eraseDups ∧ g.heads.Nodup ∧
      ∀ more, g.heads <+: (applyAll more g).heads) ∧
    (∀ head, (g.productions head).Nodup ∧ g.productions head =
      (edits.filter (·.head = head)).foldl (fun ps edit => edit.onProductions ps) []) ∧
    (∀ (edit : Edit) (other : String), other ≠ edit.head →
      (edit.apply g).productions other = g.productions other) ∧
    (∀ head p, let ps := g.productions head
      (add head p).answer g = some (decide (p ∉ ps)) ∧
      (g.add head p).productions head = (if p ∈ ps then ps else ps ++ [p]) ∧
      (g.add head p).size = g.size + if (g.tryAdd head p).1 then 1 else 0) ∧
    (∀ head p, let ps := g.productions head
      (remove head p).answer g = some (decide (p ∈ ps)) ∧
      (g.remove head p).productions head = ps.erase p ∧
      (g.remove head p).size + (if (g.tryRemove head p).1 then 1 else 0) = g.size) ∧
    (∀ head old new, let ps := g.productions head
      (replace head old new).answer g = some (decide (old ∈ ps)) ∧
      (old ∉ ps → g.replace head old new = g) ∧
      (old ∈ ps →
        OrderedSet.Supplanted old new ps ((g.replace head old new).productions head) ∧
        (g.replace head old new).size + (if new ≠ old ∧ new ∈ ps then 1 else 0) = g.size)) ∧
    ∀ head, (g.declare head).productions head = g.productions head := by
  intro g
  refine ⟨⟨heads_applyAll edits, g.nodup_heads, fun more => heads_prefix_applyAll more g⟩,
    fun head => ⟨g.nodup_productions head, productions_applyAll edits head⟩,
    fun edit other hne => productions_apply_of_ne hne,
    fun head p => ⟨answer_add, Grammar.productions_add_self, Grammar.size_add g head p⟩,
    fun head p => ⟨answer_remove, Grammar.productions_remove_eq_erase g head p,
      g.size_remove head p⟩,
    fun head old new => ⟨answer_replace, fun hold => Grammar.replace_of_not_mem hold,
      fun hold => ?_⟩,
    fun head => Grammar.productions_declare⟩
  refine ⟨?_, Grammar.size_replace hold⟩
  rw [Grammar.productions_replace_self, if_pos hold]
  exact OrderedSet.supplanted (g.nodup_productions head) hold

/-- `c` stands behind `a` and comes in its place, so that the grammar has one production less; ε is
not there to be replaced, and `T` has no productions at all. -/
theorem history_exact_collapse :
    let a : Production := [.terminal "a"]
    let b : Production := [.nonterminal "B"]
    let c : Production := [.terminal "c"]
    let g := applyAll [.declare "B", .add "S" a, .add "S" b, .add "S" c, .add "S" a] .empty
    g.productions "S" = [a, b, c] ∧ (g.replace "S" a c).productions "S" = [c, b] ∧
      OrderedSet.Supplanted a c [a, b, c] [c, b] ∧ (g.replace "S" a c).size + 1 = g.size ∧
      g.replace "S" [] c = g ∧ (g.replace "S" a c).productions "B" = g.productions "B" ∧
      (replace "S" a c).answer g = some true ∧ (replace "T" a c).answer g = some false ∧
      (add "S" a).answer g = some false := by
  intro a b c g
  obtain ⟨-, -, hother, hadd, -, hreplace, -⟩ :=
    history_exact [.declare "B", .add "S" a, .add "S" b, .add "S" c, .add "S" a]
  have hbefore : g.productions "S" = [a, b, c] := by decide +kernel
  have hafter : (g.replace "S" a c).productions "S" = [c, b] := by decide +kernel
  have hold : a ∈ g.productions "S" := by decide +kernel
  have hnone : [] ∉ g.productions "S" := by decide +kernel
  have hcollapse : c ≠ a ∧ c ∈ g.productions "S" := by decide +kernel
  obtain ⟨hsupplanted, hsize⟩ := (hreplace "S" a c).2.2 hold
  rw [if_pos hcollapse] at hsize
  refine ⟨hbefore, hafter, ?_, hsize, (hreplace "S" [] c).2.1 hnone,
    hother (.replace "S" a c) "B" (by decide), (hreplace "S" a c).1.trans (by decide +kernel),
    (hreplace "T" a c).1.trans (by decide +kernel), (hadd "S" a).1.trans (by decide +kernel)⟩
  rw [← hbefore, ← hafter]
  exact hsupplanted

end Edit
end ContextFree
