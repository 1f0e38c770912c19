/-!
# Ordered sets

A finite set whose members stand in the order in which they were first put in.
Its view is the list `toList`, which never repeats a member; every operation
has one lemma that says what it does to that list.
-/

namespace ContextFree

@[ext] structure OrderedSet (α : Type) where
  toList : List α
  nodup : toList.Nodup

namespace OrderedSet

variable {α : Type} [DecidableEq α]

instance : DecidableEq (OrderedSet α) := fun s t =>
  decidable_of_iff (s.toList = t.toList) OrderedSet.ext_iff.symm

def empty {α : Type} : OrderedSet α := ⟨[], List.nodup_nil⟩

instance {α : Type} : Membership α (OrderedSet α) := ⟨fun s a => a ∈ s.toList⟩

instance (a : α) (s : OrderedSet α) : Decidable (a ∈ s) :=
  inferInstanceAs (Decidable (a ∈ s.toList))

def size {α : Type} (s : OrderedSet α) : Nat := s.toList.length

/-- Appends `a` unless it is a member; the answer is whether it was new. -/
def tryInsert (s : OrderedSet α) (a : α) : Bool × OrderedSet α :=
  if h : a ∈ s.toList then (false, s)
  else (true, ⟨s.toList ++ [a], by
    rw [List.nodup_append]
    exact ⟨s.nodup, List.pairwise_singleton _ a, fun b hb c hc hbc =>
      h (by rw [List.mem_singleton] at hc; exact hc ▸ hbc ▸ hb)⟩⟩)

def insert (s : OrderedSet α) (a : α) : OrderedSet α := (s.tryInsert a).2

/-- Takes `a` out, the others close up; the answer is whether it was there. -/
def tryErase (s : OrderedSet α) (a : α) : Bool × OrderedSet α :=
  if a ∈ s.toList then (true, ⟨s.toList.erase a, s.nodup.erase a⟩) else (false, s)

def erase (s : OrderedSet α) (a : α) : OrderedSet α := (s.tryErase a).2

/-- The members of a list, each at its first occurrence. -/
def ofList (xs : List α) : OrderedSet α := xs.foldl insert empty

/-- Hands out the members in turn. The pending one is taken each time, and put back by a member
that is not `old`. -/
def drain (old : α) : Option α → List α → List α
  | _, [] => []
  | none, a :: rest => a :: drain old none rest
  | some new, a :: rest =>
    if a = old then new :: drain old none rest else a :: drain old (some new) rest

theorem drain_none {old : α} (xs : List α) : drain old none xs = xs := by
  induction xs with
  | nil => rfl
  | cons a rest ih => rw [drain, ih]

theorem mem_of_mem_drain {old new b : α} {xs : List α} (hb : b ∈ drain old (some new) xs) :
    b ∈ xs ∨ b = new := by
  induction xs with
  | nil => exact Or.inl hb
  | cons a rest ih =>
    rw [drain, drain_none] at hb
    split at hb
    · exact (List.mem_cons.mp hb).symm.imp_left (List.mem_cons_of_mem _)
    · rcases List.mem_cons.mp hb with rfl | hb
      · exact Or.inl List.mem_cons_self
      · exact (ih hb).imp_left (List.mem_cons_of_mem _)

theorem nodup_drain {old new : α} {xs : List α} (hn : xs.Nodup) (h : new = old ∨ new ∉ xs) :
    (drain old (some new) xs).Nodup := by
  induction xs with
  | nil => exact List.nodup_nil
  | cons a rest ih =>
    rw [List.nodup_cons] at hn
    rw [drain, drain_none]
    split
    next ha =>
      refine List.nodup_cons.mpr ⟨?_, hn.2⟩
      rcases h with rfl | h
      · exact ha ▸ hn.1
      · exact mt (List.mem_cons_of_mem a) h
    next ha =>
      have hrest : new = old ∨ new ∉ rest := h.imp_right (mt (List.mem_cons_of_mem a))
      refine List.nodup_cons.mpr ⟨fun hm => ?_, ih hn.2 hrest⟩
      rcases mem_of_mem_drain hm with hm | rfl
      · exact hn.1 hm
      · exact h.elim ha fun h => h List.mem_cons_self

/-- Collects the members again with `new` in the place of `old`; the answer is whether `old` was
there. Where `new` does not come twice, they are collected without a look for what is there
already, which makes no difference (`tryReplace_eq`). -/
def tryReplace (s : OrderedSet α) (old new : α) : Bool × OrderedSet α :=
  if old ∈ s.toList then
    (true,
      if h : new = old ∨ new ∉ s.toList then ⟨drain old (some new) s.toList, nodup_drain s.nodup h⟩
      else ofList (drain old (some new) s.toList))
  else (false, s)

def replace (s : OrderedSet α) (old new : α) : OrderedSet α := (s.tryReplace old new).2

-- ---------------------------------------------------------------------------
-- The view
-- ---------------------------------------------------------------------------

@[simp] theorem mem_toList {α : Type} {s : OrderedSet α} {a : α} : a ∈ s.toList ↔ a ∈ s :=
  Iff.rfl

@[simp] theorem toList_empty {α : Type} : (empty : OrderedSet α).toList = [] := rfl

@[simp] theorem not_mem_empty {α : Type} (a : α) : a ∉ (empty : OrderedSet α) :=
  List.not_mem_nil

theorem fst_tryInsert {s : OrderedSet α} {a : α} : (s.tryInsert a).1 = true ↔ a ∉ s := by
  unfold tryInsert
  split
  next h => exact iff_of_false Bool.false_ne_true (not_not_intro h)
  next h => exact iff_of_true rfl h

theorem toList_insert_of_mem {s : OrderedSet α} {a : α} (h : a ∈ s) :
    (s.insert a).toList = s.toList := by
  simp [insert, tryInsert, h]

theorem toList_insert_of_not_mem {s : OrderedSet α} {a : α} (h : a ∉ s) :
    (s.insert a).toList = s.toList ++ [a] := by
  simp [insert, tryInsert, h]

@[simp] theorem mem_insert {s : OrderedSet α} {a b : α} : b ∈ s.insert a ↔ b ∈ s ∨ b = a := by
  by_cases h : a ∈ s
  · rw [← mem_toList, toList_insert_of_mem h]
    exact ⟨Or.inl, fun hb => hb.elim id (· ▸ h)⟩
  · rw [← mem_toList, toList_insert_of_not_mem h]
    simp

theorem fst_tryErase {s : OrderedSet α} {a : α} : (s.tryErase a).1 = true ↔ a ∈ s := by
  unfold tryErase
  split
  next h => exact iff_of_true rfl h
  next h => exact iff_of_false Bool.false_ne_true h

@[simp] theorem toList_erase (s : OrderedSet α) (a : α) :
    (s.erase a).toList = s.toList.filter (· ≠ a) := by
  have herase : s.toList.erase a = s.toList.filter (· ≠ a) := by
    rw [s.nodup.erase_eq_filter]
    exact List.filter_congr fun b _ => by by_cases h : b = a <;> simp [h]
  rw [← herase, erase, tryErase]
  split
  · rfl
  · rw [List.erase_of_not_mem ‹_›]

@[simp] theorem mem_erase {s : OrderedSet α} {a b : α} : b ∈ s.erase a ↔ b ∈ s ∧ b ≠ a := by
  rw [← mem_toList, toList_erase]
  simp

theorem mem_foldl_insert {xs : List α} {s : OrderedSet α} {b : α} :
    b ∈ xs.foldl insert s ↔ b ∈ s ∨ b ∈ xs := by
  induction xs generalizing s with
  | nil => simp
  | cons a xs ih => simp [ih, or_assoc]

@[simp] theorem mem_ofList {xs : List α} {b : α} : b ∈ ofList xs ↔ b ∈ xs := by
  simp [ofList, mem_foldl_insert]

@[simp] theorem ofList_nil : (ofList [] : OrderedSet α) = empty := rfl

theorem ofList_append_singleton (xs : List α) (a : α) :
    ofList (xs ++ [a]) = (ofList xs).insert a := by
  rw [ofList, List.foldl_append]
  rfl

-- ---------------------------------------------------------------------------
-- First occurrences
-- ---------------------------------------------------------------------------

section
variable [BEq α] [LawfulBEq α]

omit [DecidableEq α] in
theorem eraseDups_of_nodup {xs : List α} (h : xs.Nodup) : xs.eraseDups = xs := by
  induction xs with
  | nil => rfl
  | cons a xs ih =>
    rw [List.nodup_cons] at h
    have hne : ∀ b ∈ xs, (!b == a) = true := fun b hb => by
      simpa using fun hba : b = a => h.1 (hba ▸ hb)
    rw [List.eraseDups_cons, List.filter_eq_self.mpr hne, ih h.2]

omit [DecidableEq α] in
theorem eraseDups_append_cons_of_mem {a : α} {xs ys : List α} (h : a ∈ xs) :
    (xs ++ a :: ys).eraseDups = (xs ++ ys).eraseDups := by
  rw [List.eraseDups_append, List.eraseDups_append]
  simp [List.removeAll, h]

theorem toList_foldl_insert {xs : List α} {s : OrderedSet α} :
    (xs.foldl insert s).toList = (s.toList ++ xs).eraseDups := by
  induction xs generalizing s with
  | nil => rw [List.append_nil, eraseDups_of_nodup s.nodup, List.foldl_nil]
  | cons a xs ih =>
    rw [List.foldl_cons, ih]
    by_cases ha : a ∈ s
    · rw [toList_insert_of_mem ha, eraseDups_append_cons_of_mem ha]
    · rw [toList_insert_of_not_mem ha, List.append_assoc, List.singleton_append]

theorem toList_ofList (xs : List α) : (ofList xs).toList = xs.eraseDups := toList_foldl_insert

theorem nodup_eraseDups (xs : List α) : xs.eraseDups.Nodup := by
  rw [← toList_ofList]
  exact (ofList xs).nodup

theorem eraseDups_eraseDups_append (xs ys : List α) :
    (xs.eraseDups ++ ys).eraseDups = (xs ++ ys).eraseDups := by
  rw [List.eraseDups_append, List.eraseDups_append, eraseDups_of_nodup (nodup_eraseDups xs)]
  congr 2
  simp [List.removeAll]

end

theorem toList_ofList_of_nodup {xs : List α} (h : xs.Nodup) : (ofList xs).toList = xs := by
  rw [toList_ofList, eraseDups_of_nodup h]

-- ---------------------------------------------------------------------------
-- Replacing
-- ---------------------------------------------------------------------------

theorem tryReplace_eq (s : OrderedSet α) (old new : α) :
    s.tryReplace old new =
      if old ∈ s then (true, ofList (drain old (some new) s.toList)) else (false, s) := by
  rw [tryReplace]
  refine ite_congr rfl (fun _ => congrArg (Prod.mk true) ?_) fun _ => rfl
  split
  next hn => exact OrderedSet.ext (toList_ofList_of_nodup (nodup_drain s.nodup hn)).symm
  next => rfl

theorem fst_tryReplace {s : OrderedSet α} {old new : α} :
    (s.tryReplace old new).1 = true ↔ old ∈ s := by
  rw [tryReplace_eq]
  split
  next h => exact iff_of_true rfl h
  next h => exact iff_of_false Bool.false_ne_true h

/-- Puts `new` where the first of `old` and `new` stands and drops the other one. -/
def supplant (old new : α) : List α → List α
  | [] => []
  | a :: rest =>
    if a = old ∨ a = new then new :: rest.filter fun b => b ≠ old ∧ b ≠ new
    else a :: supplant old new rest

section
variable [BEq α] [LawfulBEq α] {old new a : α} {xs : List α}

omit [DecidableEq α] in
theorem replace_cons_of_ne (ha : a ≠ old) :
    (a :: xs).replace old new = a :: xs.replace old new := by
  have hb : (old == a) = false := by simpa using ha.symm
  rw [List.replace_cons, hb]

theorem drain_some (xs : List α) : drain old (some new) xs = xs.replace old new := by
  induction xs with
  | nil => rfl
  | cons a rest ih =>
    rw [drain, drain_none]
    by_cases ha : a = old
    · subst ha
      rw [if_pos rfl, List.replace_cons_self]
    · rw [if_neg ha, replace_cons_of_ne ha, ih]

theorem filter_replace (hn : xs.Nodup) :
    (xs.replace old new).filter (· ≠ new) = xs.filter fun b => b ≠ old ∧ b ≠ new := by
  -- a list without repetitions has no second `old` to be left over
  induction xs with
  | nil => rfl
  | cons a rest ih =>
    rw [List.nodup_cons] at hn
    by_cases ha : a = old
    · subst ha
      rw [List.replace_cons_self, List.filter_cons_of_neg (by simp),
        List.filter_cons_of_neg (by simp)]
      refine List.filter_congr fun b hb => ?_
      have hne : b ≠ a := fun he => hn.1 (he ▸ hb)
      simp [hne]
    · rw [replace_cons_of_ne ha, List.filter_cons, List.filter_cons, ih hn.2]
      simp [ha]

theorem eraseDups_cons_ne (a : α) (xs : List α) :
    (a :: xs).eraseDups = a :: (xs.filter (· ≠ a)).eraseDups := by
  have hne : (fun b => !b == a) = fun b => decide (b ≠ a) := by
    funext b
    by_cases h : b = a <;> simp [h]
  rw [List.eraseDups_cons, hne]

theorem supplant_eq (hn : xs.Nodup) (ho : old ∈ xs) :
    supplant old new xs = (xs.replace old new).eraseDups := by
  induction xs with
  | nil => exact absurd ho List.not_mem_nil
  | cons a rest ih =>
    rw [List.nodup_cons] at hn
    have hkept : ((rest.replace old new).filter (· ≠ new)).eraseDups =
        rest.filter fun b => b ≠ old ∧ b ≠ new := by
      rw [filter_replace hn.2, eraseDups_of_nodup (hn.2.filter _)]
    rw [supplant]
    by_cases ha : a = old
    · subst ha
      rw [List.replace_of_not_mem hn.1] at hkept
      rw [if_pos (Or.inl rfl), List.replace_cons_self, eraseDups_cons_ne, hkept]
    · rw [replace_cons_of_ne ha, eraseDups_cons_ne]
      by_cases hnew : a = new
      · subst hnew
        rw [if_pos (Or.inr rfl), hkept]
      · have hrest : old ∈ rest := (List.mem_cons.mp ho).resolve_left (Ne.symm ha)
        have hfirst : ∀ b ∈ rest.replace old new, decide (b ≠ a) = true := by
          intro b hb
          rcases mem_of_mem_drain (drain_some rest ▸ hb) with hb | rfl
          · simpa using fun he : b = a => hn.1 (he ▸ hb)
          · simpa using Ne.symm hnew
        rw [if_neg (not_or.mpr ⟨ha, hnew⟩), List.filter_eq_self.mpr hfirst, ih hn.2 hrest]

end

theorem replace_of_mem {s : OrderedSet α} {old new : α} (h : old ∈ s) :
    s.replace old new = ofList (drain old (some new) s.toList) := by
  rw [replace, tryReplace_eq, if_pos h]

theorem toList_replace_of_mem {s : OrderedSet α} {old new : α} (h : old ∈ s) :
    (s.replace old new).toList = supplant old new s.toList := by
  rw [replace_of_mem h, toList_ofList, drain_some, supplant_eq s.nodup h]

theorem replace_of_not_mem {s : OrderedSet α} {old new : α} (h : old ∉ s) :
    s.replace old new = s := by
  rw [replace, tryReplace_eq, if_neg h]

theorem mem_supplant {old new b : α} {xs : List α} (h : old ∈ xs) :
    b ∈ supplant old new xs ↔ b = new ∨ b ∈ xs ∧ b ≠ old := by
  induction xs with
  | nil => exact absurd h List.not_mem_nil
  | cons a rest ih =>
    rw [supplant]
    by_cases ha : a = old ∨ a = new
    · rw [if_pos ha]
      grind
    · rw [if_neg ha]
      have hm : old ∈ rest := by grind
      have := ih hm
      grind

theorem supplant_of_not_mem {old new : α} {xs : List α} (h : xs.Nodup) (hn : new ∉ xs) :
    supplant old new xs = xs.map fun a => if a = old then new else a := by
  induction xs with
  | nil => rfl
  | cons a rest ih =>
    rw [List.nodup_cons] at h
    rw [List.mem_cons, not_or] at hn
    rw [supplant, List.map_cons]
    by_cases ha : a = old
    · subst ha
      rw [if_pos (Or.inl rfl), if_pos rfl]
      congr 1
      rw [List.filter_eq_self.mpr]
      · conv => lhs; rw [← List.map_id rest]
        apply List.map_congr_left
        intro b hb
        rw [if_neg (fun hba : b = a => h.1 (hba ▸ hb)), id]
      · intro b hb
        simp only [decide_eq_true_eq]
        exact ⟨fun hba : b = a => h.1 (hba ▸ hb), fun hbn : b = new => hn.2 (hbn ▸ hb)⟩
    · rw [if_neg (fun hor => hor.elim ha (fun han => hn.1 han.symm)), if_neg ha, ih h.2 hn.2]

end OrderedSet
end ContextFree
