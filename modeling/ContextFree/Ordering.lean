/-!
# Sorting and searching

`inOrder` sorts by a type's own order and keeps the order of equal members.
`search` finds a member of an ascending list by halving it; on other lists it
may miss.
-/

namespace ContextFree

section
variable {α : Type} [Ord α]

def inOrder (xs : List α) : List α :=
  xs.mergeSort fun a b => (compare a b).isLE

theorem inOrder_perm (xs : List α) : (inOrder xs).Perm xs :=
  List.mergeSort_perm xs _

@[simp] theorem mem_inOrder {a : α} {xs : List α} : a ∈ inOrder xs ↔ a ∈ xs :=
  (inOrder_perm xs).mem_iff

@[simp] theorem length_inOrder (xs : List α) : (inOrder xs).length = xs.length :=
  (inOrder_perm xs).length_eq

def Ascending (xs : List α) : Prop := xs.Pairwise fun a b => compare a b = .lt

theorem Ascending.of_drop {n : Nat} {middle : α} {xs high : List α} (h : Ascending xs)
    (hd : xs.drop n = middle :: high) :
    Ascending (xs.take n) ∧ Ascending (middle :: high) ∧
      ∀ a ∈ xs.take n, compare a middle = .lt := by
  rw [← List.take_append_drop n xs, hd] at h
  obtain ⟨hlow, hhigh, hlt⟩ := List.pairwise_append.mp h
  exact ⟨hlow, hhigh, fun a hm => hlt a hm middle List.mem_cons_self⟩

/-- Compares with the member in the middle and goes on in the half that is left. -/
def search (a : α) (xs : List α) : Bool :=
  match _hd : xs.drop (xs.length / 2) with
  | [] => false
  | middle :: rest =>
    match compare a middle with
    | .lt => search a (xs.take (xs.length / 2))
    | .eq => true
    | .gt => search a rest
termination_by xs.length
decreasing_by
  · have hl := congrArg List.length _hd
    simp only [List.length_drop, List.length_cons] at hl
    simp only [List.length_take]
    omega
  · have hl := congrArg List.length _hd
    simp only [List.length_drop, List.length_cons] at hl
    omega

end

section
variable {α : Type} [Ord α] [Std.TransOrd α] [Std.LawfulEqOrd α] {a : α} {xs : List α}

theorem ascending_inOrder (hn : xs.Nodup) : Ascending (inOrder xs) := by
  have hle : (inOrder xs).Pairwise fun a b => (compare a b).isLE = true := by
    refine List.pairwise_mergeSort (fun a b c => Std.TransCmp.isLE_trans) (fun a b => ?_) xs
    have hs : compare a b = (compare b a).swap := Std.OrientedCmp.eq_swap
    cases h : compare b a <;> simp [hs, h]
  have hd : (inOrder xs).Nodup := (inOrder_perm xs).nodup_iff.mpr hn
  refine hle.imp₂ (fun a b hab hne => ?_) hd
  cases hc : compare a b with
  | lt => rfl
  | eq => exact absurd (Std.LawfulEqCmp.eq_of_compare hc) hne
  | gt => simp [hc] at hab

theorem Ascending.eq_of_mem_iff {ys : List α} (hx : Ascending xs) (hy : Ascending ys)
    (h : ∀ a, a ∈ xs ↔ a ∈ ys) : xs = ys := by
  have hne : ∀ {a b : α}, compare a b = .lt → a ≠ b := by
    rintro a _ hlt rfl
    simp at hlt
  have hp : xs.Perm ys := (List.perm_ext_iff_of_nodup (hx.imp hne) (hy.imp hne)).mpr h
  refine hp.eq_of_pairwise (fun a b _ _ hab hba => ?_) hx hy
  rw [Std.OrientedCmp.gt_of_lt hab] at hba
  cases hba

theorem Ascending.mem_iff {n : Nat} {middle : α} {high : List α} (h : Ascending xs)
    (hd : xs.drop n = middle :: high) :
    a ∈ xs ↔ compare a middle = .lt ∧ a ∈ xs.take n ∨ compare a middle = .eq ∨
      compare a middle = .gt ∧ a ∈ high := by
  obtain ⟨_, hhigh, hlt⟩ := h.of_drop hd
  have hgt : a ∈ high → compare a middle = .gt := fun hm =>
    Std.OrientedCmp.gt_of_lt ((List.pairwise_cons.mp hhigh).1 a hm)
  conv => lhs; rw [← List.take_append_drop n xs, hd, List.mem_append, List.mem_cons]
  rw [Std.LawfulEqCmp.compare_eq_iff_eq]
  constructor
  · rintro (hm | hm | hm)
    · exact Or.inl ⟨hlt a hm, hm⟩
    · exact Or.inr (Or.inl hm)
    · exact Or.inr (Or.inr ⟨hgt hm, hm⟩)
  · rintro (⟨_, hm⟩ | hm | ⟨_, hm⟩)
    · exact Or.inl hm
    · exact Or.inr (Or.inl hm)
    · exact Or.inr (Or.inr hm)

theorem search_iff (h : Ascending xs) : search a xs = true ↔ a ∈ xs := by
  fun_induction search a xs with
  | case1 xs hd =>
    have hl := List.drop_eq_nil_iff.mp hd
    have hnil : xs = [] := List.eq_nil_of_length_eq_zero (by omega)
    simp [hnil]
  | case2 xs middle high hd hc ih =>
    rw [ih (h.of_drop hd).1, h.mem_iff hd]
    simp [hc]
  | case3 xs middle high hd hc =>
    rw [h.mem_iff hd]
    simp [hc]
  | case4 xs middle high hd hc ih =>
    rw [ih (List.pairwise_cons.mp (h.of_drop hd).2.1).2, h.mem_iff hd]
    simp [hc]

end

end ContextFree
