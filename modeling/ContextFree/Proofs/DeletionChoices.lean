import ContextFree.Proofs.EmptyWord
import ContextFree.Proofs.FirstOccurrences

/-!
# Deletion variants, choice by choice

The plain way to the variants of a production: go through all rows of choices,
one choice for each occurrence of an optional symbol, and take what each row
keeps. The rows stand in lexicographic order with keeping before leaving out
(`choices_descending`), so the first one keeps everything.

`variants_exact` says that this gives the variants, in their order, although
those come of lists in which equal partial variants have been merged after
every symbol. Merging is harmless because equal partial variants have the same
continuations in the same order, and those of the first one come first.
-/

namespace ContextFree.Production

variable {nullable : OrderedSet String} {p : Production} {s : Symbol} {n : Nat}

-- ---------------------------------------------------------------------------
-- Rows of choices
-- ---------------------------------------------------------------------------

/-- All rows of so many choices, keeping (`true`) before leaving out; the first choice in a row
weighs most. -/
def choices : Nat → List (List Bool)
  | 0 => [[]]
  | n + 1 => (choices n).map (true :: ·) ++ (choices n).map (false :: ·)

theorem mem_choices {row : List Bool} : row ∈ choices n ↔ row.length = n := by
  induction n generalizing row with
  | zero => simp [choices]
  | succ n ih =>
    cases row with
    | nil => simp [choices]
    | cons choice row => cases choice <;> simp [choices, ih]

theorem choices_descending (n : Nat) : (choices n).Pairwise (· > ·) := by
  induction n with
  | zero => exact List.pairwise_singleton ..
  | succ n ih =>
    have hleading : ∀ choice : Bool, ((choices n).map (choice :: ·)).Pairwise (· > ·) := by
      intro choice
      exact List.pairwise_map.mpr (ih.imp fun h => List.Lex.cons h)
    refine List.pairwise_append.mpr ⟨hleading true, hleading false, ?_⟩
    simp only [List.mem_map]
    rintro _ ⟨row, _, rfl⟩ _ ⟨other, _, rfl⟩
    exact List.Lex.rel (by decide)

theorem head?_choices (n : Nat) : (choices n).head? = some (List.replicate n true) := by
  induction n with
  | zero => rfl
  | succ n ih => simp [choices, List.head?_append, ih, List.replicate_succ]

def optionals (nullable : OrderedSet String) (p : Production) : Nat :=
  p.countP fun s => Optional nullable s

/-- What a row of choices keeps of a production. -/
def keep (nullable : OrderedSet String) : Production → List Bool → Production
  | s :: p, choice :: row =>
    if Optional nullable s then
      if choice then s :: keep nullable p row else keep nullable p row
    else s :: keep nullable p (choice :: row)
  | p, _ => p

-- ---------------------------------------------------------------------------
-- What the rows keep
-- ---------------------------------------------------------------------------

@[simp] theorem keep_nil (row : List Bool) : keep nullable [] row = [] := by
  cases row <;> rfl

theorem keep_nil_right (p : Production) : keep nullable p [] = p := by
  cases p <;> rfl

theorem keep_optional (hs : Optional nullable s) (choice : Bool) (row : List Bool) :
    keep nullable (s :: p) (choice :: row) =
      if choice then s :: keep nullable p row else keep nullable p row :=
  if_pos hs

theorem keep_fixed (hs : ¬ Optional nullable s) (row : List Bool) :
    keep nullable (s :: p) row = s :: keep nullable p row := by
  cases row with
  | nil => rw [keep_nil_right, keep_nil_right]
  | cons choice row => exact if_neg hs

theorem keep_all (p : Production) (n : Nat) : keep nullable p (List.replicate n true) = p := by
  induction p generalizing n with
  | nil => exact keep_nil _
  | cons s p ih =>
    by_cases hs : Optional nullable s
    · cases n with
      | zero => exact keep_nil_right _
      | succ n => rw [List.replicate_succ, keep_optional hs, if_pos rfl, ih]
    · rw [keep_fixed hs, ih]

def selections (nullable : OrderedSet String) (p : Production) : List Production :=
  (choices (p.optionals nullable)).map (p.keep nullable)

theorem selections_optional (hs : Optional nullable s) :
    selections nullable (s :: p) =
      (selections nullable p).map (s :: ·) ++ selections nullable p := by
  have hcount : optionals nullable (s :: p) = optionals nullable p + 1 := by
    simp [optionals, hs]
  simp only [selections, hcount, choices, List.map_append, List.map_map, Function.comp_def,
    keep_optional hs, if_true, Bool.false_eq_true, if_false]

theorem selections_fixed (hs : ¬ Optional nullable s) :
    selections nullable (s :: p) = (selections nullable p).map (s :: ·) := by
  have hcount : optionals nullable (s :: p) = optionals nullable p := by
    simp [optionals, hs]
  rw [selections, hcount, selections, List.map_map]
  exact List.map_congr_left fun row _ => keep_fixed hs row

theorem head?_selections (p : Production) : (selections nullable p).head? = some p := by
  rw [selections, List.head?_map, head?_choices, Option.map_some, keep_all]

-- ---------------------------------------------------------------------------
-- The variants
-- ---------------------------------------------------------------------------

theorem flatMap_selections (kept : Production) :
    ((if Optional nullable s then [kept ++ [s], kept] else [kept ++ [s]]).flatMap fun kept =>
        (selections nullable p).map (kept ++ ·)) =
      (selections nullable (s :: p)).map (kept ++ ·) := by
  split
  · simp [selections_optional ‹_›, Function.comp_def]
  · simp [selections_fixed ‹_›, Function.comp_def]

theorem toList_foldl_extend (partials : OrderedSet Production) :
    (p.foldl (extend nullable) partials).toList =
      (partials.toList.flatMap fun kept => (selections nullable p).map (kept ++ ·)).eraseDups := by
  -- by induction on the rest of the production: what has been merged so far does not show in the
  -- first occurrences at the end
  induction p generalizing partials with
  | nil =>
    have hnil : selections nullable [] = [[]] := rfl
    simp [hnil, OrderedSet.eraseDups_of_nodup partials.nodup]
  | cons s p ih =>
    rw [List.foldl_cons, ih, extend, OrderedSet.toList_ofList, OrderedSet.eraseDups_flatMap,
      List.flatMap_assoc]
    simp only [flatMap_selections]

theorem variants_eq (nullable : OrderedSet String) (p : Production) :
    p.variants nullable = ((selections nullable p).filter (· ≠ [])).eraseDups := by
  have hstart : (OrderedSet.ofList [([] : Production)]).toList = [[]] := rfl
  rw [variants, toList_foldl_extend, hstart, OrderedSet.filter_eraseDups]
  simp

theorem head?_variants (nullable : OrderedSet String) (p : Production) :
    (p.variants nullable).head? = if p = [] then none else some p := by
  have hfirst : (selections nullable p).head? = some p := head?_selections p
  obtain ⟨rest, hrest⟩ := List.head?_eq_some_iff.mp hfirst
  split
  · subst_vars
    rfl
  · rename_i hp
    rw [variants_eq, hrest, List.filter_cons_of_pos (by simpa using hp), List.eraseDups_cons,
      List.head?_cons]

/-- The variants of a production are what the rows of choices keep of it, the rows in
lexicographic order, without the empty list and each at its first occurrence. -/
theorem variants_exact (nullable : OrderedSet String) (p : Production) :
    ((∀ row, row ∈ choices (p.optionals nullable) ↔ row.length = p.optionals nullable) ∧
      (choices (p.optionals nullable)).Pairwise (· > ·)) ∧
    p.variants nullable = (((choices (p.optionals nullable)).map (p.keep nullable)).filter
      (· ≠ [])).eraseDups ∧
    (p.variants nullable).Nodup ∧
    (p.variants nullable).head? = if p = [] then none else some p :=
  ⟨⟨fun _ => mem_choices, choices_descending _⟩, variants_eq nullable p,
    (OrderedSet.nodup _).filter _, head?_variants nullable p⟩

/-- Four rows, but the two that keep one `A` coincide. -/
example : (compact "AAb").variants (.ofList ["A"]) =
    [compact "AAb", compact "Ab", compact "b"] := by decide +kernel

end ContextFree.Production
