import ContextFree.Recognizer.Basic

/-!
# Filling cells with shared marks

One array of marks serves all cells of a table. A mark says that a number is
in the cell at hand, so it has to be gone before the next cell is begun. It is
(`Marked.clear_eq`), provided that no number lies outside the array. Then every
cell is what it would be with marks of its own.
-/

namespace ContextFree.RuleIndex

variable {ix : RuleIndex} {rows : Rows} {row : Array Cell} {span start n : Nat}
variable {id other : NameId} {ids : List NameId}

-- ---------------------------------------------------------------------------
-- Marks
-- ---------------------------------------------------------------------------

namespace Gathering

variable {x : Gathering} {marks : Marks}

/-- The marks are those of what has been found, which is without repetition. -/
structure Marked (n : Nat) (x : Gathering) : Prop where
  size : x.marks.size = n
  marked : ∀ id : NameId, x.marks[id.index]?.getD false = true ↔ id ∈ x.found
  nodup : x.found.Nodup

theorem marked_nothing (n : Nat) : Marked n ⟨[], Array.replicate n false⟩ where
  size := by simp
  marked id := by
    by_cases hid : id.index < n <;> simp [hid]
  nodup := List.nodup_nil

theorem getD_mark {j : Nat} (hid : id.index < marks.size) :
    (marks.setIfInBounds id.index true)[j]?.getD false = true ↔
      j = id.index ∨ marks[j]?.getD false = true := by
  by_cases hj : id.index = j
  · obtain rfl := hj
    simp [hid]
  · simp [hj, Ne.symm hj]

theorem getD_unmark {j : Nat} :
    (marks.setIfInBounds id.index false)[j]?.getD false = true ↔
      j ≠ id.index ∧ marks[j]?.getD false = true := by
  by_cases hj : id.index = j
  · obtain rfl := hj
    by_cases hs : id.index < marks.size <;> simp [hs]
  · simp [hj, Ne.symm hj]

theorem Marked.take (h : x.Marked n) (hid : id.index < n) : (x.take id).Marked n := by
  unfold Gathering.take
  split
  next => exact h
  next hm =>
    have hnew : id ∉ x.found := fun hf => hm ((h.marked id).mpr hf)
    refine ⟨by simp [h.size], fun other => ?_, ?_⟩
    · rw [getD_mark (h.size ▸ hid), h.marked]
      cases other; cases id
      simp [or_comm]
    · refine List.nodup_append.mpr ⟨h.nodup, by simp, ?_⟩
      rintro a ha b hb rfl
      obtain rfl : a = id := by simpa using hb
      exact hnew ha

theorem Marked.mem_take (h : x.Marked n) :
    other ∈ (x.take id).found ↔ other ∈ x.found ∨ other = id := by
  unfold Gathering.take
  split
  next hm =>
    rw [h.marked] at hm
    constructor
    · exact Or.inl
    · rintro (ho | rfl)
      · exact ho
      · exact hm
  next => simp

theorem Marked.foldl_take (h : x.Marked n) (hids : ∀ id ∈ ids, id.index < n) :
    (ids.foldl Gathering.take x).Marked n ∧
      ∀ id, id ∈ (ids.foldl Gathering.take x).found ↔ id ∈ x.found ∨ id ∈ ids := by
  induction ids generalizing x with
  | nil => simpa using h
  | cons id ids ih =>
    obtain ⟨hid, hids⟩ := List.forall_mem_cons.mp hids
    obtain ⟨hm, hf⟩ := ih (h.take hid) hids
    refine ⟨hm, fun other => ?_⟩
    simp [hf, h.mem_take, or_assoc]

theorem size_foldl_unmark :
    (ids.foldl (fun marks id => marks.setIfInBounds id.index false) marks).size = marks.size := by
  induction ids generalizing marks with
  | nil => rfl
  | cons id ids ih => simp [ih]

theorem getD_foldl_unmark {j : Nat} :
    (ids.foldl (fun marks id => marks.setIfInBounds id.index false) marks)[j]?.getD false = true ↔
      (∀ id ∈ ids, j ≠ id.index) ∧ marks[j]?.getD false = true := by
  induction ids generalizing marks with
  | nil => simp
  | cons id ids ih =>
    rw [List.foldl_cons, ih, getD_unmark]
    simp [and_assoc, and_left_comm]

theorem Marked.clear_eq (h : x.Marked n) : x.clear = Array.replicate n false := by
  have hsize : x.clear.size = n := size_foldl_unmark.trans h.size
  refine Array.ext (by simp [hsize]) fun j hj _ => ?_
  have hclear : ¬ x.clear[j]?.getD false = true := by
    rw [clear, getD_foldl_unmark]
    rintro ⟨hne, hm⟩
    exact hne ⟨j⟩ ((h.marked ⟨j⟩).mp hm) rfl
  simpa [hj] using hclear

end Gathering

-- ---------------------------------------------------------------------------
-- Cells and rows
-- ---------------------------------------------------------------------------

def parents (ix : RuleIndex) (rows : Rows) (span start : Nat) : List NameId :=
  (List.range' 1 (span - 1)).flatMap fun k =>
    (cellAt rows k start).flatMap fun l =>
      (cellAt rows (span - k) (start + k)).flatMap fun r => ix.binary.lookup (l, r)

theorem mem_parents :
    id ∈ ix.parents rows span start ↔ ∃ k, 1 ≤ k ∧ k < span ∧
      ∃ l ∈ cellAt rows k start, ∃ r ∈ cellAt rows (span - k) (start + k),
        id ∈ ix.binary.lookup (l, r) := by
  simp only [parents, List.mem_flatMap, List.mem_range'_1, and_assoc]
  refine exists_congr fun k => and_congr_right fun hk => and_congr_left fun _ => ?_
  omega

theorem joinAll_eq {marks : Marks} :
    ix.joinAll rows marks span start =
      (ix.parents rows span start).foldl Gathering.take ⟨[], marks⟩ := by
  simp [joinAll, join, parents, List.foldl_flatMap]

/-- Every parent of a pair has a mark of its own. -/
def Closed (ix : RuleIndex) : Prop :=
  ∀ key, ∀ id ∈ ix.binary.lookup key, id.index < ix.names.size

namespace Closed

theorem joinAll (h : ix.Closed) :
    (ix.joinAll rows ix.noMarks span start).Marked ix.names.size ∧
      ∀ id, id ∈ (ix.joinAll rows ix.noMarks span start).found ↔
        id ∈ ix.parents rows span start := by
  have hids : ∀ id ∈ ix.parents rows span start, id.index < ix.names.size := by
    intro id hid
    obtain ⟨k, -, -, l, -, r, -, hp⟩ := mem_parents.mp hid
    exact h _ id hp
  rw [joinAll_eq, noMarks]
  simpa using (Gathering.marked_nothing ix.names.size).foldl_take hids

theorem foldl_joinNext (h : ix.Closed) (row : Array Cell) (starts : List Nat) :
    starts.foldl (ix.joinNext rows span) (row, ix.noMarks) =
      (row ++ (starts.map fun start => (ix.joinAll rows ix.noMarks span start).found).toArray,
        ix.noMarks) := by
  induction starts generalizing row with
  | nil => simp
  | cons start starts ih =>
    have hclear : (ix.joinAll rows ix.noMarks span start).clear = ix.noMarks :=
      h.joinAll.1.clear_eq
    simp [joinNext, hclear, ih]

theorem joinRow_eq (h : ix.Closed) :
    ix.joinRow n rows ix.noMarks span =
      (((List.range (n - span + 1)).map fun start =>
        (ix.joinAll rows ix.noMarks span start).found).toArray, ix.noMarks) := by
  simp [joinRow, h.foldl_joinNext]

theorem size_joinRow (h : ix.Closed) :
    (ix.joinRow n rows ix.noMarks span).1.size = n - span + 1 := by
  simp [h.joinRow_eq]

theorem mem_joinRow (h : ix.Closed) (hs : span ≤ n) :
    id ∈ (ix.joinRow n rows ix.noMarks span).1[start]?.getD [] ↔
      start + span ≤ n ∧ id ∈ ix.parents rows span start := by
  have hfits : start + span ≤ n ↔ start < n - span + 1 := by omega
  rw [h.joinRow_eq, hfits]
  by_cases hlt : start < n - span + 1 <;> simp [hlt, h.joinAll.2]

end Closed
end ContextFree.RuleIndex
