import ContextFree.Proofs.FirstOccurrences
import ContextFree.Recognizer.NameTable
import Mathlib.Data.List.TakeWhile

/-!
# The numbers of a name table

A table that has seen names one after the other holds each of them once, in
the order of first occurrences (`names_ofNames`). So the number of a name is
the number of different names before it (`rank`), and nothing that comes later
changes it (`rank_append`).

`numbering_exact` says this of every history, and what follows for the two ways
of looking up: each undoes the other, the names seen and the numbers below the
size correspond one to one, and seeing a name again changes nothing.
-/

namespace ContextFree.NameTable

variable {t : NameTable} {names before later : List String} {name : String} {id : NameId}

def ofNames (names : List String) : NameTable :=
  names.foldl (fun t name => (t.intern name).2) empty

/-- How many different names come before the first occurrence of a name. -/
def rank (names : List String) (name : String) : Nat :=
  (names.takeWhile (· ≠ name)).eraseDups.length

-- ---------------------------------------------------------------------------
-- Ranks
-- ---------------------------------------------------------------------------

theorem decide_ne_of_not_mem (hn : name ∉ before) :
    ∀ other ∈ before, decide (other ≠ name) = true := by
  intro other ho
  simpa using fun he : other = name => hn (he ▸ ho)

theorem rank_of_not_mem (hn : name ∉ before) : rank before name = before.eraseDups.length := by
  rw [rank, List.takeWhile_eq_self_iff.mpr (decide_ne_of_not_mem hn)]

theorem rank_of_first (hn : name ∉ before) :
    rank (before ++ name :: later) name = before.eraseDups.length := by
  rw [rank, List.takeWhile_append_of_pos (decide_ne_of_not_mem hn),
    List.takeWhile_cons_of_neg (by simp), List.append_nil]

theorem rank_append (hm : name ∈ names) (more : List String) :
    rank (names ++ more) name = rank names name := by
  obtain ⟨before, later, rfl, hn⟩ := List.eq_append_cons_of_mem hm
  rw [List.append_assoc, List.cons_append, rank_of_first hn, rank_of_first hn]

theorem getElem?_rank (hm : name ∈ names) : names.eraseDups[rank names name]? = some name := by
  obtain ⟨before, later, rfl, hn⟩ := List.eq_append_cons_of_mem hm
  have hfirst : (name :: later).removeAll before = name :: later.removeAll before := by
    simp [List.removeAll, hn]
  rw [rank_of_first hn, List.eraseDups_append, hfirst, List.eraseDups_cons,
    List.getElem?_append_right (Nat.le_refl _)]
  simp

-- ---------------------------------------------------------------------------
-- Histories
-- ---------------------------------------------------------------------------

theorem ofNames_concat (names : List String) (name : String) :
    ofNames (names ++ [name]) = ((ofNames names).intern name).2 := by
  rw [ofNames, List.foldl_append]
  rfl

theorem exists_id?_iff : (∃ id, t.id? name = some id) ↔ name ∈ t.names.toList := by
  simp only [id?_eq_some_iff, name?, List.mem_iff_getElem?, Array.getElem?_toList]
  constructor
  · rintro ⟨id, h⟩
    exact ⟨id.index, h⟩
  · rintro ⟨i, h⟩
    exact ⟨⟨i⟩, h⟩

theorem names_ofNames (names : List String) : (ofNames names).names.toList = names.eraseDups := by
  -- by induction from the end: the last name is either known or pushed
  induction names using List.reverseRecOn with
  | nil => rfl
  | append_singleton names name ih =>
    have hknown : (∃ id, (ofNames names).id? name = some id) ↔ name ∈ names := by
      rw [exists_id?_iff, ih, List.mem_eraseDups]
    rw [ofNames_concat, OrderedSet.eraseDups_concat]
    cases h : (ofNames names).id? name with
    | some id =>
      rw [if_pos (hknown.mp ⟨id, h⟩), intern_of_id? h, ih]
    | none =>
      have hnew : name ∉ names := fun hm => by simpa [h] using hknown.mpr hm
      rw [if_neg hnew, intern_of_new h, ← ih]
      exact Array.toList_push

theorem size_ofNames (names : List String) : (ofNames names).size = names.eraseDups.length := by
  rw [← names_ofNames, Array.length_toList, size]

theorem name?_ofNames : (ofNames names).name? id = names.eraseDups[id.index]? := by
  rw [← names_ofNames, Array.getElem?_toList, name?]

theorem id?_ofNames (hm : name ∈ names) : (ofNames names).id? name = some ⟨rank names name⟩ := by
  rw [id?_eq_some_iff, name?_ofNames, getElem?_rank hm]

theorem exists_id?_ofNames_iff : (∃ id, (ofNames names).id? name = some id) ↔ name ∈ names := by
  rw [exists_id?_iff, names_ofNames, List.mem_eraseDups]

theorem intern_ofNames (names : List String) (name : String) :
    ((ofNames names).intern name).1 = ⟨rank names name⟩ := by
  by_cases hm : name ∈ names
  · rw [intern_of_id? (id?_ofNames hm)]
  · have hnew : (ofNames names).id? name = none := by
      rw [Option.eq_none_iff_forall_ne_some]
      exact fun id hid => hm (exists_id?_ofNames_iff.mp ⟨id, hid⟩)
    rw [intern_of_new hnew, size_ofNames, rank_of_not_mem hm]

theorem exists_name?_iff : (∃ name, t.name? id = some name) ↔ id.index < t.size := by
  rw [name?, size, ← Option.isSome_iff_exists]
  simp

theorem toNat_ofNat_index (hfew : t.size < UInt32.size) (hid : t.name? id = some name) :
    (UInt32.ofNat id.index).toNat = id.index :=
  UInt32.toNat_ofNat_of_lt (Nat.lt_trans (lt_size_of_name? hid) hfew)

/-- What a name table does over a history of names. -/
theorem numbering_exact (names : List String) :
    (ofNames names).size = names.eraseDups.length ∧
    (∀ name, ((ofNames names).intern name).1 = ⟨rank names name⟩) ∧
    (∀ name ∈ names, ∀ more,
      ((ofNames (names ++ more)).intern name).1 = ⟨rank names name⟩ ∧
      (ofNames (names ++ more)).id? name = some ⟨rank names name⟩) ∧
    (∀ name, (∃ id, (ofNames names).id? name = some id) ↔ name ∈ names) ∧
    (∀ name id, (ofNames names).id? name = some id ↔ (ofNames names).name? id = some name) ∧
    (∀ id, (∃ name, (ofNames names).name? id = some name) ↔ id.index < (ofNames names).size) ∧
    (∀ name ∈ names, ((ofNames names).intern name).2 = ofNames names) ∧
    (names.eraseDups.length < UInt32.size → ∀ name id, (ofNames names).id? name = some id →
      (UInt32.ofNat id.index).toNat = id.index) := by
  refine ⟨size_ofNames names, intern_ofNames names, fun name hm more => ?_,
    fun name => exists_id?_ofNames_iff, fun name id => id?_eq_some_iff,
    fun id => exists_name?_iff, fun name hm => ?_, fun hfew name id hid => ?_⟩
  · have hm' : name ∈ names ++ more := List.mem_append_left more hm
    rw [intern_ofNames, id?_ofNames hm', rank_append hm]
    exact ⟨rfl, rfl⟩
  · rw [intern_of_id? (id?_ofNames hm)]
  · rw [← size_ofNames] at hfew
    exact toNat_ofNat_index hfew (id?_eq_some_iff.mp hid)

/-- `A` is the second name, and it stays so when `C` comes and when it comes again itself. -/
theorem numbering_exact_repeated :
    let names := ["S", "A", "S", "B", "A"]
    (ofNames names).size = 3 ∧ (ofNames (names ++ ["C"])).id? "A" = some ⟨1⟩ ∧
      ((ofNames names).intern "A").2 = ofNames names ∧
      ∀ id, (ofNames names).id? "B" = some id → (UInt32.ofNat id.index).toNat = id.index := by
  intro names
  obtain ⟨hsize, -, hstays, -, -, -, hknown, hbits⟩ := numbering_exact names
  have hA : "A" ∈ names := by decide
  have hrank : rank names "A" = 1 := by decide
  have hdifferent : names.eraseDups.length = 3 := by decide
  refine ⟨hsize.trans hdifferent, ?_, hknown "A" hA, hbits (by rw [hdifferent]; decide) "B"⟩
  rw [(hstays "A" hA ["C"]).2, hrank]

end ContextFree.NameTable
