import Std.Data.HashMap

/-!
# Name tables

A name table numbers names in the order in which they are first seen. A number
belongs to one name for good; seeing a name again changes nothing. Both ways
of looking up are kept and agree.
-/

namespace ContextFree

structure NameId where
  index : Nat
  deriving DecidableEq, Hashable, Repr

structure NameTable where
  ids : Std.HashMap String NameId
  names : Array String
  agree : ∀ (name : String) (id : NameId), ids[name]? = some id ↔ names[id.index]? = some name

namespace NameTable

def empty : NameTable := ⟨∅, #[], by simp⟩

def size (t : NameTable) : Nat := t.names.size

def id? (t : NameTable) (name : String) : Option NameId := t.ids[name]?

def name? (t : NameTable) (id : NameId) : Option String := t.names[id.index]?

def resolve (t : NameTable) (ids : List NameId) : List String := ids.filterMap t.name?

def push (t : NameTable) (name : String) (h : t.id? name = none) : NameTable where
  ids := t.ids.insert name ⟨t.size⟩
  names := t.names.push name
  agree := by
    intro other id
    have hne : ∀ i : NameId, t.names[i.index]? ≠ some name := fun i hi => by
      have hs := (t.agree name i).mpr hi
      rw [id?] at h
      simp [h] at hs
    rw [Std.HashMap.getElem?_insert, Array.getElem?_push]
    by_cases ho : name = other
    · subst ho
      by_cases hi : id.index = t.names.size
      · have hid : id = ⟨t.size⟩ := by cases id; exact congrArg NameId.mk hi
        simp [hid, size]
      · simp only [BEq.rfl, if_true, Option.some.injEq, if_neg hi, hne, iff_false]
        rintro rfl
        exact hi rfl
    · have hs : t.names[t.names.size]? ≠ some other := by simp
      by_cases hi : id.index = t.names.size <;> simp [ho, hi, t.agree]

/-- The number of a name, given out now if it is new, and the table that knows it. -/
def intern (t : NameTable) (name : String) : NameId × NameTable :=
  match h : t.id? name with
  | some id => (id, t)
  | none => (⟨t.size⟩, t.push name h)

-- ---------------------------------------------------------------------------
-- Which names the numbers stand for
-- ---------------------------------------------------------------------------

variable {t : NameTable} {name other : String} {id id' : NameId}

theorem id?_eq_some_iff : t.id? name = some id ↔ t.name? id = some name := t.agree name id

theorem name?_inj (h : t.name? id = some name) (h' : t.name? id' = some name) : id = id' := by
  rw [← id?_eq_some_iff] at h h'
  exact Option.some.inj (h.symm.trans h')

theorem lt_size_of_name? (h : t.name? id = some name) : id.index < t.size :=
  (Array.getElem?_eq_some_iff.mp h).1

@[simp] theorem name?_empty : empty.name? id = none := by
  simp [name?, empty]

theorem name?_push (h : t.id? name = none) :
    (t.push name h).name? id = if id.index = t.size then some name else t.name? id :=
  Array.getElem?_push

theorem intern_of_id? (h : t.id? name = some id) : t.intern name = (id, t) := by
  unfold intern
  split
  next other ho => rw [Option.some.inj (ho.symm.trans h)]
  next hn => exact nomatch hn.symm.trans h

theorem intern_of_new (h : t.id? name = none) : t.intern name = (⟨t.size⟩, t.push name h) := by
  unfold intern
  split
  next ho => exact nomatch ho.symm.trans h
  next => rfl

theorem name?_intern : (t.intern name).2.name? (t.intern name).1 = some name := by
  unfold intern
  split
  · exact id?_eq_some_iff.mp ‹_›
  · rw [name?_push, if_pos rfl]

@[simp] theorem mem_resolve {ids : List NameId} :
    name ∈ t.resolve ids ↔ ∃ id ∈ ids, t.name? id = some name := by
  simp [resolve]

/-- Of all numbers only the one just given changes what it stands for. -/
theorem name?_intern_iff :
    (t.intern name).2.name? id = some other ↔
      t.name? id = some other ∨ id = (t.intern name).1 ∧ other = name := by
  unfold intern
  split
  case _ known h =>
    have hk := id?_eq_some_iff.mp h
    refine ⟨Or.inl, ?_⟩
    rintro (hid | ⟨rfl, rfl⟩)
    · exact hid
    · exact hk
  case _ h =>
    rw [name?_push]
    by_cases hi : id.index = t.size
    · have hnone : t.name? id = none := Array.getElem?_eq_none (Nat.le_of_eq hi.symm)
      have hid : id = ⟨t.size⟩ := by cases id; exact congrArg NameId.mk hi
      rw [if_pos hi, hnone, ← hid]
      simp [eq_comm]
    · have hne : id ≠ ⟨t.size⟩ := fun he => hi (congrArg NameId.index he)
      simp [hi, hne]

theorem name?_intern_of_name? (h : t.name? id = some other) :
    (t.intern name).2.name? id = some other :=
  name?_intern_iff.mpr (Or.inl h)

end NameTable
end ContextFree
