import ContextFree.Production

/-!
# Productions on shelves

A long list of productions is laid out on shelves, each production on the shelf
that its characters add up to, so that a lookup goes through one shelf only
(`Shelves.mem_iff`). A short list has one shelf.
-/

namespace ContextFree

namespace Production

def weight (p : Production) : Nat :=
  p.foldl (fun sum s => s.name.toList.foldl (fun sum c => sum + c.toNat) sum) 0

def shelf (count : Nat) (p : Production) : Nat :=
  if count ≤ 1 then 0 else p.weight % count

theorem shelf_lt {count : Nat} {p : Production} (h : 0 < count) : p.shelf count < count := by
  unfold shelf
  split
  · exact h
  · exact Nat.mod_lt _ h

end Production

structure Shelves (own : List Production) where
  shelves : Array (List Production)
  mem_iff : ∀ p : Production, p ∈ shelves.getD (p.shelf shelves.size) [] ↔ p ∈ own

namespace Shelves

variable {own : List Production} {p q : Production}

def put (shelves : Array (List Production)) (p : Production) : Array (List Production) :=
  shelves.modify (p.shelf shelves.size) (p :: ·)

theorem size_foldl_put (shelves : Array (List Production)) :
    (own.foldl put shelves).size = shelves.size := by
  induction own generalizing shelves with
  | nil => rfl
  | cons p own ih => rw [List.foldl_cons, ih, put, Array.size_modify]

theorem mem_put {shelves : Array (List Production)} (h : 0 < shelves.size) :
    p ∈ (put shelves q).getD (p.shelf shelves.size) [] ↔
      p = q ∨ p ∈ shelves.getD (p.shelf shelves.size) [] := by
  have hlt : p.shelf shelves.size < shelves.size := Production.shelf_lt h
  unfold put
  rw [← Array.getElem_eq_getD (h := by simpa using hlt), Array.getElem_modify,
    ← Array.getElem_eq_getD (h := hlt)]
  split
  · exact List.mem_cons
  · rename_i hne
    refine (or_iff_right ?_).symm
    rintro rfl
    exact hne rfl

theorem mem_foldl_put {shelves : Array (List Production)} (h : 0 < shelves.size) :
    p ∈ (own.foldl put shelves).getD (p.shelf shelves.size) [] ↔
      p ∈ shelves.getD (p.shelf shelves.size) [] ∨ p ∈ own := by
  induction own generalizing shelves with
  | nil => simp
  | cons q own ih =>
    have hs : (put shelves q).size = shelves.size := Array.size_modify
    rw [List.foldl_cons, ← hs, ih (hs ▸ h), hs, mem_put h, List.mem_cons, or_left_comm,
      or_assoc]

/-- Lays out a list, with about eight productions to a shelf. -/
def ofList (own : List Production) : Shelves own where
  shelves := own.foldl put (Array.replicate (own.length / 8 + 1) [])
  mem_iff p := by
    have hpos : 0 < (Array.replicate (own.length / 8 + 1) ([] : List Production)).size := by simp
    rw [size_foldl_put, mem_foldl_put hpos,
      ← Array.getElem_eq_getD (h := Production.shelf_lt hpos), Array.getElem_replicate]
    simp

def decideMem (s : Shelves own) (p : Production) : Decidable (p ∈ own) :=
  decidable_of_iff _ (s.mem_iff p)

end Shelves
end ContextFree
