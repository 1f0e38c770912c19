import ContextFree.OrderedSet
import ContextFree.Ordering

/-!
# Parse tables

For a word of length `n` the table has `n` rows, one for each span, and the row
of span `l` has `n - l + 1` cells. The cell of span `l` at position `i` lists,
sorted, the nonterminals that derive the `l` symbols from `i` on. Positions
outside the table hold nothing.
-/

namespace ContextFree

@[ext] structure Table where
  /-- The row of span `l` stands at `l - 1`. -/
  rows : Array (Array (List String))
  deriving DecidableEq

namespace Table

def empty : Table := ⟨#[]⟩

/-- Sorts the cells and drops repetitions. -/
def ofCells (rows : Array (Array (List String))) : Table :=
  ⟨rows.map fun row => row.map fun cell => inOrder (OrderedSet.ofList cell).toList⟩

def wordLength (t : Table) : Nat := t.rows.size

def cell (t : Table) (span start : Nat) : List String :=
  if span = 0 then []
  else match t.rows[span - 1]? with
    | none => []
    | some row => row[start]?.getD []

/-- The name is found in the cell, which is searched as a sorted list. -/
def Contains (t : Table) (span start : Nat) (name : String) : Prop :=
  search name (t.cell span start) = true

instance (t : Table) (span start : Nat) (name : String) : Decidable (t.Contains span start name) :=
  inferInstanceAs (Decidable (search name (t.cell span start) = true))

def root (t : Table) : List String := t.cell t.wordLength 0

def spans (t : Table) : List (Nat × List (List String)) :=
  (t.rows.toList.zipIdx.map fun (row, i) => (i + 1, row.toList)).reverse

def size (t : Table) : Nat := (t.rows.toList.flatMap fun row => row.toList.flatten).length

def cellText (cell : List String) : String := "[" ++ String.intercalate "," cell ++ "]"

def text (t : Table) : String :=
  String.join (t.spans.map fun (span, cells) =>
    "Length " ++ toString span ++ ":" ++
      String.join (cells.map fun cell => " " ++ cellText cell) ++ "\n")

@[simp] theorem cell_zero (t : Table) (start : Nat) : t.cell 0 start = [] := rfl

@[simp] theorem cell_empty (span start : Nat) : empty.cell span start = [] := by
  simp [cell, empty]

theorem getElem_rows {t : Table} {i j : Nat} (hi : i < t.rows.size) (hj : j < t.rows[i].size) :
    t.rows[i][j] = t.cell (i + 1) j := by
  simp [cell, hi, hj]

end Table
end ContextFree
