import ContextFree.Proofs.ParseTables

/-!
# Filling in place with every access checked

`fill?` fills a table of cells that has its full shape from the beginning. It
gives nothing as soon as a cell, a mark or a name is asked for that is not
there. `fill?_eq` says that this never happens, whatever the word, and that the
table is the one of `fill`, which puts row behind row and reads an empty cell
outside of them.

By induction on the cells, in the order in which they are filled: the cells
done so far are those of `fill`, all others have their place (`Placed`), and
only the former are read. A mark is asked for by the number of a parent, and
these are numbers of names (`Closed`).
-/

namespace ContextFree.RuleIndex

variable {ix : RuleIndex} {rows cells : Rows} {row : Array Cell} {cell : Cell} {marks : Marks}
variable {x : Gathering} {id : NameId} {i j n span start : Nat} {tokens : List String}

-- ---------------------------------------------------------------------------
-- Checked accesses
-- ---------------------------------------------------------------------------

def read? (cells : Rows) (i j : Nat) : Option Cell := do (← cells[i]?)[j]?

def write? (cells : Rows) (i j : Nat) (cell : Cell) : Option Rows := do
  let row ← cells[i]?
  if j < row.size then some (cells.setIfInBounds i (row.setIfInBounds j cell)) else none

def mark? (marks : Marks) (id : NameId) (value : Bool) : Option Marks :=
  if id.index < marks.size then some (marks.setIfInBounds id.index value) else none

def take? (x : Gathering) (id : NameId) : Option Gathering := do
  if ← x.marks[id.index]? then some x
  else some ⟨x.found ++ [id], ← mark? x.marks id true⟩

def clear? (x : Gathering) : Option Marks :=
  x.found.foldlM (fun marks id => mark? marks id false) x.marks

def join? (ix : RuleIndex) (x : Gathering) (left right : Cell) : Option Gathering :=
  left.foldlM
    (fun x l => right.foldlM (fun x r => (ix.binary.lookup (l, r)).foldlM take? x) x) x

def joinAll? (ix : RuleIndex) (cells : Rows) (marks : Marks) (span start : Nat) :
    Option Gathering :=
  (List.range' 1 (span - 1)).foldlM
    (fun x k => do
      ix.join? x (← read? cells (k - 1) start) (← read? cells (span - k - 1) (start + k)))
    ⟨[], marks⟩

def fillCell? (ix : RuleIndex) (span : Nat) (state : Rows × Marks) (start : Nat) :
    Option (Rows × Marks) := do
  let x ← ix.joinAll? state.1 state.2 span start
  let marks ← clear? x
  return (← write? state.1 (span - 1) start x.found, marks)

def fillRow? (ix : RuleIndex) (n : Nat) (state : Rows × Marks) (span : Nat) :
    Option (Rows × Marks) :=
  (List.range (n - span + 1)).foldlM (ix.fillCell? span) state

def blank (n : Nat) : Rows := ((List.range n).map fun i => Array.replicate (n - i) []).toArray

def fillBase? (ix : RuleIndex) (cells : Rows) (tokens : List (String × Nat)) : Option Rows :=
  tokens.foldlM (fun cells token => write? cells 0 token.2 (ix.lexical.lookup token.1)) cells

def fill? (ix : RuleIndex) (tokens : List String) : Option Table := do
  let n := tokens.length
  let base ← ix.fillBase? (blank n) tokens.zipIdx
  let (cells, _) ← (List.range' 2 (n - 1)).foldlM (ix.fillRow? n) (base, ix.noMarks)
  return .ofCells (← cells.mapM fun row => row.mapM fun cell => cell.mapM ix.names.name?)

-- ---------------------------------------------------------------------------
-- Steps that always give something
-- ---------------------------------------------------------------------------

theorem foldlM_eq_some {α β : Type} {f : β → α → Option β} {g : β → α → β} {P : β → Prop}
    {xs : List α} {b : β} (hb : P b)
    (h : ∀ b, P b → ∀ a ∈ xs, f b a = some (g b a) ∧ P (g b a)) :
    xs.foldlM f b = some (xs.foldl g b) ∧ P (xs.foldl g b) := by
  induction xs generalizing b with
  | nil => exact ⟨rfl, hb⟩
  | cons a xs ih =>
    obtain ⟨hstep, hnext⟩ := h b hb a List.mem_cons_self
    rw [List.foldlM_cons, hstep, List.foldl_cons]
    exact ih hnext fun b hb a ha => h b hb a (List.mem_cons_of_mem _ ha)

theorem mapM_eq_some {α β : Type} {f : α → Option β} {g : α → β} {xs : Array α}
    (h : ∀ a ∈ xs, f a = some (g a)) : xs.mapM f = some (xs.map g) := by
  obtain ⟨xs⟩ := xs
  have hlist : xs.mapM f = some (xs.map g) := by
    induction xs with
    | nil => rfl
    | cons a xs ih =>
      have hrest := ih fun b hb => h b (by simpa using Or.inr (by simpa using hb))
      rw [List.mapM_cons, h a (by simp), hrest]
      rfl
  rw [List.mapM_toArray, hlist, Option.map_eq_map, Option.map_some, List.map_toArray]

-- ---------------------------------------------------------------------------
-- Marks
-- ---------------------------------------------------------------------------

theorem size_take : (x.take id).marks.size = x.marks.size := by
  unfold Gathering.take
  split
  · rfl
  · simp

theorem take?_eq (hid : id.index < x.marks.size) : take? x id = some (x.take id) := by
  cases hm : x.marks[id.index] <;> simp [take?, Gathering.take, mark?, hm, hid]

theorem Closed.join?_eq (h : ix.Closed) (hx : x.marks.size = ix.names.size) (left right : Cell) :
    ix.join? x left right = some (ix.join x left right) ∧
      (ix.join x left right).marks.size = ix.names.size := by
  let P : Gathering → Prop := fun x => x.marks.size = ix.names.size
  refine foldlM_eq_some (P := P) hx fun x hx l _ => ?_
  refine foldlM_eq_some (P := P) hx fun x hx r _ => ?_
  refine foldlM_eq_some (P := P) hx fun x hx id hid => ?_
  exact ⟨take?_eq (hx ▸ h _ id hid), size_take.trans hx⟩

theorem clear?_eq (h : x.Marked n) : clear? x = some x.clear := by
  refine (foldlM_eq_some (P := fun marks => marks.size = n) h.size fun marks hm id hid => ?_).1
  have hset : x.marks[id.index]?.getD false = true := (h.marked id).mpr hid
  have hlt : id.index < n := by
    by_contra hge
    rw [Array.getElem?_eq_none (by rw [h.size]; omega)] at hset
    exact Bool.false_ne_true hset
  exact ⟨if_pos (hm ▸ hlt), by simpa using hm⟩

-- ---------------------------------------------------------------------------
-- Places
-- ---------------------------------------------------------------------------

/-- In a table of the full shape some rows are done, and the next one is begun. -/
structure Placed (n : Nat) (rows : Rows) (row : Array Cell) (cells : Rows) : Prop where
  size : cells.size = n
  width : ∀ {i other}, cells[i]? = some other → other.size = n - i
  done : ∀ i < rows.size, cells[i]? = rows[i]?
  begun : ∀ j < row.size, read? cells rows.size j = row[j]?

namespace Placed

theorem blank (n : Nat) : Placed n #[] #[] (blank n) where
  size := by simp [RuleIndex.blank]
  width {i other} h := by
    obtain ⟨hi, rfl⟩ := Array.getElem?_eq_some_iff.mp h
    simp [RuleIndex.blank]
  done i hi := by simp at hi
  begun j hj := by simp at hj

theorem exists_row (h : Placed n rows row cells) (hi : i < n) :
    ∃ other, cells[i]? = some other ∧ other.size = n - i := by
  have hlt : i < cells.size := h.size ▸ hi
  exact ⟨cells[i], Array.getElem?_eq_getElem hlt, h.width (Array.getElem?_eq_getElem hlt)⟩

theorem read?_eq (h : Placed n rows row cells) (hi : i < rows.size) (hn : i < n) (hj : j < n - i) :
    read? cells i j = some (cellAt rows (i + 1) j) := by
  obtain ⟨other, ho, hw⟩ := h.exists_row hn
  have hrow : rows[i]? = some other := by rw [← h.done i hi, ho]
  have hlt : j < other.size := hw ▸ hj
  simp [read?, cellAt, ho, hrow, hlt]

theorem write? (h : Placed n rows row cells) (hi : rows.size < n) (hj : row.size < n - rows.size)
    (cell : Cell) : ∃ next, write? cells rows.size row.size cell = some next ∧
      Placed n rows (row.push cell) next := by
  obtain ⟨other, ho, hw⟩ := h.exists_row hi
  have hlt : row.size < other.size := hw ▸ hj
  have hsize : rows.size < cells.size := h.size ▸ hi
  refine ⟨cells.setIfInBounds rows.size (other.setIfInBounds row.size cell), ?_, ?_, ?_, ?_, ?_⟩
  · simp [RuleIndex.write?, ho, hlt]
  · simpa using h.size
  · intro i changed hc
    rw [Array.getElem?_setIfInBounds] at hc
    split at hc
    next hi =>
      rw [Option.some.injEq] at hc
      rw [← hc, ← hi, Array.size_setIfInBounds, hw]
    next => exact h.width hc
  · intro i hi
    rw [Array.getElem?_setIfInBounds_ne (Nat.ne_of_gt hi), h.done i hi]
  · intro j hj
    have hread : read? (cells.setIfInBounds rows.size (other.setIfInBounds row.size cell))
        rows.size j = (other.setIfInBounds row.size cell)[j]? := by
      simp [read?, hsize]
    have hbegun : ∀ j < row.size, other[j]? = row[j]? := fun j hj => by
      rw [← h.begun j hj]
      simp [read?, ho]
    rw [hread, Array.getElem?_setIfInBounds, Array.getElem?_push]
    by_cases he : j = row.size
    · simp [he, hlt]
    · rw [if_neg (Ne.symm he), if_neg he, hbegun j (by simp at hj; omega)]

theorem finish (h : Placed n rows row cells) (hi : rows.size < n)
    (hj : row.size = n - rows.size) : Placed n (rows.push row) #[] cells where
  size := h.size
  width := h.width
  done i hlt := by
    obtain ⟨other, ho, hw⟩ := h.exists_row hi
    rw [Array.getElem?_push]
    split
    next he =>
      subst he
      rw [ho, Option.some.injEq]
      refine Array.ext (hw.trans hj.symm) fun j hj hj' => ?_
      have hbegun := h.begun j hj'
      simpa [read?, ho, hj, hj'] using hbegun
    next hne =>
      rw [Array.size_push] at hlt
      exact h.done i (by omega)
  begun j hj := by simp at hj

theorem eq_rows (h : Placed n rows row cells) (hn : rows.size = n) : cells = rows := by
  refine Array.ext_getElem? fun i => ?_
  by_cases hi : i < rows.size
  · exact h.done i hi
  · rw [Array.getElem?_eq_none (by rw [h.size]; omega), Array.getElem?_eq_none (by omega)]

end Placed

-- ---------------------------------------------------------------------------
-- Cells and rows
-- ---------------------------------------------------------------------------

theorem fillBase?_eq (ix : RuleIndex) (tokens : List String) (h : Placed n #[] row cells)
    (hn : row.size + tokens.length ≤ n) :
    ∃ next, ix.fillBase? cells (tokens.zipIdx row.size) = some next ∧
      Placed n #[] (row ++ ix.baseRow tokens) next := by
  induction tokens generalizing row cells with
  | nil => exact ⟨cells, rfl, by simpa [baseRow] using h⟩
  | cons token tokens ih =>
    rw [List.length_cons] at hn
    obtain ⟨next, hwrite, hnext⟩ := h.write? (by simp; omega) (by simp; omega)
      (ix.lexical.lookup token)
    obtain ⟨last, hlast, hplaced⟩ := ih hnext (by simp; omega)
    refine ⟨last, ?_, ?_⟩
    · have hfirst : RuleIndex.write? cells 0 row.size (ix.lexical.lookup token) = some next :=
        hwrite
      rw [Array.size_push] at hlast
      rw [fillBase?, List.zipIdx_cons, List.foldlM_cons, hfirst]
      exact hlast
    · simpa [baseRow] using hplaced

theorem Closed.joinAll?_eq (h : ix.Closed) (hp : Placed n rows row cells)
    (hs : span = rows.size + 1) (hn : start + span ≤ n) :
    ix.joinAll? cells ix.noMarks span start = some (ix.joinAll rows ix.noMarks span start) := by
  let P : Gathering → Prop := fun x => x.marks.size = ix.names.size
  refine (foldlM_eq_some (P := P) Array.size_replicate fun x hx k hk => ?_).1
  obtain ⟨hk₁, hk₂⟩ := List.mem_range'_1.mp hk
  have hleft : read? cells (k - 1) start = some (cellAt rows k start) := by
    rw [hp.read?_eq (by omega) (by omega) (by omega), Nat.sub_add_cancel hk₁]
  have hright : read? cells (span - k - 1) (start + k) =
      some (cellAt rows (span - k) (start + k)) := by
    rw [hp.read?_eq (by omega) (by omega) (by omega), Nat.sub_add_cancel (by omega)]
  rw [hleft, hright]
  exact h.join?_eq hx _ _

theorem Closed.fillCell?_eq (h : ix.Closed) (hp : Placed n rows row cells)
    (hn : row.size + (rows.size + 1) ≤ n) :
    ∃ next, ix.fillCell? (rows.size + 1) (cells, ix.noMarks) row.size =
        some (next, ix.noMarks) ∧
      Placed n rows (row.push (ix.joinAll rows ix.noMarks (rows.size + 1) row.size).found)
        next := by
  have hmarked : (ix.joinAll rows ix.noMarks (rows.size + 1) row.size).Marked ix.names.size :=
    h.joinAll.1
  obtain ⟨next, hwrite, hnext⟩ := hp.write? (by omega) (by omega)
    (ix.joinAll rows ix.noMarks (rows.size + 1) row.size).found
  have hjoin := h.joinAll?_eq hp rfl hn
  have hclear : clear? (ix.joinAll rows ix.noMarks (rows.size + 1) row.size) = some ix.noMarks := by
    rw [clear?_eq hmarked, hmarked.clear_eq, noMarks]
  exact ⟨next, by simp [fillCell?, hjoin, hclear, hwrite], hnext⟩

theorem Closed.fillRow?_eq (h : ix.Closed) (hp : Placed n rows #[] cells) (hn : rows.size < n) :
    ∃ next, ix.fillRow? n (cells, ix.noMarks) (rows.size + 1) = some (next, ix.noMarks) ∧
      Placed n (rows.push (ix.joinRow n rows ix.noMarks (rows.size + 1)).1) #[] next := by
  -- by induction on the number of cells of the row that have been filled
  have hcells : ∀ m ≤ n - rows.size, ∃ next,
      (List.range m).foldlM (ix.fillCell? (rows.size + 1)) (cells, ix.noMarks) =
        some (next, ix.noMarks) ∧
      Placed n rows ((List.range m).map fun start =>
        (ix.joinAll rows ix.noMarks (rows.size + 1) start).found).toArray next := by
    intro m hm
    induction m with
    | zero => exact ⟨cells, rfl, hp⟩
    | succ m ih =>
      obtain ⟨before, hbefore, hplaced⟩ := ih (by omega)
      obtain ⟨next, hnext, hdone⟩ := h.fillCell?_eq hplaced (by simp; omega)
      refine ⟨next, ?_, by simpa [List.range_succ] using hdone⟩
      rw [List.range_succ, List.foldlM_append, hbefore]
      simpa using hnext
  obtain ⟨next, hnext, hplaced⟩ := hcells (n - rows.size) (Nat.le_refl _)
  have hwidth : n - (rows.size + 1) + 1 = n - rows.size := by omega
  refine ⟨next, ?_, ?_⟩
  · rw [fillRow?, hwidth, hnext]
  · rw [h.joinRow_eq, hwidth]
    exact hplaced.finish hn (by simp)

-- ---------------------------------------------------------------------------
-- Tables
-- ---------------------------------------------------------------------------

theorem fillRows?_eq {g : Grammar} (d : ix.Describes g.rules)
    (h : Placed tokens.length #[ix.baseRow tokens] #[] cells) {m : Nat}
    (hm : m + 1 ≤ tokens.length) :
    ∃ next, (List.range' 2 m).foldlM (ix.fillRow? tokens.length) (cells, ix.noMarks) =
        some (next, ix.noMarks) ∧
      Placed tokens.length (ix.rowsUpTo tokens (m + 1)).1 #[] next := by
  induction m with
  | zero => exact ⟨cells, rfl, h⟩
  | succ m ih =>
    obtain ⟨before, hbefore, hplaced⟩ := ih (by omega)
    have hle : m + 1 ≤ tokens.length := by omega
    obtain ⟨hmarks, hsize, -⟩ := rowsUpTo_filled d hle
    obtain ⟨next, hnext, hdone⟩ := d.closed.fillRow?_eq hplaced (by omega)
    rw [hsize] at hnext hdone
    refine ⟨next, ?_, ?_⟩
    · have hspan : 2 + 1 * m = m + 1 + 1 := by omega
      rw [List.range'_concat, List.foldlM_append, hbefore, hspan]
      simpa using hnext
    · simpa [rowsUpTo, hmarks] using hdone

theorem mapM_name?_eq {t : NameTable} (h : ∀ id ∈ cell, ∃ A, t.name? id = some A) :
    cell.mapM t.name? = some (t.resolve cell) := by
  induction cell with
  | nil => rfl
  | cons id cell ih =>
    obtain ⟨A, hA⟩ := h id List.mem_cons_self
    rw [List.mapM_cons, hA, ih fun other ho => h other (List.mem_cons_of_mem _ ho)]
    simp [NameTable.resolve, hA]

theorem fillAll?_eq {g : Grammar} (d : ix.Describes g.rules) (tokens : List String) :
    ∃ base, ix.fillBase? (blank tokens.length) tokens.zipIdx = some base ∧
      (List.range' 2 (tokens.length - 1)).foldlM (ix.fillRow? tokens.length) (base, ix.noMarks) =
        some ((ix.rowsUpTo tokens tokens.length).1, ix.noMarks) := by
  have hsize := (filled_rows d tokens).1
  obtain ⟨base, hbase, hplaced⟩ := fillBase?_eq ix tokens (Placed.blank tokens.length) (by simp)
  have hstart : Placed tokens.length #[] (ix.baseRow tokens) base := by simpa using hplaced
  refine ⟨base, hbase, ?_⟩
  cases tokens with
  | nil =>
    -- there is no row here, not even the base row
    rw [hstart.eq_rows rfl]
    rfl
  | cons token tokens =>
    obtain ⟨cells, hcells, hdone⟩ := fillRows?_eq (m := tokens.length) d
      (hstart.finish (by simp) (by simp [baseRow])) (by simp)
    have heq : cells = (ix.rowsUpTo (token :: tokens) (tokens.length + 1)).1 :=
      hdone.eq_rows hsize
    rw [heq] at hcells
    exact hcells

theorem fill?_eq {g : Grammar} (d : ix.Describes g.rules) (tokens : List String) :
    ix.fill? tokens = some (ix.fill tokens) := by
  obtain ⟨base, hbase, hall⟩ := fillAll?_eq d tokens
  have hnames : ∀ row ∈ (ix.rowsUpTo tokens tokens.length).1, ∀ cell ∈ row, ∀ id ∈ cell,
      ∃ A, ix.names.name? id = some A := by
    intro row hrow cell hcell id hid
    obtain ⟨i, hi⟩ := Array.mem_iff_getElem?.mp hrow
    obtain ⟨j, hj⟩ := Array.mem_iff_getElem?.mp hcell
    have hat : cellAt (ix.rowsUpTo tokens tokens.length).1 (i + 1) j = cell := by
      simp [cellAt, hi, hj]
    exact (filled_rows d tokens).2.named (hat ▸ hid)
  have hmap : ((ix.rowsUpTo tokens tokens.length).1.mapM fun row =>
      row.mapM fun cell => cell.mapM ix.names.name?) =
        some ((ix.rowsUpTo tokens tokens.length).1.map fun row => row.map ix.names.resolve) :=
    mapM_eq_some fun row hrow => mapM_eq_some fun cell hcell =>
      mapM_name?_eq (hnames row hrow cell hcell)
  simp only [fill?, hbase, hall, hmap, Option.bind_eq_bind, Option.bind_some]
  rfl

end ContextFree.RuleIndex
