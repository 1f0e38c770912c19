import ContextFree.Derivation
import ContextFree.Proofs.CellFilling
import ContextFree.Proofs.EmptyWord
import ContextFree.Proofs.RuleIndexes

/-!
# What a parse table holds

A cell lists exactly the nonterminals that derive its stretch of the word by
productions in Chomsky normal form, whatever other productions there are. By
these a stretch of one symbol is derived in one step, and a longer one is cut
in two non-empty parts, which stand in earlier rows.
-/

namespace ContextFree

variable {g : Grammar} {p : Production} {A B C : String} {w tokens : List String}
variable {span start : Nat} {id : NameId} {ix : RuleIndex}

-- ---------------------------------------------------------------------------
-- Stretches
-- ---------------------------------------------------------------------------

/-- The `span` symbols of a word from `start` on. -/
def stretch (w : List String) (span start : Nat) : List String := (w.drop start).take span

theorem length_stretch (h : start + span ≤ w.length) : (stretch w span start).length = span := by
  simp only [stretch, List.length_take, List.length_drop]
  omega

theorem stretch_whole (w : List String) : stretch w w.length 0 = w := by
  simp [stretch]

theorem stretch_one (h : start < w.length) : stretch w 1 start = [w[start]] := by
  rw [stretch, List.drop_eq_getElem_cons h, List.take_succ_cons, List.take_zero]

theorem stretch_split {k : Nat} (hk : k ≤ span) :
    stretch w span start = stretch w k start ++ stretch w (span - k) (start + k) := by
  obtain ⟨rest, rfl⟩ := Nat.exists_eq_add_of_le hk
  simp [stretch, List.take_add]

theorem stretch_eq_append {u v : List String} (h : start + span ≤ w.length)
    (huv : stretch w span start = u ++ v) :
    u.length ≤ span ∧ u = stretch w u.length start ∧
      v = stretch w (span - u.length) (start + u.length) := by
  have hl : u.length + v.length = span := by
    rw [← length_stretch h, huv, List.length_append]
  have hk : u.length ≤ span := by omega
  have hlen : (stretch w u.length start).length = u.length := length_stretch (by omega)
  obtain ⟨hu, hv⟩ := List.append_inj ((stretch_split hk).symm.trans huv) hlen
  exact ⟨hk, hu.symm, hv.symm⟩

-- ---------------------------------------------------------------------------
-- Derivations by productions in normal form
-- ---------------------------------------------------------------------------

namespace Grammar

def normalPart (g : Grammar) : Grammar := g.removeAll g.violations

@[simp] theorem mem_productions_normalPart :
    p ∈ g.normalPart.productions A ↔ p ∈ g.productions A ∧ p.IsNormal := by
  have hv : (A, p) ∈ g.violations ↔ p ∈ g.productions A ∧ ¬ p.IsNormal := by
    simp [violations]
  rw [normalPart, mem_productions_removeAll, hv]
  constructor
  · rintro ⟨hp, hn⟩
    exact ⟨hp, by_contra fun h => hn ⟨hp, h⟩⟩
  · rintro ⟨hp, hn⟩
    exact ⟨hp, fun h => h.2 hn⟩

theorem derives_normalPart_iff : g.normalPart.Derives A w ↔
    (∃ t, [.terminal t] ∈ g.productions A ∧ w = [t]) ∨
    ∃ B C, [.nonterminal B, .nonterminal C] ∈ g.productions A ∧
      ∃ u v, w = u ++ v ∧ g.normalPart.Derives B u ∧ g.normalPart.Derives C v := by
  constructor
  · intro hd
    obtain ⟨p, hp, hy⟩ := derives_iff.mp hd
    obtain ⟨hp, hn⟩ := mem_productions_normalPart.mp hp
    cases hn with
    | terminal t => exact Or.inl ⟨t, hp, Yields.terminal_iff.mp hy⟩
    | binary B C => exact Or.inr ⟨B, C, hp, Yields.cons_iff.mp hy⟩
  · rintro (⟨t, hp, hw⟩ | ⟨B, C, hp, hw⟩)
    · exact derives_of_mem (mem_productions_normalPart.mpr ⟨hp, .terminal t⟩)
        (Yields.terminal_iff.mpr hw)
    · exact derives_of_mem (mem_productions_normalPart.mpr ⟨hp, .binary B C⟩)
        (Yields.cons_iff.mpr hw)

theorem ne_nil_of_derives_normalPart (hd : g.normalPart.Derives A w) : w ≠ [] := by
  have hn : ∀ head, [] ∉ g.normalPart.productions head := by
    intro head hm
    cases (mem_productions_normalPart.mp hm).2
  intro hw
  cases Yields.eq_nil hn hd hw

theorem derives_normalPart_of_inNormalForm (h : g.InNormalForm) :
    g.normalPart.Derives A w ↔ g.Derives A w := by
  refine Yields.congr fun name q => ?_
  rw [mem_productions_normalPart]
  exact and_iff_left_of_imp fun hq => h (name, q) (mem_rules_iff.mpr hq)

theorem derives_stretch_one (h : start < w.length) :
    g.normalPart.Derives A (stretch w 1 start) ↔ [.terminal w[start]] ∈ g.productions A := by
  rw [stretch_one h, derives_normalPart_iff]
  constructor
  · rintro (⟨t, hp, hw⟩ | ⟨B, C, -, u, v, hw, hB, hC⟩)
    · obtain rfl : w[start] = t := by simpa using hw
      exact hp
    · have hu := List.length_pos_iff.mpr (ne_nil_of_derives_normalPart hB)
      have hv := List.length_pos_iff.mpr (ne_nil_of_derives_normalPart hC)
      have hl := congrArg List.length hw
      simp only [List.length_singleton, List.length_append] at hl
      omega
  · exact fun hp => Or.inl ⟨_, hp, rfl⟩

theorem derives_stretch (hs : 2 ≤ span) (h : start + span ≤ w.length) :
    g.normalPart.Derives A (stretch w span start) ↔ ∃ k, 1 ≤ k ∧ k < span ∧
      ∃ B C, [.nonterminal B, .nonterminal C] ∈ g.productions A ∧
        g.normalPart.Derives B (stretch w k start) ∧
        g.normalPart.Derives C (stretch w (span - k) (start + k)) := by
  have hlen := length_stretch h
  constructor
  · intro hd
    rcases derives_normalPart_iff.mp hd with ⟨t, -, hw⟩ | ⟨B, C, hp, u, v, hw, hB, hC⟩
    · rw [hw, List.length_singleton] at hlen
      omega
    · have hu := List.length_pos_iff.mpr (ne_nil_of_derives_normalPart hB)
      have hv := List.length_pos_iff.mpr (ne_nil_of_derives_normalPart hC)
      rw [hw, List.length_append] at hlen
      obtain ⟨-, hu', hv'⟩ := stretch_eq_append h hw
      exact ⟨u.length, hu, by omega, B, C, hp, hu' ▸ hB, hv' ▸ hC⟩
  · rintro ⟨k, -, hk, B, C, hp, hB, hC⟩
    exact derives_normalPart_iff.mpr
      (Or.inr ⟨B, C, hp, _, _, stretch_split (Nat.le_of_lt hk), hB, hC⟩)

end Grammar

-- ---------------------------------------------------------------------------
-- Rows
-- ---------------------------------------------------------------------------

namespace RuleIndex

variable {rows : Rows} {row : Array Cell}

/-- The rows there are have the right width, and their cells hold what derives the stretch. -/
structure Filled (ix : RuleIndex) (g : Grammar) (tokens : List String) (rows : Rows) : Prop where
  widths : ∀ {i row}, rows[i]? = some row → row.size = tokens.length - i
  named : ∀ {span start id}, id ∈ cellAt rows span start → ∃ A, ix.names.name? id = some A
  cells : ∀ {span start A}, 1 ≤ span → (A ∈ ix.names.resolve (cellAt rows span start) ↔
    span ≤ rows.size ∧ start + span ≤ tokens.length ∧
      g.normalPart.Derives A (stretch tokens span start))

theorem cellAt_push : cellAt (rows.push row) span start =
    if span - 1 = rows.size then row[start]?.getD [] else cellAt rows span start := by
  by_cases h : span - 1 = rows.size <;> simp [cellAt, Array.getElem?_push, h]

theorem Describes.closed {rules : List Rule} (d : ix.Describes rules) : ix.Closed := by
  rintro ⟨l, r⟩ id hid
  obtain ⟨A, hA⟩ := d.exists_name_of_mem_binary hid
  exact NameTable.lt_size_of_name? hA

namespace Filled

theorem nothing : ix.Filled g tokens #[] where
  widths h := by simp at h
  named h := by simp [cellAt] at h
  cells {span start A} hs := by
    have hne : span ≠ 0 := by omega
    simp [cellAt, hne]

theorem push (h : ix.Filled g tokens rows) (hw : row.size = tokens.length - rows.size)
    (hnamed : ∀ start : Nat, ∀ id ∈ row[start]?.getD [], ∃ A, ix.names.name? id = some A)
    (hcells : ∀ (start : Nat) A, A ∈ ix.names.resolve (row[start]?.getD []) ↔
      start + (rows.size + 1) ≤ tokens.length ∧
        g.normalPart.Derives A (stretch tokens (rows.size + 1) start)) :
    ix.Filled g tokens (rows.push row) where
  widths {i other} ho := by
    rw [Array.getElem?_push] at ho
    split at ho
    next hi =>
      cases ho
      rw [hi, hw]
    next => exact h.widths ho
  named {span start id} hid := by
    rw [cellAt_push] at hid
    split at hid
    · exact hnamed start id hid
    · exact h.named hid
  cells {span start A} hs := by
    rw [cellAt_push]
    split
    next hi =>
      obtain rfl : span = rows.size + 1 := by omega
      simp [hcells]
    next hi =>
      rw [h.cells hs, Array.size_push]
      have hle : span ≤ rows.size + 1 ↔ span ≤ rows.size := by omega
      rw [hle]

theorem baseRow (d : ix.Describes g.rules) (tokens : List String) :
    ix.Filled g tokens #[ix.baseRow tokens] := by
  have hcell : ∀ start : Nat, (ix.baseRow tokens)[start]?.getD [] =
      (tokens[start]?.map ix.lexical.lookup).getD [] := by
    simp [RuleIndex.baseRow]
  refine nothing.push (by simp [RuleIndex.baseRow]) (fun start id hid => ?_) fun start A => ?_
  · rw [hcell] at hid
    cases ht : tokens[start]? with
    | none => simp [ht] at hid
    | some t => exact (d.lexical t).exists_name (by simpa [ht] using hid)
  · rw [hcell, Array.size_empty]
    by_cases hn : start < tokens.length
    · rw [List.getElem?_eq_getElem hn, Option.map_some, Option.getD_some, d.mem_lexical,
        ← Grammar.derives_stretch_one hn]
      exact (and_iff_right hn).symm
    · rw [List.getElem?_eq_none (Nat.le_of_not_lt hn)]
      constructor
      · simp
      · rintro ⟨hle, -⟩
        exact absurd hle hn

theorem mem_parents (h : ix.Filled g tokens rows) (d : ix.Describes g.rules) (hr : 1 ≤ rows.size)
    (hs : span = rows.size + 1) (hn : start + span ≤ tokens.length) :
    A ∈ ix.names.resolve (ix.parents rows span start) ↔
      g.normalPart.Derives A (stretch tokens span start) := by
  rw [Grammar.derives_stretch (by omega) hn, NameTable.mem_resolve]
  constructor
  · rintro ⟨id, hid, hA⟩
    obtain ⟨k, hk₁, hk, l, hl, r, hr, hp⟩ := RuleIndex.mem_parents.mp hid
    obtain ⟨B, hB⟩ := h.named hl
    obtain ⟨C, hC⟩ := h.named hr
    have hleft := (h.cells hk₁).mp (NameTable.mem_resolve.mpr ⟨l, hl, hB⟩)
    have hright := (h.cells (by omega)).mp (NameTable.mem_resolve.mpr ⟨r, hr, hC⟩)
    have hpair := (d.mem_binary hB hC).mp (NameTable.mem_resolve.mpr ⟨id, hp, hA⟩)
    exact ⟨k, hk₁, hk, B, C, hpair, hleft.2.2, hright.2.2⟩
  · rintro ⟨k, hk₁, hk, B, C, hpair, hB, hC⟩
    obtain ⟨l, hl, hlB⟩ := NameTable.mem_resolve.mp
      ((h.cells hk₁).mpr ⟨by omega, by omega, hB⟩)
    obtain ⟨r, hr, hrC⟩ := NameTable.mem_resolve.mp
      ((h.cells (by omega)).mpr ⟨by omega, by omega, hC⟩)
    obtain ⟨id, hid, hA⟩ := NameTable.mem_resolve.mp ((d.mem_binary hlB hrC).mpr hpair)
    exact ⟨id, RuleIndex.mem_parents.mpr ⟨k, hk₁, hk, l, hl, r, hr, hid⟩, hA⟩

theorem joinRow (h : ix.Filled g tokens rows) (d : ix.Describes g.rules) (hr : 1 ≤ rows.size)
    (hn : rows.size < tokens.length) :
    ix.Filled g tokens
      (rows.push (ix.joinRow tokens.length rows ix.noMarks (rows.size + 1)).1) := by
  refine h.push ?_ (fun start id hid => ?_) fun start A => ?_
  · rw [d.closed.size_joinRow]
    omega
  · obtain ⟨-, hp⟩ := (d.closed.mem_joinRow hn).mp hid
    obtain ⟨k, -, -, l, -, r, -, hp⟩ := RuleIndex.mem_parents.mp hp
    exact d.exists_name_of_mem_binary hp
  · simp only [NameTable.mem_resolve, d.closed.mem_joinRow hn, and_assoc, exists_and_left]
    refine and_congr_right fun hle => ?_
    rw [← h.mem_parents d hr rfl hle, NameTable.mem_resolve]

end Filled

theorem rowsUpTo_filled (d : ix.Describes g.rules) (hn : span ≤ tokens.length) :
    (ix.rowsUpTo tokens span).2 = ix.noMarks ∧ (ix.rowsUpTo tokens span).1.size = span ∧
      ix.Filled g tokens (ix.rowsUpTo tokens span).1 := by
  fun_induction rowsUpTo ix tokens span with
  | case1 => exact ⟨rfl, rfl, .nothing⟩
  | case2 => exact ⟨rfl, rfl, .baseRow d tokens⟩
  | case3 span hspan rows marks hrows row marks' hrow ih =>
    obtain ⟨rfl, rfl, hf⟩ : marks = ix.noMarks ∧ rows.size = span ∧ ix.Filled g tokens rows := by
      simpa [hrows] using ih (by omega)
    have hnext := hf.joinRow d (Nat.pos_of_ne_zero hspan) hn
    have hmarks : (ix.joinRow tokens.length rows ix.noMarks (rows.size + 1)).2 = ix.noMarks := by
      rw [d.closed.joinRow_eq]
    rw [hrow] at hnext hmarks
    exact ⟨hmarks, by simp, hnext⟩

-- ---------------------------------------------------------------------------
-- Tables
-- ---------------------------------------------------------------------------

theorem filled_rows (d : ix.Describes g.rules) (tokens : List String) :
    (ix.rowsUpTo tokens tokens.length).1.size = tokens.length ∧
      ix.Filled g tokens (ix.rowsUpTo tokens tokens.length).1 :=
  (rowsUpTo_filled d (Nat.le_refl _)).2

theorem cell_fill (hs : 1 ≤ span) : (ix.fill tokens).cell span start =
    inOrder (OrderedSet.ofList (ix.names.resolve
      (cellAt (ix.rowsUpTo tokens tokens.length).1 span start))).toList := by
  have hne : span ≠ 0 := by omega
  simp only [fill, Table.ofCells, Table.cell, cellAt, hne, if_false, Array.getElem?_map]
  cases hr : (ix.rowsUpTo tokens tokens.length).1[span - 1]? with
  | none => simp [inOrder, NameTable.resolve]
  | some row =>
    cases hc : row[start]? <;> simp [hc, inOrder, NameTable.resolve]

theorem wordLength_fill (d : ix.Describes g.rules) :
    (ix.fill tokens).wordLength = tokens.length := by
  simpa [fill, Table.ofCells, Table.wordLength] using (filled_rows d tokens).1

theorem ascending_cell : Ascending ((ix.fill tokens).cell span start) := by
  cases span with
  | zero => simp [Ascending]
  | succ span =>
    rw [cell_fill (by omega)]
    exact ascending_inOrder (OrderedSet.nodup _)

theorem mem_cell_fill (d : ix.Describes g.rules) : A ∈ (ix.fill tokens).cell span start ↔
    1 ≤ span ∧ start + span ≤ tokens.length ∧
      g.normalPart.Derives A (stretch tokens span start) := by
  cases span with
  | zero => simp
  | succ span =>
    obtain ⟨hsize, hf⟩ := filled_rows d tokens
    rw [cell_fill (by omega), mem_inOrder, OrderedSet.mem_toList, OrderedSet.mem_ofList,
      hf.cells (by omega), hsize]
    constructor
    · rintro ⟨-, hn, hd⟩
      exact ⟨by omega, hn, hd⟩
    · rintro ⟨-, hn, hd⟩
      exact ⟨by omega, hn, hd⟩

theorem contains_fill (d : ix.Describes g.rules) : (ix.fill tokens).Contains span start A ↔
    1 ≤ span ∧ start + span ≤ tokens.length ∧
      g.normalPart.Derives A (stretch tokens span start) :=
  (search_iff ascending_cell).trans (mem_cell_fill d)

theorem width_fill (d : ix.Describes g.rules) {i : Nat} (hi : i < (ix.fill tokens).rows.size) :
    (ix.fill tokens).rows[i].size = tokens.length - i := by
  have hrow : i < (ix.rowsUpTo tokens tokens.length).1.size := by
    simpa [fill, Table.ofCells] using hi
  simpa [fill, Table.ofCells] using
    (filled_rows d tokens).2.widths (Array.getElem?_eq_getElem hrow)

/-- Indexes of one grammar fill the same table, however they number the names. -/
theorem fill_eq {other : RuleIndex} (d : ix.Describes g.rules) (d' : other.Describes g.rules) :
    ix.fill tokens = other.fill tokens := by
  have hcell : ∀ span start,
      (ix.fill tokens).cell span start = (other.fill tokens).cell span start :=
    fun span start => ascending_cell.eq_of_mem_iff ascending_cell fun A =>
      (mem_cell_fill d).trans (mem_cell_fill d').symm
  have hsize : (ix.fill tokens).rows.size = (other.fill tokens).rows.size :=
    (wordLength_fill d).trans (wordLength_fill d').symm
  refine Table.ext (Array.ext hsize fun i hi hi' => ?_)
  refine Array.ext ((width_fill d hi).trans (width_fill d' hi').symm) fun j hj hj' => ?_
  rw [Table.getElem_rows hi hj, Table.getElem_rows hi' hj', hcell]

end RuleIndex

namespace Recognizer

theorem fill_eq (g : Grammar) (s s' : String) :
    (ofGrammar ⟨g, s⟩).fill tokens = (ofGrammar ⟨g, s'⟩).fill tokens :=
  RuleIndex.fill_eq (describes ⟨g, s⟩) (describes ⟨g, s'⟩)

theorem accepts_fill_iff (input : PointedGrammar) :
    (ofGrammar input).Accepts ((ofGrammar input).fill tokens) ↔
      0 < tokens.length ∧ input.grammar.normalPart.Derives input.start tokens := by
  have hd := describes input
  rw [Accepts, startName_ofGrammar, fill, RuleIndex.wordLength_fill hd,
    RuleIndex.contains_fill hd, stretch_whole]
  constructor
  · rintro ⟨hn, -, -, hs⟩
    exact ⟨hn, hs⟩
  · rintro ⟨hn, hs⟩
    exact ⟨hn, hn, by simp, hs⟩

/-- The table of a word, the same for all start symbols, is sorted and exact; and a recognizer
accepts it as its own start symbol says. -/
theorem fill_exact (g : Grammar) (s s' : String) (tokens : List String) :
    ((ofGrammar ⟨g, s⟩).fill tokens).wordLength = tokens.length ∧
    (∀ span start,
      (((ofGrammar ⟨g, s⟩).fill tokens).cell span start).Pairwise (· < ·) ∧
      ∀ A,
        (((ofGrammar ⟨g, s⟩).fill tokens).Contains span start A ↔
          A ∈ ((ofGrammar ⟨g, s⟩).fill tokens).cell span start) ∧
        (A ∈ ((ofGrammar ⟨g, s⟩).fill tokens).cell span start ↔
          1 ≤ span ∧ start + span ≤ tokens.length ∧
            g.normalPart.Derives A (stretch tokens span start))) ∧
    (ofGrammar ⟨g, s'⟩).fill tokens = (ofGrammar ⟨g, s⟩).fill tokens ∧
    ((ofGrammar ⟨g, s'⟩).Accepts ((ofGrammar ⟨g, s⟩).fill tokens) ↔
      0 < tokens.length ∧ g.normalPart.Derives s' tokens) := by
  have hd := describes ⟨g, s⟩
  refine ⟨RuleIndex.wordLength_fill hd, fun span start => ⟨?_, fun A => ⟨?_, ?_⟩⟩,
    fill_eq g s' s, ?_⟩
  · exact RuleIndex.ascending_cell.imp compareOfLessAndEq_eq_lt.mp
  · exact search_iff RuleIndex.ascending_cell
  · exact RuleIndex.mem_cell_fill hd
  · rw [fill_eq g s s']
    exact accepts_fill_iff ⟨g, s'⟩

end Recognizer
end ContextFree
