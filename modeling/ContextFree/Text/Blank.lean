import ContextFree.Text.CharClass

/-!
# Blank characters

The characters with the Unicode property White_Space, and the two ways in
which text is cut at them: `trim` drops them from both ends, `words` keeps the
stretches between them. Both work on lists of characters.
-/

namespace ContextFree.Text

def blankRuns : List CodeRun :=
  [⟨0x9, 0xD, 1⟩, ⟨0x20, 0x20, 1⟩, ⟨0x85, 0x85, 1⟩, ⟨0xA0, 0xA0, 1⟩, ⟨0x1680, 0x1680, 1⟩,
   ⟨0x2000, 0x200A, 1⟩, ⟨0x2028, 0x2029, 1⟩, ⟨0x202F, 0x202F, 1⟩, ⟨0x205F, 0x205F, 1⟩,
   ⟨0x3000, 0x3000, 1⟩]

def isBlank (c : Char) : Bool := inRuns blankRuns c

def trim (cs : List Char) : List Char :=
  ((cs.dropWhile isBlank).reverse.dropWhile isBlank).reverse

def words (cs : List Char) : List (List Char) :=
  (cs.splitOnP isBlank).filter fun word => !word.isEmpty

def IsWord (cs : List Char) : Prop := cs ≠ [] ∧ ∀ c ∈ cs, isBlank c = false

structure Trimmed (cs : List Char) : Prop where
  first : ∀ c, cs.head? = some c → isBlank c = false
  last : ∀ c, cs.getLast? = some c → isBlank c = false

@[simp] theorem trim_nil : trim [] = [] := rfl

@[simp] theorem words_nil : words [] = [] := by simp [words]

theorem forall_mem_splitOnP {p : Char → Bool} {piece cs : List Char} (h : piece ∈ cs.splitOnP p) :
    ∀ c ∈ piece, p c = false := by
  induction cs generalizing piece with
  | nil =>
    obtain rfl : piece = [] := by simpa using h
    simp
  | cons c cs ih =>
    rw [List.splitOnP_cons_eq_if_modifyHead] at h
    split at h
    · rcases List.mem_cons.mp h with rfl | h
      · simp
      · exact ih h
    · rename_i hc
      cases hcut : cs.splitOnP p with
      | nil => exact absurd hcut (List.splitOnP_ne_nil p cs)
      | cons first rest =>
        rw [hcut] at h ih
        rcases List.mem_cons.mp h with rfl | h
        · exact List.forall_mem_cons.mpr ⟨by simpa using hc, ih List.mem_cons_self⟩
        · exact ih (List.mem_cons_of_mem _ h)

theorem isWord_of_mem_words {word cs : List Char} (h : word ∈ words cs) : IsWord word := by
  obtain ⟨hm, hne⟩ := List.mem_filter.mp h
  exact ⟨by simpa using hne, forall_mem_splitOnP hm⟩

theorem words_word {word : List Char} (h : IsWord word) : words word = [word] := by
  simp [words, List.splitOnP_eq_singleton h.2, h.1]

theorem words_word_append {word : List Char} {c : Char} (h : IsWord word) (hc : isBlank c = true)
    (cs : List Char) : words (word ++ c :: cs) = word :: words cs := by
  simp [words, List.splitOnP_append_cons_of_forall_mem h.2 c hc, h.1]

theorem words_intercalate {parts : List (List Char)} (h : ∀ part ∈ parts, IsWord part) :
    words ([' '].intercalate parts) = parts := by
  induction parts with
  | nil => rfl
  | cons part parts ih =>
    obtain ⟨hpart, hparts⟩ := List.forall_mem_cons.mp h
    cases parts with
    | nil => rw [List.intercalate_singleton, words_word hpart]
    | cons second rest =>
      rw [List.intercalate_cons_cons, List.append_assoc, List.singleton_append,
        words_word_append hpart (by decide), ih hparts]

theorem trimmed_of_no_blank {cs : List Char} (h : ∀ c ∈ cs, isBlank c = false) : Trimmed cs :=
  ⟨fun c hc => h c (List.mem_of_mem_head? hc), fun c hc => h c (List.mem_of_mem_getLast? hc)⟩

theorem Trimmed.append {left right : List Char} (hl : Trimmed left) (hr : Trimmed right)
    (hleft : left ≠ []) (hright : right ≠ []) (middle : List Char) :
    Trimmed (left ++ middle ++ right) := by
  constructor
  · intro c hc
    rw [List.append_assoc, List.head?_append, List.head?_eq_some_head hleft, Option.some_or] at hc
    exact hl.first c (hc ▸ List.head?_eq_some_head hleft)
  · intro c hc
    rw [List.getLast?_append, List.getLast?_eq_some_getLast hright, Option.some_or] at hc
    exact hr.last c (hc ▸ List.getLast?_eq_some_getLast hright)

theorem trimmed_intercalate {parts : List (List Char)} (hne : parts ≠ [])
    (h : ∀ part ∈ parts, IsWord part) :
    [' '].intercalate parts ≠ [] ∧ Trimmed ([' '].intercalate parts) := by
  induction parts with
  | nil => contradiction
  | cons part parts ih =>
    obtain ⟨hpart, hparts⟩ := List.forall_mem_cons.mp h
    have hfirst := trimmed_of_no_blank hpart.2
    cases parts with
    | nil => rw [List.intercalate_singleton]; exact ⟨hpart.1, hfirst⟩
    | cons second rest =>
      obtain ⟨hrest, htrimmed⟩ := ih (List.cons_ne_nil _ _) hparts
      rw [List.intercalate_cons_cons]
      exact ⟨by simp, hfirst.append htrimmed hpart.1 hrest [' ']⟩

theorem dropWhile_isBlank {cs : List Char} (h : ∀ c, cs.head? = some c → isBlank c = false) :
    cs.dropWhile isBlank = cs := by
  cases cs with
  | nil => rfl
  | cons c cs => rw [List.dropWhile_cons, h c rfl]; rfl

/-- Blanks on both sides are all that is dropped. -/
theorem trim_pad {left cs right : List Char} (h : Trimmed cs) (hne : cs ≠ [])
    (hl : ∀ c ∈ left, isBlank c = true) (hr : ∀ c ∈ right, isBlank c = true) :
    trim (left ++ cs ++ right) = cs := by
  have hfirst : ∀ c, (cs ++ right).head? = some c → isBlank c = false := by
    intro c hc
    rw [List.head?_append, List.head?_eq_some_head hne, Option.some_or] at hc
    exact h.first c (hc ▸ List.head?_eq_some_head hne)
  have hlast : ∀ c, cs.reverse.head? = some c → isBlank c = false := by
    intro c hc
    rw [List.head?_reverse] at hc
    exact h.last c hc
  unfold trim
  rw [List.append_assoc, List.dropWhile_append_of_pos hl, dropWhile_isBlank hfirst,
    List.reverse_append, List.dropWhile_append_of_pos (by simpa using hr),
    dropWhile_isBlank hlast, List.reverse_reverse]

theorem trim_concat_blank {c : Char} (cs : List Char) (h : isBlank c = true) :
    trim (cs ++ [c]) = trim cs := by
  unfold trim
  rw [List.dropWhile_append]
  split
  · rename_i hnone
    rw [List.isEmpty_iff.mp hnone]
    simp [h]
  · rw [List.reverse_append, List.reverse_singleton, List.singleton_append, List.dropWhile_cons,
      if_pos h]

example : words "  the dog\tbarks ".toList = ["the".toList, "dog".toList, "barks".toList] := by
  decide +kernel

example : trim "\u2003 a b \u00a0".toList = "a b".toList := by decide +kernel

end ContextFree.Text
