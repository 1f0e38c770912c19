import ContextFree.Notation.Reader
import Mathlib.Data.List.Infix

/-!
# Rule lines and their faults

What is wrong with a line can be told by counting. `occurrences` counts the
places at which a text reads a pattern, `arrowCount` does so for both arrows,
and `Offends` says of a line that is not blank which fault it has: no arrow,
more than one, no head before the arrow, a blank inside the head. A line has at
most one fault.

The reader cuts a line at its arrows instead, and stops at the first fault. The
pieces it gets number one more than the arrows (`length_cutAtArrows`), and so it
refuses a list of lines exactly when a line has a fault, with the fault and the
number of the first such line, or when all lines are blank (`readLines_outcome`).
-/

namespace ContextFree.Notation

open Text

variable {line text : List Char} {lines : List (List Char)} {fault : Fault}

-- ---------------------------------------------------------------------------
-- Arrows
-- ---------------------------------------------------------------------------

def occurrences (pattern text : List Char) : Nat := text.tails.countP (pattern.isPrefixOf ·)

def arrowCount (text : List Char) : Nat :=
  occurrences ['→'] text + occurrences ['-', '>'] text

def StartsWithArrow (text : List Char) : Prop := ['→'] <+: text ∨ ['-', '>'] <+: text

instance (text : List Char) : Decidable (StartsWithArrow text) := by
  unfold StartsWithArrow
  infer_instance

/-- The place of the first arrow of either kind, or the length of a text without one. -/
def arrowIndex (text : List Char) : Nat := text.tails.findIdx fun rest => StartsWithArrow rest

def beforeArrow (text : List Char) : List Char := text.take (arrowIndex text)

def afterArrow (text : List Char) : List Char :=
  match text.drop (arrowIndex text) with
  | '→' :: rest => rest
  | rest => rest.drop 2

theorem startsWithArrow_arrow (rest : List Char) : StartsWithArrow ('→' :: rest) :=
  Or.inl ⟨rest, rfl⟩

theorem startsWithArrow_dash (rest : List Char) : StartsWithArrow ('-' :: '>' :: rest) :=
  Or.inr ⟨rest, rfl⟩

theorem not_startsWithArrow_cons {c : Char} {rest : List Char} (harrow : c = '→' → False)
    (hdash : ∀ more, c = '-' → rest = '>' :: more → False) : ¬ StartsWithArrow (c :: rest) := by
  rintro (hp | hp)
  · exact harrow (List.cons_prefix_cons.mp hp).1.symm
  · obtain ⟨hc, more, hrest⟩ := List.cons_prefix_cons.mp hp
    exact hdash more hc.symm hrest.symm

theorem occurrences_cons {pattern : List Char} (c : Char) (text : List Char) :
    occurrences pattern (c :: text) =
      occurrences pattern text + if pattern <+: c :: text then 1 else 0 := by
  simp [occurrences, List.countP_cons]

/-- No place reads both arrows, so a place with an arrow counts once. -/
theorem arrowCount_cons (c : Char) (text : List Char) : arrowCount (c :: text) =
    arrowCount text + if StartsWithArrow (c :: text) then 1 else 0 := by
  have hboth : ¬ (['→'] <+: c :: text ∧ ['-', '>'] <+: c :: text) := by
    rintro ⟨h₁, h₂⟩
    have he := (List.cons_prefix_cons.mp h₁).1.trans (List.cons_prefix_cons.mp h₂).1.symm
    simp at he
  simp only [arrowCount, occurrences_cons, StartsWithArrow]
  by_cases h₁ : ['→'] <+: c :: text
  · have h₂ : ¬ ['-', '>'] <+: c :: text := fun h₂ => hboth ⟨h₁, h₂⟩
    simp only [h₁, h₂, if_true, if_false, true_or]
    omega
  · simp only [h₁, if_false, false_or]
    omega

theorem arrowIndex_of_startsWithArrow (h : StartsWithArrow text) : arrowIndex text = 0 := by
  cases text <;> simp [arrowIndex, List.findIdx_cons, h]

theorem arrowIndex_cons_of_not {c : Char} (h : ¬ StartsWithArrow (c :: text)) :
    arrowIndex (c :: text) = arrowIndex text + 1 := by
  simp [arrowIndex, List.findIdx_cons, h]

theorem cutAtArrows_eq (text : List Char) : cutAtArrows text =
    if arrowCount text = 0 then [text] else beforeArrow text :: cutAtArrows (afterArrow text) := by
  fun_induction cutAtArrows text with
  | case1 => rfl
  | case2 rest _ =>
    have hs := startsWithArrow_arrow rest
    rw [if_neg (by simp [arrowCount_cons, hs]), beforeArrow, afterArrow,
      arrowIndex_of_startsWithArrow hs]
    rfl
  | case3 rest _ =>
    have hs := startsWithArrow_dash rest
    rw [if_neg (by simp [arrowCount_cons, hs]), beforeArrow, afterArrow,
      arrowIndex_of_startsWithArrow hs]
    rfl
  | case4 c rest harrow hdash ih =>
    have hs := not_startsWithArrow_cons harrow hdash
    have hcount : arrowCount (c :: rest) = arrowCount rest := by simp [arrowCount_cons, hs]
    have hbefore : beforeArrow (c :: rest) = c :: beforeArrow rest := by
      rw [beforeArrow, arrowIndex_cons_of_not hs, List.take_succ_cons, beforeArrow]
    have hafter : afterArrow (c :: rest) = afterArrow rest := by
      rw [afterArrow, arrowIndex_cons_of_not hs, List.drop_succ_cons, afterArrow]
    rw [ih, hcount, hbefore, hafter]
    split <;> rfl

theorem length_cutAtArrows (text : List Char) :
    (cutAtArrows text).length = arrowCount text + 1 := by
  fun_induction cutAtArrows text with
  | case1 => rfl
  | case2 rest ih =>
    rw [List.length_cons, ih, arrowCount_cons, if_pos (startsWithArrow_arrow rest)]
  | case3 rest ih =>
    have hs : ¬ StartsWithArrow ('>' :: rest) := not_startsWithArrow_cons (by decide) (by simp)
    rw [List.length_cons, ih, arrowCount_cons, if_pos (startsWithArrow_dash rest),
      arrowCount_cons, if_neg hs]
  | case4 c rest harrow hdash ih =>
    rw [List.length_modifyHead, ih, arrowCount_cons,
      if_neg (not_startsWithArrow_cons harrow hdash)]

theorem cutAtArrows_of_count_zero (h : arrowCount text = 0) : cutAtArrows text = [text] := by
  rw [cutAtArrows_eq, if_pos h]

theorem cutAtArrows_of_count_one (h : arrowCount text = 1) :
    cutAtArrows text = [beforeArrow text, afterArrow text] := by
  have hlength := length_cutAtArrows text
  rw [cutAtArrows_eq, if_neg (by omega), List.length_cons, length_cutAtArrows] at hlength
  rw [cutAtArrows_eq, if_neg (by omega), cutAtArrows_of_count_zero (by omega)]

theorem arrowCount_eq_zero (h : ∀ c ∈ text, c ≠ '→' ∧ c ≠ '>') : arrowCount text = 0 := by
  induction text with
  | nil => rfl
  | cons c rest ih =>
    obtain ⟨hc, hrest⟩ := List.forall_mem_cons.mp h
    have hs : ¬ StartsWithArrow (c :: rest) := not_startsWithArrow_cons hc.1
      fun more _ hmore => (hrest '>' (hmore ▸ List.mem_cons_self)).2 rfl
    rw [arrowCount_cons, if_neg hs, ih hrest]

section
variable {before : List Char} (h : ∀ c ∈ before, c ≠ '→' ∧ c ≠ '>')
include h

theorem arrow_behind (after : List Char) :
    arrowCount (before ++ '-' :: '>' :: after) = arrowCount after + 1 ∧
      arrowIndex (before ++ '-' :: '>' :: after) = before.length := by
  induction before with
  | nil =>
    have hs : ¬ StartsWithArrow ('>' :: after) := not_startsWithArrow_cons (by decide) (by simp)
    rw [List.nil_append, arrowCount_cons, if_pos (startsWithArrow_dash after), arrowCount_cons,
      if_neg hs, arrowIndex_of_startsWithArrow (startsWithArrow_dash after)]
    exact ⟨rfl, rfl⟩
  | cons c before ih =>
    obtain ⟨hc, hrest⟩ := List.forall_mem_cons.mp h
    have hs : ¬ StartsWithArrow (c :: (before ++ '-' :: '>' :: after)) := by
      refine not_startsWithArrow_cons hc.1 fun more _ hmore => ?_
      cases before with
      | nil => simp at hmore
      | cons d before => exact (hrest d List.mem_cons_self).2 (List.cons.inj hmore).1
    rw [List.cons_append, arrowCount_cons, if_neg hs, arrowIndex_cons_of_not hs, (ih hrest).1,
      (ih hrest).2]
    exact ⟨rfl, rfl⟩

theorem beforeArrow_append (after : List Char) :
    beforeArrow (before ++ '-' :: '>' :: after) = before := by
  rw [beforeArrow, (arrow_behind h after).2, List.take_left]

theorem afterArrow_append (after : List Char) :
    afterArrow (before ++ '-' :: '>' :: after) = after := by
  rw [afterArrow, (arrow_behind h after).2, List.drop_left]
  rfl

end

-- ---------------------------------------------------------------------------
-- Faults
-- ---------------------------------------------------------------------------

/-- Nothing but blanks stands before the comment. -/
def Blank (line : List Char) : Prop := ∀ c ∈ withoutComment line, isBlank c = true

instance (line : List Char) : Decidable (Blank line) := List.decidableBAll _ _

def headOn (line : List Char) : List Char := trim (beforeArrow (withoutComment line))

inductive Offends (line : List Char) : Fault → Prop
  | missingArrow (shown : ¬ Blank line) (none : arrowCount (withoutComment line) = 0) :
    Offends line .missingArrow
  | multipleArrows (shown : ¬ Blank line) (many : 2 ≤ arrowCount (withoutComment line)) :
    Offends line .multipleArrows
  | emptyHead (shown : ¬ Blank line) (one : arrowCount (withoutComment line) = 1)
    (empty : headOn line = []) : Offends line .emptyHead
  | spacedHead (shown : ¬ Blank line) (one : arrowCount (withoutComment line) = 1)
    (blank : ∃ c ∈ headOn line, isBlank c = true) :
    Offends line (.spacedHead (String.ofList (headOn line)))

def Bad (line : List Char) : Prop := ∃ fault, Offends line fault

/-- What a line that is neither blank nor bad says. -/
def ruleOn (line : List Char) : RuleLine where
  head := headOn line
  alternatives := ((afterArrow (withoutComment line)).splitOn '|').map trim

theorem Offends.not_blank (h : Offends line fault) : ¬ Blank line := by
  cases h <;> assumption

theorem Offends.unique {other : Fault} (h : Offends line fault) (ho : Offends line other) :
    fault = other := by
  cases h <;> cases ho <;> first | rfl | (exfalso; simp_all)

theorem not_bad_iff (hb : ¬ Blank line) :
    ¬ Bad line ↔ arrowCount (withoutComment line) = 1 ∧ IsWord (headOn line) := by
  constructor
  · intro hgood
    have hone : arrowCount (withoutComment line) = 1 := by
      by_contra hne
      rcases Nat.lt_or_gt_of_ne hne with hlt | hgt
      · exact hgood ⟨_, .missingArrow hb (by omega)⟩
      · exact hgood ⟨_, .multipleArrows hb hgt⟩
    refine ⟨hone, fun he => hgood ⟨_, .emptyHead hb hone he⟩, fun c hc => ?_⟩
    by_contra hblank
    exact hgood ⟨_, .spacedHead hb hone ⟨c, hc, by simpa using hblank⟩⟩
  · rintro ⟨hone, hne, hword⟩ ⟨_, h | h | h | ⟨_, _, c, hc, hblank⟩⟩
    · omega
    · omega
    · contradiction
    · simp [hword c hc] at hblank

theorem ruleLine?_eq (hb : ¬ Blank line) : ruleLine? line =
    match cutAtArrows (withoutComment line) with
    | [before, body] =>
      if trim before = [] then .error .emptyHead
      else if (trim before).any isBlank then .error (.spacedHead (String.ofList (trim before)))
      else .ok (some ⟨trim before, (body.splitOn '|').map trim⟩)
    | _ :: _ :: _ :: _ => .error .multipleArrows
    | _ => .error .missingArrow := by
  have hall : ¬ (withoutComment line).all isBlank = true := fun h => hb (List.all_eq_true.mp h)
  unfold ruleLine?
  exact if_neg hall

theorem ruleLine?_cases (line : List Char) :
    (Blank line ∧ ruleLine? line = .ok none) ∨
    (∃ fault, Offends line fault ∧ ruleLine? line = .error fault) ∨
    (¬ Blank line ∧ ¬ Bad line ∧ ruleLine? line = .ok (some (ruleOn line))) := by
  by_cases hb : Blank line
  · exact Or.inl ⟨hb, if_pos (List.all_eq_true.mpr hb)⟩
  refine Or.inr ?_
  rw [ruleLine?_eq hb]
  have hlength := length_cutAtArrows (withoutComment line)
  rcases hcount : arrowCount (withoutComment line) with _ | _ | k
  · rw [cutAtArrows_of_count_zero hcount]
    exact Or.inl ⟨_, .missingArrow hb hcount, rfl⟩
  · rw [cutAtArrows_of_count_one hcount]
    by_cases he : headOn line = []
    · exact Or.inl ⟨_, .emptyHead hb hcount he, if_pos he⟩
    by_cases hs : ∃ c ∈ headOn line, isBlank c = true
    · refine Or.inl ⟨_, .spacedHead hb hcount hs, ?_⟩
      exact (if_neg he).trans (if_pos (List.any_eq_true.mpr hs))
    · exact Or.inr ⟨hb, (not_bad_iff hb).mpr ⟨hcount, he, by simpa using hs⟩,
        (if_neg he).trans (if_neg fun h => hs (List.any_eq_true.mp h))⟩
  · match hcut : cutAtArrows (withoutComment line) with
    | _ :: _ :: _ :: _ => exact Or.inl ⟨_, .multipleArrows hb (by omega), rfl⟩
    | [] | [_] | [_, _] =>
      rw [hcut, hcount] at hlength
      simp at hlength

-- ---------------------------------------------------------------------------
-- Lists of lines
-- ---------------------------------------------------------------------------

def rulesOn (lines : List (List Char)) : List RuleLine :=
  (lines.filter fun line => ¬ Blank line).map ruleOn

/-- The line behind the first `index` lines has the fault, and those lines have none. -/
def FirstBad (lines : List (List Char)) (index : Nat) (fault : Fault) : Prop :=
  ∃ before line after, lines = before ++ line :: after ∧ before.length = index ∧
    (∀ earlier ∈ before, ¬ Bad earlier) ∧ Offends line fault

theorem FirstBad.cons {index : Nat} (hgood : ¬ Bad line) (h : FirstBad lines index fault) :
    FirstBad (line :: lines) (index + 1) fault := by
  obtain ⟨before, other, after, rfl, rfl, hbefore, hf⟩ := h
  exact ⟨line :: before, other, after, rfl, rfl, List.forall_mem_cons.mpr ⟨hgood, hbefore⟩, hf⟩

theorem FirstBad.exists_bad {index : Nat} (h : FirstBad lines index fault) :
    ∃ line ∈ lines, Bad line := by
  obtain ⟨before, line, after, rfl, _, _, hf⟩ := h
  exact ⟨line, by simp, fault, hf⟩

theorem FirstBad.unique {index index' : Nat} {fault' : Fault} (h : FirstBad lines index fault)
    (h' : FirstBad lines index' fault') : index = index' ∧ fault = fault' := by
  obtain ⟨before, line, after, rfl, rfl, hbefore, hf⟩ := h
  obtain ⟨before', line', after', he, rfl, hbefore', hf'⟩ := h'
  induction before generalizing before' with
  | nil =>
    cases before' with
    | nil =>
      obtain ⟨rfl, _⟩ := List.cons.inj he
      exact ⟨rfl, hf.unique hf'⟩
    | cons first before' =>
      obtain ⟨rfl, _⟩ := List.cons.inj he
      exact absurd ⟨fault, hf⟩ (hbefore' line List.mem_cons_self)
  | cons first before ih =>
    cases before' with
    | nil =>
      obtain ⟨rfl, _⟩ := List.cons.inj he
      exact absurd ⟨fault', hf'⟩ (hbefore first List.mem_cons_self)
    | cons first' before' =>
      obtain ⟨_, he⟩ := List.cons.inj he
      obtain ⟨hl, hfault⟩ := ih (fun l hl => hbefore l (List.mem_cons_of_mem _ hl)) before' he
        fun l hl => hbefore' l (List.mem_cons_of_mem _ hl)
      exact ⟨congrArg (· + 1) hl, hfault⟩

theorem ruleLines_cases (number : Nat) (lines : List (List Char)) :
    ((∀ line ∈ lines, ¬ Bad line) ∧ ruleLines number lines = .ok (rulesOn lines)) ∨
    ∃ index fault, FirstBad lines index fault ∧
      ruleLines number lines = .error (.badLine (number + index) fault) := by
  induction lines generalizing number with
  | nil => exact Or.inl ⟨by simp, rfl⟩
  | cons line lines ih =>
    rw [ruleLines]
    rcases ruleLine?_cases line with ⟨hb, he⟩ | ⟨fault, hf, he⟩ | ⟨hb, hgood, he⟩
    · have hgood : ¬ Bad line := fun ⟨_, hf⟩ => hf.not_blank hb
      rw [he]
      rcases ih (number + 1) with ⟨hall, hr⟩ | ⟨index, fault, hfirst, hr⟩
      · refine Or.inl ⟨List.forall_mem_cons.mpr ⟨hgood, hall⟩, ?_⟩
        simpa [rulesOn, hb] using hr
      · refine Or.inr ⟨index + 1, fault, hfirst.cons hgood, ?_⟩
        simpa [Nat.add_assoc, Nat.add_comm 1] using hr
    · rw [he]
      exact Or.inr ⟨0, fault, ⟨[], line, lines, rfl, rfl, by simp, hf⟩, rfl⟩
    · rw [he]
      rcases ih (number + 1) with ⟨hall, hr⟩ | ⟨index, fault, hfirst, hr⟩
      · refine Or.inl ⟨List.forall_mem_cons.mpr ⟨hgood, hall⟩, ?_⟩
        simp [hr, rulesOn, hb]
      · refine Or.inr ⟨index + 1, fault, hfirst.cons hgood, ?_⟩
        simp [hr, Nat.add_assoc, Nat.add_comm 1]

theorem rulesOn_eq_nil_iff : rulesOn lines = [] ↔ ∀ line ∈ lines, Blank line := by
  simp [rulesOn, List.filter_eq_nil_iff]

theorem readLines_cases (lines : List (List Char)) :
    ((∀ line ∈ lines, ¬ Bad line) ∧ ∃ first rest, rulesOn lines = first :: rest ∧
      readLines lines = .ok ⟨grammarOf (rulesOn lines), String.ofList first.head⟩) ∨
    (∃ index fault, FirstBad lines index fault ∧
      readLines lines = .error (.badLine (1 + index) fault)) ∨
    ((∀ line ∈ lines, Blank line) ∧ readLines lines = .error .noRules) := by
  unfold readLines
  rcases ruleLines_cases 1 lines with ⟨hgood, hr⟩ | ⟨index, fault, hfirst, hr⟩
  · rw [hr]
    match hrules : rulesOn lines with
    | [] => exact Or.inr (Or.inr ⟨rulesOn_eq_nil_iff.mp hrules, rfl⟩)
    | first :: rest => exact Or.inl ⟨hgood, first, rest, rfl, rfl⟩
  · rw [hr]
    exact Or.inr (Or.inl ⟨index, fault, hfirst, rfl⟩)

/-- Reading succeeds if no line has a fault and not all are blank. If a line has one, the fault of
the first such line is reported with its number, counted from one over all lines. If all are blank,
that is reported. -/
theorem readLines_outcome (lines : List (List Char)) :
    ((∃ input, readLines lines = .ok input) ↔
      (∀ line ∈ lines, ¬ Bad line) ∧ ∃ line ∈ lines, ¬ Blank line) ∧
    ((∃ line ∈ lines, Bad line) → ∃ index fault, FirstBad lines index fault) ∧
    (∀ number fault, readLines lines = .error (.badLine number fault) ↔
      ∃ index, number = index + 1 ∧ FirstBad lines index fault) ∧
    (readLines lines = .error .noRules ↔ ∀ line ∈ lines, Blank line) := by
  have hblank : ∀ line ∈ lines, Blank line → ¬ Bad line :=
    fun line _ hb ⟨_, hf⟩ => hf.not_blank hb
  rcases readLines_cases lines with ⟨hgood, first, rest, hrules, hr⟩ | ⟨index, fault, hfirst, hr⟩ |
    ⟨hall, hr⟩ <;> rw [hr]
  · have hshown : ¬ ∀ line ∈ lines, Blank line := fun hall => by
      simp [rulesOn_eq_nil_iff.mpr hall] at hrules
    have hnone : ¬ ∃ line ∈ lines, Bad line := fun ⟨line, hl, hbad⟩ => hgood line hl hbad
    refine ⟨iff_of_true ⟨_, rfl⟩ ⟨hgood, by simpa using hshown⟩, fun hbad => absurd hbad hnone,
      fun number fault => iff_of_false nofun ?_, iff_of_false nofun hshown⟩
    rintro ⟨_, _, hfirst⟩
    exact hnone hfirst.exists_bad
  · obtain ⟨line, hl, hbad⟩ := hfirst.exists_bad
    refine ⟨iff_of_false nofun fun h => h.1 line hl hbad, fun _ => ⟨index, fault, hfirst⟩,
      fun number other => ⟨fun he => ?_, ?_⟩,
      iff_of_false nofun fun hall => hblank line hl (hall line hl) hbad⟩
    · simp only [Except.error.injEq, ReadError.badLine.injEq] at he
      obtain ⟨rfl, rfl⟩ := he
      exact ⟨index, Nat.add_comm .., hfirst⟩
    · rintro ⟨other, rfl, hother⟩
      obtain ⟨rfl, rfl⟩ := hfirst.unique hother
      rw [Nat.add_comm]
  · have hnone : ¬ ∃ line ∈ lines, Bad line :=
      fun ⟨line, hl, hbad⟩ => hblank line hl (hall line hl) hbad
    refine ⟨iff_of_false nofun ?_, fun hbad => absurd hbad hnone,
      fun number fault => iff_of_false nofun ?_, iff_of_true rfl hall⟩
    · rintro ⟨_, line, hl, hshown⟩
      exact hshown (hall line hl)
    · rintro ⟨_, _, hfirst⟩
      exact hnone hfirst.exists_bad

example : readLines ["# two arrows".toList, "S -> a".toList, " -> b → c".toList] =
    .error (.badLine 3 .multipleArrows) := by decide +kernel

end ContextFree.Notation
