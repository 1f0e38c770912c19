import ContextFree.CommandLine.Run
import Mathlib.Tactic.SplitIfs

/-!
# Words typed line by line

`Typed` says which bytes are words typed one per line: the last break may be
missing, and a line that says `quit` may follow and anything behind it. The
words come back out of the bytes (`Typed.lines`) if each of them can be typed
as it is: on one line and without a return at its end, which would go with the
break.

Breaks and returns can be looked for among the bytes, as a byte below 128 is a
character of its own wherever it stands in UTF-8.
-/

namespace ContextFree

-- ---------------------------------------------------------------------------
-- Bytes
-- ---------------------------------------------------------------------------

namespace Text

variable {text : String} {b : UInt8} {c : Char}

def bytesOf (text : String) : List UInt8 := text.toUTF8.data.toList

theorem bytesOf_eq (text : String) : bytesOf text = text.toList.flatMap String.utf8EncodeChar := by
  have hbytes : text.toUTF8 = text.toList.utf8Encode := String.utf8Encode_toList.symm
  rw [bytesOf, hbytes, List.utf8Encode, List.data_toByteArray]

theorem fromUTF8?_bytesOf (text : String) :
    String.fromUTF8? ⟨(bytesOf text).toArray⟩ = some text := by
  have hbytes : (⟨(bytesOf text).toArray⟩ : ByteArray) = text.toUTF8 := by
    rw [bytesOf, Array.toArray_toList]
  have hvalid : text.toUTF8.IsValidUTF8 := text.isValidUTF8
  rw [hbytes, String.fromUTF8?, dif_pos hvalid]
  rfl

/-- A character is one byte below 128, or all its bytes are higher. -/
theorem utf8EncodeChar_cases (c : Char) :
    String.utf8EncodeChar c = [UInt8.ofNat c.toNat] ∧ c.toNat < 128 ∨
      ∀ b ∈ String.utf8EncodeChar c, 128 ≤ b.toNat := by
  have hc : c.toNat = c.val.toNat := rfl
  unfold String.utf8EncodeChar
  dsimp only
  split_ifs with hone
  · exact Or.inl ⟨rfl, by omega⟩
  all_goals
    refine Or.inr ?_
    simp only [List.forall_mem_cons, List.not_mem_nil, UInt8.toNat_ofNat', false_imp_iff,
      implies_true, and_true]
    omega

theorem eq_of_mem_utf8EncodeChar {low : Char} (hlow : low.toNat < 128)
    (hb : UInt8.ofNat low.toNat ∈ String.utf8EncodeChar c) : c = low := by
  have hbyte : (UInt8.ofNat low.toNat).toNat = low.toNat := by
    rw [UInt8.toNat_ofNat']
    omega
  rcases utf8EncodeChar_cases c with ⟨hone, hc⟩ | hhigh
  · rw [hone, List.mem_singleton] at hb
    have hnat := congrArg UInt8.toNat hb
    rw [hbyte, UInt8.toNat_ofNat'] at hnat
    exact Char.toNat_inj.mp (by omega)
  · have := hhigh _ hb
    omega

theorem mem_bytesOf {low : Char} (hlow : low.toNat < 128)
    (hb : UInt8.ofNat low.toNat ∈ bytesOf text) : low ∈ text.toList := by
  rw [bytesOf_eq] at hb
  obtain ⟨c, hc, hb⟩ := List.mem_flatMap.mp hb
  exact eq_of_mem_utf8EncodeChar hlow hb ▸ hc

theorem getLast?_bytesOf {low : Char} (hlow : low.toNat < 128)
    (hb : (bytesOf text).getLast? = some (UInt8.ofNat low.toNat)) :
    text.toList.getLast? = some low := by
  rw [bytesOf_eq] at hb
  rcases List.eq_nil_or_concat text.toList with hnil | ⟨cs, c, hcs⟩
  · rw [hnil] at hb
    exact nomatch hb
  · have hne : String.utf8EncodeChar c ≠ [] := String.utf8EncodeChar_ne_nil
    rw [hcs, List.concat_eq_append, List.flatMap_append, List.flatMap_singleton,
      List.getLast?_append, List.getLast?_eq_some_getLast hne, Option.some_or,
      ← List.getLast?_eq_some_getLast hne] at hb
    rw [hcs, List.concat_eq_append, List.getLast?_concat,
      eq_of_mem_utf8EncodeChar hlow (List.mem_of_getLast? hb)]

end Text

-- ---------------------------------------------------------------------------
-- Lines
-- ---------------------------------------------------------------------------

namespace CommandLine

open Text (bytesOf)

variable {word line : String} {words : List String} {input : List UInt8}

/-- A word that can stand among the arguments and on a line of the input alike. -/
structure Enterable (word : String) : Prop where
  oneLine : '\n' ∉ word.toList
  noReturn : word.toList.getLast? ≠ some '\r'
  noDash : word.toList.head? ≠ some '-'
  noQuit : isQuit word = false

/-- The input is these words, one per line. A line that says `quit` may come behind them, and then
anything. -/
inductive Typed : List String → List UInt8 → Prop
  | nothing : Typed [] []
  | quit {line : String} (quits : isQuit line = true) (oneLine : '\n' ∉ line.toList)
    (after : List UInt8) : Typed [] (bytesOf line ++ newline :: after)
  | lastQuit {line : String} (quits : isQuit line = true) (oneLine : '\n' ∉ line.toList) :
    Typed [] (bytesOf line)
  | lastWord {word : String} (ne : word ≠ "") : Typed [word] (bytesOf word)
  | line {words : List String} {input : List UInt8} (word : String) (rest : Typed words input) :
    Typed (word :: words) (bytesOf word ++ newline :: input)

theorem newline_not_mem (h : '\n' ∉ word.toList) : newline ∉ bytesOf word :=
  fun hb => h (Text.mem_bytesOf (by decide) hb)

theorem bytesOf_eq_nil_iff : bytesOf word = [] ↔ word = "" := by
  constructor
  · intro hnil
    have hword := Text.fromUTF8?_bytesOf word
    rw [hnil] at hword
    exact Option.some.inj (hword.symm.trans (Text.fromUTF8?_bytesOf ""))
  · rintro rfl
    rfl

theorem Enterable.dropReturn (hw : Enterable word) :
    Text.dropReturn carriageReturn (bytesOf word) = bytesOf word :=
  if_neg fun hlast => hw.noReturn (Text.getLast?_bytesOf (by decide) hlast)

theorem exists_dropReturn (line : String) : ∃ kept : String,
    Text.dropReturn carriageReturn (bytesOf line) = bytesOf kept ∧ isQuit kept = isQuit line := by
  by_cases hlast : (bytesOf line).getLast? = some carriageReturn
  · have hchar : line.toList.getLast? = some '\r' := Text.getLast?_bytesOf (by decide) hlast
    obtain ⟨cs, hcs⟩ := List.getLast?_eq_some_iff.mp hchar
    have hreturn : String.utf8EncodeChar '\r' = [carriageReturn] := by decide
    refine ⟨String.ofList cs, ?_, ?_⟩
    · rw [Text.dropReturn, if_pos hlast, Text.bytesOf_eq, hcs, List.flatMap_append,
        List.flatMap_singleton, hreturn, List.dropLast_concat, Text.bytesOf_eq,
        String.toList_ofList]
    · rw [isQuit, isQuit, hcs, Text.trim_concat_blank cs (by decide), String.toList_ofList]
  · exact ⟨line, if_neg hlast, rfl⟩

def Ended (lines : List (List UInt8)) : Prop :=
  lines = [] ∨ ∃ line more, lines = bytesOf line :: more ∧ isQuit line = true

theorem Typed.lines (ht : Typed words input) (hw : ∀ word ∈ words, Enterable word) :
    ∃ rest, Text.linesOf newline carriageReturn input = words.map bytesOf ++ rest ∧
      Ended rest := by
  induction ht with
  | nothing => exact ⟨[], rfl, Or.inl rfl⟩
  | @quit line quits oneLine after =>
    obtain ⟨kept, hkept, hquit⟩ := exists_dropReturn line
    rw [Text.linesOf_append_break (newline_not_mem oneLine), hkept]
    exact ⟨_, rfl, Or.inr ⟨kept, _, rfl, hquit.trans quits⟩⟩
  | @lastQuit line quits oneLine =>
    have hne : bytesOf line ≠ [] := fun hnil => by
      rw [bytesOf_eq_nil_iff.mp hnil] at quits
      exact absurd quits (by decide)
    rw [Text.linesOf_of_not_mem (newline_not_mem oneLine), if_neg hne]
    exact ⟨_, rfl, Or.inr ⟨line, [], rfl, quits⟩⟩
  | @lastWord word ne =>
    have hword := hw word List.mem_cons_self
    rw [Text.linesOf_of_not_mem (newline_not_mem hword.oneLine),
      if_neg (mt bytesOf_eq_nil_iff.mp ne)]
    exact ⟨[], rfl, Or.inl rfl⟩
  | line word _ ih =>
    obtain ⟨hword, hwords⟩ := List.forall_mem_cons.mp hw
    obtain ⟨rest, hrest, hended⟩ := ih hwords
    rw [Text.linesOf_append_break (newline_not_mem hword.oneLine), hword.dropReturn, hrest]
    exact ⟨rest, rfl, hended⟩

end CommandLine

end ContextFree
