import ContextFree.Proofs.StageRuns
import ContextFree.Proofs.TypedWords

/-!
# Reports on words

All words of a run go through one session, which keeps the table of the last
word, but the report on a word does not depend on what came before it
(`check_eq`). So the words among the arguments and the words on the lines of the
input get the same reports, one by one, in the order of the words; only where
the words come from differs.

`reports_alike` says so of whole runs: behind one and the same header, which is
a matter of the options and the grammar, stand the reports of the words.
-/

namespace ContextFree.CommandLine

open Text (bytesOf)

variable {options : Options} {given : Given} {valued : Option Valued} {files : Files}
variable {header : String} {result : PointedGrammar} {args words : List String}
variable {rest : List (List UInt8)}

-- ---------------------------------------------------------------------------
-- Reports
-- ---------------------------------------------------------------------------

def wordReport (options : Options) (r : Recognizer) (word : String) : String :=
  let table := r.fill (tokensOf options word)
  "\nWord '" ++ word ++ "' is " ++ (if r.Accepts table then "ACCEPTED" else "REJECTED") ++
    "\n\nParse Table:\n" ++ table.text

theorem check_eq (options : Options) (s : Session) (word : String) :
    check options s word = (wordReport options s.recognizer word,
      { s with last := s.recognizer.fill (tokensOf options word) }) := by
  simp [check, wordReport, Session.recognize]

theorem checkWords_eq (options : Options) (s : Session) (words : List String) :
    checkWords options s words = words.map (wordReport options s.recognizer) := by
  induction words generalizing s with
  | nil => rfl
  | cons word words ih =>
    rw [checkWords, check_eq]
    exact congrArg (_ :: ·) (ih _)

theorem checkLines_ended (options : Options) (s : Session) (he : Ended rest) :
    checkLines options s rest = ([], none) := by
  rcases he with rfl | ⟨line, more, rfl, hquit⟩
  · rfl
  · simp only [checkLines, Text.fromUTF8?_bytesOf, if_pos hquit]

theorem checkLines_append (s : Session) (hw : ∀ word ∈ words, isQuit word = false)
    (he : Ended rest) : checkLines options s (words.map bytesOf ++ rest) =
      (words.map (wordReport options s.recognizer), none) := by
  induction words generalizing s with
  | nil => exact checkLines_ended options s he
  | cons word words ih =>
    obtain ⟨hword, hwords⟩ := List.forall_mem_cons.mp hw
    rw [List.map_cons, List.cons_append, checkLines]
    simp only [Text.fromUTF8?_bytesOf, hword, Bool.false_eq_true, if_false, check_eq, ih _ hwords]
    rfl

-- ---------------------------------------------------------------------------
-- Arguments
-- ---------------------------------------------------------------------------

theorem readArgument_word {word : String} (given : Given) (hw : word.toList.head? ≠ some '-') :
    readArgument word given = some (.given { given with words := given.words ++ [word] }) := by
  unfold readArgument
  split
  · simp_all
  · simp_all
  · rfl

theorem readFrom_words (given : Given) (hw : ∀ word ∈ words, word.toList.head? ≠ some '-') :
    readFrom none words given =
      some (.run { given.options with words := given.words ++ words }) := by
  induction words generalizing given with
  | nil => simp [readFrom, Given.options]
  | cons word words ih =>
    obtain ⟨hword, hwords⟩ := List.forall_mem_cons.mp hw
    have hdashes : word ≠ "--" := fun he => hword (he ▸ rfl)
    rw [readFrom]
    simp only [if_neg hdashes, readArgument_word given hword, ih _ hwords]
    simp [Given.options]

/-- Words behind arguments that are complete are words, whatever they are behind. -/
theorem readFrom_append (hw : ∀ word ∈ words, word.toList.head? ≠ some '-')
    (h : readFrom valued args given = some (.run options)) :
    readFrom valued (args ++ words) given =
      some (.run { options with words := options.words ++ words }) := by
  induction args generalizing valued given with
  | nil =>
    cases valued with
    -- An option that waits for its value would take the first word; but then `h` fails.
    | some valued => simp [readFrom] at h
    | none =>
      simp only [readFrom, Option.isSome_none, Bool.false_eq_true, if_false, Option.some.injEq,
        Request.run.injEq] at h
      subst h
      exact readFrom_words given hw
  | cons argument args ih =>
    rw [List.cons_append]
    cases valued with
    | some valued =>
      rw [readFrom] at h ⊢
      split at h
      · exact nomatch h
      · obtain ⟨given, hvalue, h⟩ := Option.bind_eq_some_iff.mp h
        rw [if_neg ‹_›, hvalue, Option.bind_some, ih h]
    | none =>
      rw [readFrom] at h ⊢
      split at h
      -- Behind `--` even the words with a dash are words.
      · rw [if_pos ‹_›]
        simp only [Option.some.injEq, Request.run.injEq] at h
        subst h
        simp [Given.options]
      · rw [if_neg ‹_›]
        cases hr : readArgument argument given with
        | none => simp [hr] at h
        | some reached =>
          cases reached with
          | version => simp [hr] at h
          | given given =>
            rw [hr] at h
            exact ih h
          | awaiting given valued =>
            rw [hr] at h
            exact ih h

theorem readArguments_append (hw : ∀ word ∈ words, word.toList.head? ≠ some '-')
    (h : readArguments args = some (.run options)) :
    readArguments (args ++ words) =
      some (.run { options with words := options.words ++ words }) :=
  readFrom_append hw h

-- ---------------------------------------------------------------------------
-- Runs
-- ---------------------------------------------------------------------------

def reported (options : Options) (header : String) (result : PointedGrammar)
    (words : List String) : Outcome :=
  ⟨0, header ++ String.join (words.map (wordReport options (.ofGrammar result))), none⟩

theorem run_words {input : ByteArray} (ready : prepare options files = (header, .ok result))
    (hwords : words ≠ []) (h : readArguments args = some (.run { options with words })) :
    run args files input = reported options header result words := by
  have hready : prepare { options with words } files = (header, .ok result) := ready
  rw [run, h]
  simp only [runWith, hready, checkAll, if_neg hwords, checkWords_eq]
  rfl

theorem run_lines {input : ByteArray} (ready : prepare options files = (header, .ok result))
    (hnone : options.words = []) (h : readArguments args = some (.run options))
    (hw : ∀ word ∈ words, Enterable word) (ht : Typed words input.data.toList) :
    run args files input = reported options header result words := by
  obtain ⟨rest, hlines, hended⟩ := ht.lines hw
  rw [run, h]
  simp only [runWith, ready, checkAll, if_pos hnone, hlines,
    checkLines_append _ (fun word hm => (hw word hm).noQuit) hended]
  rfl

/-- Words behind complete arguments, or wherever among arguments that come to the same, and words
typed one per line are reported alike. -/
theorem reports_alike (h : readArguments args = some (.run options)) (hnone : options.words = [])
    (ready : prepare options files = (header, .ok result)) (hwords : words ≠ [])
    (hw : ∀ word ∈ words, Enterable word) :
    readArguments (args ++ words) = some (.run { options with words }) ∧
    (∀ arguments input, readArguments arguments = some (.run { options with words }) →
      run arguments files input = reported options header result words) ∧
    ∀ input : ByteArray, Typed words input.data.toList →
      run args files input = reported options header result words := by
  refine ⟨?_, fun _ _ => run_words ready hwords, fun _ => run_lines ready hnone h hw⟩
  have happend := readArguments_append (fun word hm => (hw word hm).noDash) h
  rwa [hnone, List.nil_append] at happend

/-- A word of five tokens and the empty word; the line behind them says `quit`, and the byte behind
that line is no text. -/
theorem reports_alike_sample :
    ∃ options header result,
      readArguments ["-t"] = some (.run options) ∧
      prepare options (fun _ => .error .notFound) = (header, .ok result) ∧
      run ["-t", "b a a b a", ""] (fun _ => .error .notFound) .empty =
        reported options header result ["b a a b a", ""] ∧
      run ["-t"] (fun _ => .error .notFound)
          ⟨(bytesOf "b a a b a" ++ newline :: (bytesOf "" ++ newline ::
            (bytesOf " QUIT \r" ++ newline :: [255]))).toArray⟩ =
        reported options header result ["b a a b a", ""] := by
  let options : Options := ⟨none, .standard, false, true, []⟩
  let files : Files := fun _ => .error .notFound
  let settings : Conversion.Settings := .standard
  let result := ((Conversion.begin .sample settings).afterAll settings.stages).result
  have h : readArguments ["-t"] = some (.run options) := by decide +kernel
  have ready : prepare options files = ((prepare options files).1, .ok result) :=
    Prod.ext rfl (by decide +kernel)
  have hw : ∀ word ∈ ["b a a b a", ""], Enterable word := by
    simp only [List.forall_mem_cons, List.not_mem_nil, false_imp_iff, implies_true, and_true]
    exact ⟨⟨by decide, by decide, by decide, by decide +kernel⟩,
      ⟨by decide, by decide, by decide, by decide +kernel⟩⟩
  obtain ⟨hargs, hwords, hlines⟩ := reports_alike h rfl ready (List.cons_ne_nil _ _) hw
  refine ⟨options, _, result, h, ready, hwords _ _ hargs, hlines _ ?_⟩
  exact .line _ (.line _ (.quit (by decide +kernel) (by decide) [255]))

end ContextFree.CommandLine
