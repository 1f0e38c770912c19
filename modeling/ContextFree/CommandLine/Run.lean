import ContextFree.CommandLine.Arguments
import ContextFree.CommandLine.Failure
import ContextFree.NormalForm.Conversion
import ContextFree.Notation.Writer
import ContextFree.Recognizer.Basic

/-!
# A run of the command line

A run loads a grammar, converts it, and checks words against it: those among
the arguments or, without any, the lines of the input up to one that says
`quit`. All words of a run go through one session, one after another. The
outcome is a pure function of the arguments, the files and the input; a failure
keeps what was printed before it.
-/

namespace ContextFree.CommandLine

structure Outcome where
  exit : UInt8
  output : String
  /-- The line that reports a failure. -/
  report : Option String
  deriving DecidableEq, Repr

-- ---------------------------------------------------------------------------
-- The grammar
-- ---------------------------------------------------------------------------

def fileText (files : Files) (path : String) : Except FileFault String :=
  match files path with
  | .error fault => .error fault
  | .ok bytes => match String.fromUTF8? bytes with
    | some text => .ok text
    | none => .error .notText

def load (options : Options) (files : Files) : String × Except Failure PointedGrammar :=
  match options.grammar with
  | none => ("No grammar given. Using example grammar.\n", .ok .sample)
  | some path => ("", match fileText files path with
    | .error fault => .error (.file fault)
    | .ok text => (Notation.readText text).mapError .unreadable)

def heading (title : String) : String := "\n=== " ++ title ++ " ===\n"

def grammarText (title : String) (g : PointedGrammar) : String :=
  heading (title ++ " (start " ++ g.start ++ ")") ++ g.grammar.text

/-- Runs the stages of a conversion; with `steps`, the grammar is printed after each. -/
def convert (steps : Bool) : List Stage → Conversion → String × Except Failure PointedGrammar
  | [], c => ("", .ok c.result)
  | stage :: rest, c =>
    match Conversion.runStage stage c with
    | .error e _ => ("", .error (.exhausted e))
    | .ok _ c =>
      let (output, result) := convert steps rest c
      ((if steps then heading ("After " ++ stage.title) ++ c.grammar.text else "") ++ output,
        result)

def prepare (options : Options) (files : Files) : String × Except Failure PointedGrammar :=
  match load options files with
  | (notice, .error failure) => (notice, .error failure)
  | (notice, .ok input) =>
    let notice := notice ++ grammarText "Original Grammar" input
    match convert options.steps options.settings.stages (.begin input options.settings) with
    | (shown, .error failure) => (notice ++ shown, .error failure)
    | (shown, .ok result) =>
      (notice ++ shown ++ grammarText "Grammar in Chomsky Normal Form" result, .ok result)

-- ---------------------------------------------------------------------------
-- Words
-- ---------------------------------------------------------------------------

def tokensOf (options : Options) (word : String) : List String :=
  if options.tokens then (Text.words word.toList).map String.ofList else Recognizer.letters word

def check (options : Options) (s : Session) (word : String) : String × Session :=
  let (accepted, s) := s.recognize (tokensOf options word)
  ("\nWord '" ++ word ++ "' is " ++ (if accepted then "ACCEPTED" else "REJECTED") ++
    "\n\nParse Table:\n" ++ s.last.text, s)

def checkWords (options : Options) : Session → List String → List String
  | _, [] => []
  | s, word :: rest =>
    let (report, s) := check options s word
    report :: checkWords options s rest

def isQuit (line : String) : Bool :=
  (Text.trim line.toList).map Char.toLower == "quit".toList

/-- The reports on the lines of the input before `quit`, and the fault that ends them early. -/
def checkLines (options : Options) : Session → List (List UInt8) → List String × Option FileFault
  | _, [] => ([], none)
  | s, line :: rest =>
    match String.fromUTF8? ⟨line.toArray⟩ with
    | none => ([], some .notText)
    | some word =>
      if isQuit word then ([], none)
      else
        let (report, s) := check options s word
        let (reports, fault) := checkLines options s rest
        (report :: reports, fault)

def newline : UInt8 := 10

def carriageReturn : UInt8 := 13

/-- Checks the words among the arguments or, without any, the lines of the input. -/
def checkAll (options : Options) (s : Session) (input : ByteArray) :
    List String × Option FileFault :=
  if options.words = [] then
    checkLines options s (Text.linesOf newline carriageReturn input.data.toList)
  else (checkWords options s options.words, none)

-- ---------------------------------------------------------------------------
-- Runs
-- ---------------------------------------------------------------------------

def failed (output : String) (failure : Failure) : Outcome := ⟨1, output, some failure.line⟩

def runWith (options : Options) (files : Files) (input : ByteArray) : Outcome :=
  match prepare options files with
  | (header, .error failure) => failed header failure
  | (header, .ok result) =>
    let (reports, fault) := checkAll options (.start result) input
    let output := header ++ String.join reports
    match fault with
    | some fault => failed output (.file fault)
    | none => ⟨0, output, none⟩

/-- Faulty arguments end a run at once, with exit code 2 and nothing printed. -/
def run (arguments : List String) (files : Files) (input : ByteArray) : Outcome :=
  match readArguments arguments with
  | none => ⟨2, "", none⟩
  | some .version => ⟨0, "cnf-cyk 0.1.0\n", none⟩
  | some (.run options) => runWith options files input

end ContextFree.CommandLine
