import ContextFree.NormalForm.Stage

/-!
# Arguments of the command line

Options may stand before, between and after the words. A long option takes its
value behind `=` or as the next argument; single letters may be joined, the
last of them with its value behind it. The next argument is no value if it
begins with a dash, unless it is the dash alone. After `--` everything is a
word. No option may be given twice. None asks for help: `--help` and `-h` are
faults, as is any other name that is no option.
-/

namespace ContextFree.CommandLine

structure Options where
  /-- The file of the grammar; without one, the sample grammar is used. -/
  grammar : Option String
  settings : Conversion.Settings
  /-- Show the grammar after every stage. -/
  steps : Bool
  /-- Cut words at blanks instead of into characters. -/
  tokens : Bool
  words : List String
  deriving DecidableEq, Repr

inductive Request
  | version
  | run (options : Options)
  deriving DecidableEq, Repr

inductive Flag
  | keepStart
  | steps
  | tokens
  deriving DecidableEq, Repr

inductive Valued
  | grammar
  | stem
  | limit
  deriving DecidableEq, Repr

inductive Meaning
  | version
  | flag (flag : Flag)
  | valued (valued : Valued)
  deriving DecidableEq, Repr

def longName? : String → Option Meaning
  | "version" => some .version
  | "no-fresh-start" => some (.flag .keepStart)
  | "steps" => some (.flag .steps)
  | "tokens" => some (.flag .tokens)
  | "grammar" => some (.valued .grammar)
  | "prefix" => some (.valued .stem)
  | "symbol-limit" => some (.valued .limit)
  | _ => none

def letter? : Char → Option Meaning
  | 'V' => some .version
  | 't' => some (.flag .tokens)
  | 'g' => some (.valued .grammar)
  | 'p' => some (.valued .stem)
  | _ => none

-- ---------------------------------------------------------------------------
-- What has been given so far
-- ---------------------------------------------------------------------------

structure Given where
  flags : List Flag
  grammar : Option String
  stem : Option String
  limit : Option UInt32
  words : List String

def Given.nothing : Given := ⟨[], none, none, none, []⟩

def Given.options (given : Given) : Options where
  grammar := given.grammar
  settings := ⟨Flag.keepStart ∉ given.flags, given.stem.getD Conversion.Settings.standard.stem,
    given.limit⟩
  steps := Flag.steps ∈ given.flags
  tokens := Flag.tokens ∈ given.flags
  words := given.words

def Given.addFlag (given : Given) (flag : Flag) : Option Given :=
  if flag ∈ given.flags then none else some { given with flags := flag :: given.flags }

/-- Decimal digits, at least one, for a number of 32 bits. -/
def digits? (cs : List Char) : Option UInt32 :=
  if cs = [] ∨ ¬ cs.all Char.isDigit then none
  else
    let n := Nat.ofDigitChars 10 cs 0
    if n < UInt32.size then some (UInt32.ofNat n) else none

/-- A sign may stand before the digits; of the negative numbers only zero is in range. -/
def limit? (value : String) : Option UInt32 :=
  match value.toList with
  | '+' :: cs => digits? cs
  | '-' :: cs => (digits? cs).filter (· == 0)
  | cs => digits? cs

def Given.addValue (given : Given) (valued : Valued) (value : String) : Option Given :=
  match valued with
  | .grammar =>
    if value = "" ∨ given.grammar.isSome then none else some { given with grammar := some value }
  | .stem => if given.stem.isSome then none else some { given with stem := some value }
  | .limit =>
    if given.limit.isSome then none
    else (limit? value).map fun limit => { given with limit := some limit }

-- ---------------------------------------------------------------------------
-- Reading
-- ---------------------------------------------------------------------------

inductive Reached
  | version
  | given (given : Given)
  /-- The next argument must be the value of this option. -/
  | awaiting (given : Given) (valued : Valued)

/-- Reads joined letters. What follows a letter with a value is that value, behind `=` or not. -/
def readLetters : List Char → Given → Option Reached
  | [], given => some (.given given)
  | c :: rest, given =>
    match letter? c with
    | none => none
    | some .version => some .version
    | some (.flag flag) => (given.addFlag flag).bind (readLetters rest)
    | some (.valued valued) =>
      match rest with
      | [] => some (.awaiting given valued)
      | '=' :: value => (given.addValue valued (String.ofList value)).map .given
      | value => (given.addValue valued (String.ofList value)).map .given

def readLong (cs : List Char) (given : Given) : Option Reached :=
  let name := String.ofList (cs.takeWhile (· != '='))
  let value? := match cs.dropWhile (· != '=') with
    | [] => none
    | _ :: value => some (String.ofList value)
  match longName? name, value? with
  | some .version, none => some .version
  | some (.flag flag), none => (given.addFlag flag).map .given
  | some (.valued valued), none => some (.awaiting given valued)
  | some (.valued valued), some value => (given.addValue valued value).map .given
  | _, _ => none

/-- Begins with a dash and is more than that. -/
def looksLikeOption (argument : String) : Bool :=
  match argument.toList with
  | '-' :: _ :: _ => true
  | _ => false

def readArgument (argument : String) (given : Given) : Option Reached :=
  match argument.toList with
  | '-' :: '-' :: long => readLong long given
  | '-' :: c :: letters => readLetters (c :: letters) given
  | _ => some (.given { given with words := given.words ++ [argument] })

/-- Reads the arguments from left to right; `valued` is an option that still waits for its value.
The first fault ends the reading, and so does a request for the version. -/
def readFrom (valued : Option Valued) : List String → Given → Option Request
  | [], given => if valued.isSome then none else some (.run given.options)
  | argument :: rest, given =>
    match valued with
    | some valued =>
      if looksLikeOption argument then none
      else (given.addValue valued argument).bind (readFrom none rest)
    | none =>
      if argument = "--" then
        some (.run { given with words := given.words ++ rest }.options)
      else match readArgument argument given with
        | none => none
        | some .version => some .version
        | some (.given given) => readFrom none rest given
        | some (.awaiting given valued) => readFrom (some valued) rest given

def readArguments (arguments : List String) : Option Request :=
  readFrom none arguments .nothing

end ContextFree.CommandLine
