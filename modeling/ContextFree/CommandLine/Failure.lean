import ContextFree.FreshNames
import ContextFree.Notation.Reader
import ContextFree.Text.Quoted

/-!
# Failures of the command line

What can end a run early, and the line that reports it: the cause with its
details, text quoted.
-/

namespace ContextFree.CommandLine

inductive FileFault
  | notFound
  | inputOutput
  | noDevice
  | permissionDenied
  | notDirectory
  | isDirectory
  | nameTooLong
  | linkLoop
  /-- The bytes are not UTF-8. -/
  | notText
  deriving DecidableEq, Repr

abbrev Files := String → Except FileFault ByteArray

inductive Failure
  | unreadable (e : Notation.ReadError)
  | exhausted (e : Exhausted)
  | file (fault : FileFault)
  deriving DecidableEq, Repr

def record (name : String) (fields : List (String × String)) : String :=
  name ++ " \x7b " ++
    String.intercalate ", " (fields.map fun (key, value) => key ++ ": " ++ value) ++ " \x7d"

def lineFault (number : Nat) : Notation.Fault → String
  | .missingArrow => record "MissingArrow" [("line", toString number)]
  | .multipleArrows => record "MultipleArrows" [("line", toString number)]
  | .emptyHead => record "EmptyNonterminal" [("line", toString number)]
  | .spacedHead head =>
    record "InvalidNonterminal" [("line", toString number), ("name", Text.quoted head)]

def systemFault (code : Nat) (kind message : String) : String :=
  record "Os" [("code", toString code), ("kind", kind), ("message", Text.quoted message)]

def FileFault.detail : FileFault → String
  | notFound => systemFault 2 "NotFound" "No such file or directory"
  | inputOutput => systemFault 5 "Uncategorized" "Input/output error"
  | noDevice => systemFault 6 "Uncategorized" "No such device or address"
  | permissionDenied => systemFault 13 "PermissionDenied" "Permission denied"
  | notDirectory => systemFault 20 "NotADirectory" "Not a directory"
  | isDirectory => systemFault 21 "IsADirectory" "Is a directory"
  | nameTooLong => systemFault 36 "InvalidFilename" "File name too long"
  | linkLoop => systemFault 40 "FilesystemLoop" "Too many levels of symbolic links"
  | notText =>
    record "Error"
      [("kind", "InvalidData"), ("message", Text.quoted "stream did not contain valid UTF-8")]

def Failure.detail : Failure → String
  | unreadable (.badLine number fault) => "Parse(" ++ lineFault number fault ++ ")"
  | unreadable .noRules => "Parse(NoRules)"
  | exhausted e =>
    "Convert(" ++
      record "SymbolsExhausted"
        [("prefix", Text.quoted e.stem), ("limit", toString e.limit.toNat)] ++ ")"
  | file fault => "Io(" ++ fault.detail ++ ")"

def Failure.message : Failure → String
  | unreadable e => "error parsing grammar: " ++ e.message
  | exhausted e => "error converting grammar: " ++ e.message
  | file fault => "error reading input: " ++ fault.detail

def Failure.line (failure : Failure) : String := "Error: " ++ failure.detail

end ContextFree.CommandLine
