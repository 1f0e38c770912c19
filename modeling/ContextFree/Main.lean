import ContextFree.CommandLine.Run

/-!
# The command line

Reads the grammar file and, where no word is among the arguments, the standard
input, and prints the outcome of the run.
-/

namespace ContextFree.CommandLine

/-- The fault with a number of the operating system, which may stand negated. -/
def faultOf (code : UInt32) : FileFault :=
  match (min code (-code)).toNat with
  | 2 => .notFound
  | 6 => .noDevice
  | 13 => .permissionDenied
  | 20 => .notDirectory
  | 21 => .isDirectory
  | 36 => .nameTooLong
  | 40 => .linkLoop
  | _ => .inputOutput

def readFile (path : String) : IO (Except FileFault ByteArray) := do
  try
    return .ok (← IO.FS.readBinFile path)
  catch
    | .noFileOrDirectory .. => return .error .notFound
    | .permissionDenied .. => return .error .permissionDenied
    | .inappropriateType _ code _ | .invalidArgument _ code _ | .noSuchThing _ code _ =>
      return .error (faultOf code)
    | _ => return .error .inputOutput

partial def readInput (stream : IO.FS.Stream) (bytes : ByteArray) : IO ByteArray := do
  let chunk ← stream.read 65536
  if chunk.isEmpty then return bytes else readInput stream (bytes ++ chunk)

end ContextFree.CommandLine

open ContextFree.CommandLine

def main (arguments : List String) : IO UInt32 := do
  let (path, wordsGiven) := match readArguments arguments with
    | some (.run options) => (options.grammar, !options.words.isEmpty)
    | _ => (none, true)
  let file ← match path with
    | some path => readFile path
    | none => pure (.error .notFound)
  let input ← if wordsGiven then pure .empty else readInput (← IO.getStdin) .empty
  let outcome := run arguments (fun _ => file) input
  IO.print outcome.output
  if let some line := outcome.report then IO.eprintln line
  return outcome.exit.toUInt32
