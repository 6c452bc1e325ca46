import DagSelect.CommandLine.Run

/-!
# The program

Reads the manifest file that a run asks for, runs, writes the output in order, and exits.
-/

namespace DagSelect.CommandLine

/-- Why a file cannot be read, from the error of the attempt. An error that names the file comes
from opening it, one that does not from reading it. -/
def readErrorOf : IO.Error → ReadError
  | .noFileOrDirectory .. => .missing
  | .permissionDenied .. => .denied
  | .inappropriateType (some _) .. => .notDirectory
  | .inappropriateType none .. => .isDirectory
  | .invalidArgument _ _ "name too long" => .nameTooLong
  | error => .other (toString error)

/-- Read a file, or say why it cannot be read. -/
def readContent (path : String) : IO (Except ReadError String) := do
  try
    let text ← IO.FS.readFile path
    return .ok text
  catch error => return .error (readErrorOf error)

/-- The words in which this program says why a text is no JSON. -/
def notJsonReason (_ : String) : Text := "the text is not a single JSON value"

/-- Write one piece of output. -/
def writeOutput (output : Output) : IO Unit :=
  let text := output.text.toString
  match output.channel with
  | .report => IO.println text
  | .message .debug => IO.println text
  | .message .info => IO.println text
  | .message _ => IO.eprintln text
  | .stdout => IO.print text
  | .stderr => IO.eprint text

end DagSelect.CommandLine

/-- Run the program on its arguments. -/
def main (args : List String) : IO UInt32 := do
  let directory := toString (← IO.currentDir)
  let level ← IO.getEnv "NODEPICK_LOG_LEVEL"
  let content ← match DagSelect.CommandLine.manifestPath? args with
    | some path =>
      DagSelect.CommandLine.readContent (DagSelect.CommandLine.absolutePath directory path)
    | none => pure (.error .missing)
  let outcome := DagSelect.CommandLine.run ⟨level, directory, fun _ => content,
    DagSelect.CommandLine.notJsonReason⟩ args
  outcome.output.forM DagSelect.CommandLine.writeOutput
  return UInt32.ofNat (outcome.exit.getD 0)
