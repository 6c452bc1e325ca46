import DagSelect.Text.Quoted

/-!
# Unreadable files

Why the content of a file cannot be had, and how it is reported for the file's path. A path with a
null character is refused before it is looked up, and is shown in quotes then.
-/

namespace DagSelect.CommandLine

/-- Why a file cannot be read. -/
inductive ReadError where
  | missing
  | notDirectory
  | isDirectory
  | denied
  | nameTooLong
  | nullInPath
  | other (reason : String)
  deriving DecidableEq, Repr

/-- The error in words, for the path of the file. -/
def ReadError.message (path : String) : ReadError → Text
  | missing => s!"ENOENT: no such file or directory, open '{path}'"
  | notDirectory => s!"ENOTDIR: not a directory, open '{path}'"
  | isDirectory => "EISDIR: illegal operation on a directory, read"
  | denied => s!"EACCES: permission denied, open '{path}'"
  | nameTooLong => s!"ENAMETOOLONG: name too long, open '{path}'"
  | nullInPath =>
    "The argument 'path' must be a string, Uint8Array, or URL without null bytes. Received "
      ++ Text.shortened 128 (Text.shown path)
  | other reason => reason

end DagSelect.CommandLine
