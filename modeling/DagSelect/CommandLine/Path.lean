import DagSelect.Text.Blank

/-!
# File paths

A path is made absolute against a directory. Empty parts and single dots go, and a double dot
takes the part before it away.
-/

namespace DagSelect.CommandLine

/-- Put one part of a path behind the parts so far, which are given last first. -/
def stepInto (parts : List String) (part : String) : List String :=
  if part.isEmpty || part = "." then parts
  else if part = ".." then parts.tail
  else part :: parts

/-- The absolute form of a path that is taken from a directory. -/
def absolutePath (directory path : String) : String :=
  let parts := if path.toList.head? = some '/' then Text.pieces '/' path
    else Text.pieces '/' directory ++ Text.pieces '/' path
  "/" ++ "/".intercalate (parts.foldl stepInto []).reverse

end DagSelect.CommandLine
