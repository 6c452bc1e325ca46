import DagSelect.Log

/-!
# Notices

A selection tells about what it could not match, about tests that were left out because a parent
is missing, and about selectors that it could not understand. The list of left-out tests is cut
after three names at the info level if that saves more than one line, and complete at the debug
level.
-/

namespace DagSelect.Notice

/-- The warning about a spec that selects nothing. -/
def nothingMatches (text : String) : LogEntry :=
  ⟨.warn, s!"The selection criterion '{text}' does not match any nodes"⟩

/-- The warnings that are due for a spec, given whether it selects nothing. -/
def ifEmpty (text : String) (isEmpty : Bool) : List LogEntry :=
  if isEmpty then [nothingMatches text] else []

/-- The notice about a method that is not registered. -/
def unknownMethod (method text : String) (known : List String) : LogEntry :=
  let names := ", ".intercalate known
  ⟨.info, s!"The '{method}' selector specified in {text} is invalid. Must be one of [{names}]"⟩

/-- How many left-out tests are named in a summary. -/
def summaryLimit : Nat := 3

/-- One line of a list of names. -/
def listed (name : Text) : Text := "  - " ++ name

/-- The notice about left-out tests, with the given lines between header and footer. -/
def leftOut (lines : List Text) (greedyOption : String) : Text :=
  let header : Text := "Some tests were excluded because at least one parent is missing:"
  let footer : Text := s!"Use the {greedyOption} flag to include them"
  .join "\n" (header :: lines ++ [footer])

/-- The lines of a summary of names. -/
def summaryLines (names : List Text) : List Text :=
  if names.length ≤ summaryLimit + 1 then names.map listed
  else
    let count := names.length - summaryLimit
    let more : Text := s!"  - and {count} more"
    (names.take summaryLimit).map listed ++ [more]

/-- The notices about left-out tests: a summary, and the complete list for debugging. -/
def unusedTests (names : List Text) (greedyOption : String) : List LogEntry :=
  [⟨.info, leftOut (summaryLines names) greedyOption⟩,
    ⟨.debug, leftOut (names.map listed) greedyOption⟩]

end DagSelect.Notice
