import DagSelect.Text.Basic

/-!
# Log messages

A message has a severity. A logger writes the messages that are at least as severe as its
threshold, each after its scope in brackets.
-/

namespace DagSelect

/-- How severe a message is, from the least on. -/
inductive Severity where
  | debug
  | info
  | warn
  | error
  deriving DecidableEq, Repr

namespace Severity

/-- The severity's written name. -/
def name : Severity → String
  | debug => "debug"
  | info => "info"
  | warn => "warn"
  | error => "error"

/-- The place among the severities. -/
def rank : Severity → Nat
  | debug => 0
  | info => 1
  | warn => 2
  | error => 3

/-- All severities. -/
def all : List Severity := [debug, info, warn, error]

end Severity

/-- A message as it is logged. -/
structure LogEntry where
  severity : Severity
  message : Text
  deriving DecidableEq, Repr

/-- Which messages a logger writes: those from a severity on, or none. -/
inductive Threshold where
  | atLeast (severity : Severity)
  | silent
  deriving DecidableEq, Repr

namespace Threshold

/-- The threshold's written name. -/
def name : Threshold → String
  | atLeast severity => severity.name
  | silent => "silent"

/-- All thresholds, from the least strict on. -/
def all : List Threshold := Severity.all.map atLeast ++ [silent]

/-- The threshold with a written name. -/
def ofName? (name : String) : Option Threshold :=
  all.find? (fun t => t.name = name)

/-- The threshold if nothing is said about it. -/
def standard : Threshold := .atLeast .info

/-- The threshold that a setting names in any letter case; the standard one if it names none. -/
def ofSetting (setting : Option String) : Threshold :=
  (ofName? ((setting.getD "").map Char.toLower)).getD standard

/-- Whether a message of a severity is written. -/
def passes (t : Threshold) (severity : Severity) : Bool :=
  match t with
  | atLeast least => least.rank ≤ severity.rank
  | silent => false

end Threshold

/-- A logger with a scope and a threshold. -/
structure Logger where
  scope : Text
  threshold : Threshold

namespace Logger

/-- What a logger writes for a list of messages, each with its severity. -/
def write (logger : Logger) (entries : List LogEntry) : List LogEntry :=
  (entries.filter fun e => logger.threshold.passes e.severity).map fun e =>
    ⟨e.severity, "[" ++ logger.scope ++ "] " ++ e.message⟩

end Logger

end DagSelect
