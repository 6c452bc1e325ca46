import DagSelect.CommandLine.Options
import DagSelect.CommandLine.Path
import DagSelect.CommandLine.ReadError
import DagSelect.Json.Parser
import DagSelect.Listing
import DagSelect.Manifest.Document

/-!
# The command line

One command lists the selected members of a manifest file, the other shows the order in which they
can be run. A run is a function of its arguments and of the few things that it asks
of its surroundings; its outcome is what it writes, in order, and the exit code if it sets one.

A command fails at the first of these that fails: the output format, reading the file, its JSON,
its schema, identifiers that repeat, dependencies that are missing, the kinds of resource, the
selection, the exclusion. Then it exits with code 1 and lists nothing. The text of the help pages
is not part of the outcome.
-/

namespace DagSelect.CommandLine

/-- Where a run writes: a line on its report, a line of a severity, or raw text on a stream. -/
inductive Channel where
  | report
  | message (severity : Severity)
  | stdout
  | stderr
  deriving DecidableEq, Repr

/-- A piece of output. -/
structure Output where
  channel : Channel
  text : Text
  deriving DecidableEq, Repr

/-- What a run writes, and the exit code if it sets one. -/
structure Outcome where
  output : List Output
  exit : Option Nat
  deriving DecidableEq, Repr

/-- What a run asks of its surroundings: the setting of the log level, the directory it starts in,
the content of the file at an absolute path, and the words for why a text is no JSON. -/
structure Surroundings where
  logLevel : Option String
  directory : String
  read : String → Except ReadError String
  notJsonReason : String → Text

/-- The two commands. -/
inductive Command where
  | ls
  | queue
  deriving DecidableEq, Repr

namespace Command

/-- The command's name. -/
def name : Command → String
  | ls => "ls"
  | queue => "queue"

/-- The command with a name. -/
def ofName? (name : String) : Option Command :=
  [ls, queue].find? (fun c => c.name = name)

/-- The options that a command knows. -/
def flags : Command → List Flag
  | ls => [.manifest, .select, .exclude, .resourceType, .greedy, .output]
  | queue => [.manifest, .select, .exclude, .resourceType, .greedy]

/-- What the command says when it fails. -/
def failure : Command → String
  | ls => "선택 실패"
  | queue => "실행 순서 계산 실패"

end Command

/-- Why a command fails after its format is known. -/
inductive Failure where
  | unreadable (path : String) (error : ReadError)
  | selection (error : SelectionError)

/-- The failure in words. -/
def Failure.message : Failure → Text
  | unreadable path error => error.message path
  | selection error => error.message

/-- The manifest in the text of a file, with the words for why a text is no JSON. -/
def readManifest (reason : String → Text) (path text : String) : Except ManifestError Manifest :=
  match Json.parse? text with
  | some document => Manifest.ofDocument (some document)
  | none => .error (.notJson path (reason text))

/-- The manifest in a file, whose path is made absolute before anything else. -/
def openManifest (around : Surroundings) (path : String) : Except Failure Manifest := do
  let absolute := absolutePath around.directory path
  if absolute.toList.contains (Char.ofNat 0) then throw (.unreadable absolute .nullInPath)
  let text ← (around.read absolute).mapError (.unreadable absolute)
  (readManifest around.notJsonReason absolute text).mapError fun e => .selection (.manifest e)

/-- A line that shows how far a run is. -/
def progress (mark text : String) : Output :=
  ⟨.stderr, mark ++ " " ++ text ++ "\n"⟩

/-- The progress line at the start. -/
def loading : Output := progress "-" "manifest 로드 중..."

/-- The progress line when the manifest is loaded. -/
def loaded (manifest : Manifest) : Output :=
  let count := manifest.size
  progress "✔" s!"manifest 로드 완료: {count}개 노드"

/-- The diagnostics of a selection as the run's own logger writes them. -/
def diagnostics (around : Surroundings) (log : List LogEntry) : List Output :=
  let logger : Logger := ⟨"Selector", Threshold.ofSetting around.logLevel⟩
  (logger.write log).map fun e => ⟨.message e.severity, e.message⟩

/-- What a failure writes. -/
def failed (command : Command) (failure : Failure) : List Output :=
  [progress "✖" command.failure, ⟨.message .error, failure.message⟩]

/-- The report of a listing. -/
def listingReport (members : List Member) (format : ListingFormat) : List Output :=
  if members.isEmpty then [⟨.report, "선택된 노드가 없습니다."⟩]
  else [⟨.report, formatListing members format⟩]

/-- A position in a plan, right-aligned in four columns. -/
def positionText (position : Nat) : String :=
  let digits := Json.natText position ++ ['.']
  String.ofList (List.replicate (4 - digits.length) ' ' ++ digits)

/-- One line for each step of a plan. -/
def planLines (position : Nat) : List Member → List Output
  | [] => []
  | member :: members =>
    ⟨.report, positionText position ++ " " ++ member.id
        ++ " (" ++ member.resourceKind.name ++ ")"⟩
      :: planLines (position + 1) members

/-- The report of a plan: its steps, and how many there are. -/
def planReport (members : List Member) : List Output :=
  let count := members.length
  planLines 1 members ++ [⟨.report, s!"  총 {count}개"⟩]

/-- The diagnostics and the report of a command on a loaded manifest. -/
def report (around : Surroundings) (command : Command) (format : ListingFormat)
    (manifest : Manifest) (request : SelectionRequest) : Except SelectionError (List Output) :=
  match command with
  | .ls => do
    let members ← listing manifest request
    return diagnostics around members.log ++ listingReport members.value format
  | .queue => do
    let order ← plan manifest request
    let members ← (order.value.mapM manifest.get).mapError .internal
    return diagnostics around order.log ++ planReport members

/-- Carry out a command on a manifest file. -/
def carryOut (around : Surroundings) (command : Command) (format : ListingFormat) (path : String)
    (request : SelectionRequest) : Outcome :=
  match openManifest around path with
  | .error failure => ⟨loading :: failed command failure, some 1⟩
  | .ok manifest =>
    match report around command format manifest request with
    | .error error => ⟨loading :: loaded manifest :: failed command (.selection error), some 1⟩
    | .ok output => ⟨loading :: loaded manifest :: output, none⟩

/-- The selection that scanned options ask for. -/
def selectionRequest (s : Scan) : SelectionRequest :=
  ⟨⟨s.all .select, s.all .exclude, s.has .greedy⟩, s.all .resourceType⟩

/-- A usage error. -/
def usageError (text : String) : Outcome :=
  ⟨[⟨.stderr, "error: " ++ text ++ "\n"⟩], some 1⟩

/-- Whether help is asked for. -/
def asksForHelp (args : List String) : Bool :=
  args.any fun arg => arg = "-h" || arg = "--help"

/-- Run a command with scanned arguments: help goes first, then what is missing, then what is not
known, then an output format that does not exist. -/
def runScanned (around : Surroundings) (command : Command) (s : Scan) : Outcome :=
  if asksForHelp s.leftOver then ⟨[], some 0⟩
  else
    match s.last? .manifest with
    | none => usageError ("required option '" ++ Flag.manifest.description ++ "' not specified")
    | some path =>
      match s.leftOver with
      | flag :: _ => usageError s!"unknown option '{flag}'"
      | [] =>
        let format := (s.last? .output).getD ListingFormat.text.name
        match ListingFormat.ofName? format with
        | none => ⟨[⟨.message .error, s!"알 수 없는 형식: {format}"⟩], some 1⟩
        | some format => carryOut around command format path (selectionRequest s)

/-- The outcome when the version is asked for. -/
def versionOutcome : Outcome := ⟨[⟨.stdout, "0.1.0\n"⟩], some 0⟩

/-- The outcome when a scan ends early. -/
def stopped : ScanStop → Outcome
  | .version => versionOutcome
  | .missingValue flag => usageError ("option '" ++ flag.description ++ "' argument missing")

/-- Run a command with its own arguments. -/
def runCommand (around : Surroundings) (command : Command) (args : List String) : Outcome :=
  match scan command.flags none false args with
  | .error stop => stopped stop
  | .ok s => runScanned around command s

/-- The outcome for a command that does not exist. -/
def unknownCommand (operands : List String) : Outcome :=
  ⟨[⟨.message .error, "알 수 없는 커맨드: " ++ " ".intercalate operands⟩,
    ⟨.report, "nodepick --help 를 실행하여 사용법을 확인하세요."⟩], some 1⟩

/-- The outcome of the help command for a topic. -/
def helpOutcome : List String → Outcome
  | [] => ⟨[], some 0⟩
  | topic :: _ => ⟨[], some (if topic.isEmpty || (Command.ofName? topic).isSome then 0 else 1)⟩

/-- Run the program. -/
def run (around : Surroundings) (args : List String) : Outcome :=
  match scan [.version] none false args with
  | .error stop => stopped stop
  | .ok s =>
    match s.operands, s.leftOver with
    | name :: operands, leftOver =>
      match Command.ofName? name with
      | some command => runCommand around command leftOver
      | none =>
        if name = "help" then helpOutcome operands
        else if asksForHelp leftOver then ⟨[], some 0⟩
        else unknownCommand (name :: operands)
    | [], [] => ⟨[], some 1⟩
    | [], flag :: rest =>
      if asksForHelp (flag :: rest) then ⟨[], some 0⟩ else usageError s!"unknown option '{flag}'"

/-- The path of the manifest file that a run would read, if it gets that far. -/
def manifestPath? (args : List String) : Option String :=
  match scan [.version] none false args with
  | .error _ => none
  | .ok s =>
    match s.operands.head?.bind Command.ofName? with
    | none => none
    | some command =>
      match scan command.flags none false s.leftOver with
      | .error _ => none
      | .ok s => s.last? .manifest

end DagSelect.CommandLine
