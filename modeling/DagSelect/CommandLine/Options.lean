/-!
# Command-line options

Arguments are scanned from left to right. An argument that starts with a hyphen and is longer than
that is an option if the command knows it: by its letter or its long name, with its value in the
next argument, attached to the letter, or after an equals sign. A repeatable option whose value
stands in an argument of its own takes all further arguments up to the next that looks like an
option. The first option that the command does not know, and everything after it that the command
does not know either, is left over. After a double hyphen nothing is an option.
-/

namespace DagSelect.CommandLine

/-- The options of the program and its commands. -/
inductive Flag where
  | version
  | manifest
  | select
  | exclude
  | resourceType
  | greedy
  | output
  deriving DecidableEq, Repr

namespace Flag

/-- The long name. -/
def long : Flag → String
  | version => "--version"
  | manifest => "--manifest"
  | select => "--select"
  | exclude => "--exclude"
  | resourceType => "--resource-type"
  | greedy => "--greedy"
  | output => "--output"

/-- The letter, if there is one. -/
def letter? : Flag → Option Char
  | version => some 'v'
  | manifest => some 'm'
  | select => some 's'
  | output => some 'o'
  | _ => none

/-- How the value is written in a description, if the option has one. -/
def placeholder? : Flag → Option String
  | manifest => some "<path>"
  | select => some "<spec...>"
  | exclude => some "<spec...>"
  | resourceType => some "<type...>"
  | output => some "<format>"
  | _ => none

/-- Whether the option has a value. -/
def takesValue (f : Flag) : Bool := f.placeholder?.isSome

/-- Whether the option may be given several values. -/
def isRepeatable : Flag → Bool
  | select => true
  | exclude => true
  | resourceType => true
  | _ => false

/-- The names of the option with its value, as they are described. -/
def description (f : Flag) : String :=
  let names := match f.letter? with
    | some c => String.ofList ['-', c, ',', ' '] ++ f.long
    | none => f.long
  match f.placeholder? with
  | some value => names ++ " " ++ value
  | none => names

/-- Whether an argument is exactly the option's letter or long name. -/
def isNamed (f : Flag) (arg : String) : Bool :=
  arg = f.long ||
    (match f.letter? with
      | some c => arg.toList = ['-', c]
      | none => false)

end Flag

/-- Whether an argument looks like an option. -/
def looksLikeOption (arg : String) : Bool :=
  match arg.toList with
  | '-' :: _ :: _ => true
  | _ => false

/-- How an argument stands to the options of a command. -/
inductive Reading where
  | alone (flag : Flag)
  | awaiting (flag : Flag)
  | valued (flag : Flag) (value : String)
  | other
  deriving DecidableEq, Repr

/-- Read an argument whose letter has something attached to it: a value, if the option has one. -/
def readAttached (known : List Flag) (arg : String) : Reading :=
  match arg.toList with
  | '-' :: c :: d :: rest =>
    if c = '-' then .other
    else
      match known.find? (fun f => f.letter? == some c) with
      | some f => if f.takesValue then .valued f (String.ofList (d :: rest)) else .alone f
      | none => .other
  | _ => .other

/-- Read an argument with a long name, an equals sign and a value. -/
def readAssigned (known : List Flag) (arg : String) : Reading :=
  let s := arg.toList
  let name := s.takeWhile (fun c => c ≠ '=')
  match s.dropWhile (fun c => c ≠ '=') with
  | '=' :: value =>
    if name.length < 3 then .other
    else
      match known.find? (fun f => f.takesValue && f.long.toList = name) with
      | some f => .valued f (String.ofList value)
      | none => .other
  | _ => .other

/-- Read an argument: an option alone, with a letter's attachment, with an equals sign, or none. -/
def readArgument (known : List Flag) (arg : String) : Reading :=
  match known.find? (fun f => f.isNamed arg) with
  | some f => if f.takesValue then .awaiting f else .alone f
  | none =>
    match readAttached known arg with
    | .other => readAssigned known arg
    | reading => reading

/-- What a scan finds: values of options in order, arguments that belong to no option, and what is
left over from the first unknown option on. -/
structure Scan where
  values : List (Flag × String)
  operands : List String
  leftOver : List String

/-- Why a scan ends early: the version is asked for, or an option lacks its value. -/
inductive ScanStop where
  | version
  | missingValue (flag : Flag)
  deriving DecidableEq, Repr

namespace Scan

/-- Nothing found. -/
def empty : Scan := ⟨[], [], []⟩

/-- Put a value in front. -/
def withValue (flag : Flag) (value : String) (s : Scan) : Scan :=
  { s with values := (flag, value) :: s.values }

/-- Put an argument that belongs to no option in front, where such arguments now go. -/
def withOther (past : Bool) (arg : String) (s : Scan) : Scan :=
  if past then { s with leftOver := arg :: s.leftOver }
  else { s with operands := arg :: s.operands }

/-- The last value of an option. -/
def last? (s : Scan) (flag : Flag) : Option String :=
  ((s.values.filter fun v => v.1 = flag).map Prod.snd).getLast?

/-- All values of an option, in order. -/
def all (s : Scan) (flag : Flag) : List String :=
  (s.values.filter fun v => v.1 = flag).map Prod.snd

/-- Whether an option was given. -/
def has (s : Scan) (flag : Flag) : Bool :=
  s.values.any fun v => v.1 = flag

end Scan

/-- Scan arguments for the options that a command knows. `open?` is the repeatable option that the
next arguments may belong to, and `past` says whether an unknown option has been met. -/
def scan (known : List Flag) (open? : Option Flag) (past : Bool) :
    List String → Except ScanStop Scan
  | [] => .ok .empty
  | arg :: args =>
    if arg = "--" then
      .ok (if past then { Scan.empty with leftOver := arg :: args }
        else { Scan.empty with operands := args })
    else
      let inOpen := if looksLikeOption arg then none else open?
      match inOpen with
      | some flag => (scan known (some flag) past args).map (Scan.withValue flag arg)
      | none =>
        match readArgument known arg with
        | .alone flag =>
          if flag = .version then .error .version
          else (scan known none past args).map (Scan.withValue flag "")
        | .valued flag value => (scan known none past args).map (Scan.withValue flag value)
        | .awaiting flag =>
          match args with
          | [] => .error (.missingValue flag)
          | value :: rest =>
            let next := if flag.isRepeatable then some flag else none
            (scan known next past rest).map (Scan.withValue flag value)
        | .other =>
          let nowPast := past || looksLikeOption arg
          (scan known none nowPast args).map (Scan.withOther nowPast arg)

end DagSelect.CommandLine
