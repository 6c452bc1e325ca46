import DagSelect.Error
import DagSelect.Text.Wildcard

/-!
# Matching members

A selector method compares one side of a member with a value in which asterisks are wildcards. A
qualified name is matched segment by segment from its first segment on, or by its last segment
alone; a path by the whole path or by a directory that contains it; a source or an exposure by its
dotted name, with the package in front where it is given. Source and exposure values with too many
dotted parts are malformed.
-/

namespace DagSelect

/-- The ways to select members by a value. -/
inductive Method where
  | qualifiedName
  | tag
  | resourceType
  | path
  | package
  | source
  | exposure
  deriving DecidableEq, Repr

namespace Method

/-- The method's written name. -/
def name : Method → String
  | qualifiedName => "fqn"
  | tag => "tag"
  | resourceType => "resource_type"
  | path => "path"
  | package => "package"
  | source => "source"
  | exposure => "exposure"

/-- All methods, in the order in which they are listed. -/
def all : List Method := [qualifiedName, tag, resourceType, path, package, source, exposure]

/-- The method with a written name. -/
def ofName? (name : String) : Option Method :=
  all.find? (fun m => m.name = name)

/-- A method is found by its written name. -/
theorem ofName?_name (m : Method) : ofName? m.name = some m := by
  cases m <;> decide

/-- Whether names start with segments that match a list of patterns one by one. -/
def segmentsMatch (patterns names : List Text) : Bool :=
  patterns.length ≤ names.length &&
    (patterns.zip names).all (fun pair => Text.wildcardMatches pair.1 pair.2)

/-- Whether a qualified name is selected by a value: its last segment is the value, or its dotted
segments start with segments that match those of the value. -/
def qualifiedNameMatches (name : List Text) (value : Text) : Bool :=
  name.getLast? == some value ||
    segmentsMatch value.dotted (name.flatMap Text.dotted)

/-- A directory as it stands in front of the paths that it contains. -/
def directoryText (value : Text) : Text :=
  if value.units.getLast? = some (Text.unit '/') then value else value ++ "/"

/-- Whether a path is selected by a value: the value matches the path, or is a directory that
contains it. No value selects the empty path. -/
def pathMatches (path value : Text) : Bool :=
  !path.isEmpty &&
    (Text.wildcardMatches value path || (directoryText value).units.isPrefixOf path.units)

/-- The patterns for package, source and table in the one to three dotted parts of a source value.
A part that is left out is an asterisk, so it is matched by any name without a line break. -/
def sourcePatterns? : List Text → Option (Text × Text × Text)
  | [s] => some ("*", s, "*")
  | [s, t] => some ("*", s, t)
  | [p, s, t] => some (p, s, t)
  | _ => none

/-- Whether a source is selected by a value of one to three dotted parts: the source, then the
table, with the package in front of both. -/
def sourceMatches (package sourceName table value : Text) : Bool :=
  match sourcePatterns? value.dotted with
  | some (p, s, t) =>
    Text.wildcardMatches p package && Text.wildcardMatches s sourceName
      && Text.wildcardMatches t table
  | none => false

/-- Whether an exposure is selected by a value of one or two dotted parts: its name, with the
package in front of it. -/
def exposureMatches (package name value : Text) : Bool :=
  match value.dotted with
  | [n] => Text.wildcardMatches n name
  | [p, n] => Text.wildcardMatches p package && Text.wildcardMatches n name
  | _ => false

/-- Whether a member is selected by a value. -/
def selects (method : Method) (value : Text) (member : Member) : Bool :=
  match method with
  | qualifiedName => member.isNode && qualifiedNameMatches member.qualifiedName value
  | tag => member.tags.any (fun t => Text.wildcardMatches value t)
  | resourceType => member.resourceKind.name = value
  | path => pathMatches member.path value
  | package => Text.wildcardMatches value member.package
  | source =>
    match member.role with
    | .source sourceName => sourceMatches member.package sourceName member.name value
    | _ => false
  | exposure =>
    match member.role with
    | .exposure => exposureMatches member.package member.name value
    | _ => false

/-- What is wrong with a value that has too many dotted parts for its method. -/
def valueError? (method : Method) (value : String) : Option SelectorError :=
  match method with
  | source => if 3 < (Text.dotted value).length then some (.badSourceValue value) else none
  | exposure => if 2 < (Text.dotted value).length then some (.badExposureValue value) else none
  | _ => none

/-- Whether a method looks at the value at all when it meets a member. -/
def examines (method : Method) (member : Member) : Bool :=
  match method with
  | source => member.resourceKind = .source
  | exposure => member.resourceKind = .exposure
  | _ => true

end Method

end DagSelect
