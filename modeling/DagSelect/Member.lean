import DagSelect.Text.Basic

/-!
# Members of a build graph

A member is a node that can be built, an external source table, or an exposure that consumes the
results. All members share their attributes; what only one of the three has stands in its role.
-/

namespace DagSelect

/-- The kinds of node that can be built. -/
inductive NodeKind where
  | model
  | test
  | seed
  | snapshot
  | analysis
  | operation
  deriving DecidableEq, Repr

namespace NodeKind

/-- The kind's written name. -/
def name : NodeKind → String
  | model => "model"
  | test => "test"
  | seed => "seed"
  | snapshot => "snapshot"
  | analysis => "analysis"
  | operation => "operation"

/-- All kinds, in the order in which they are listed. -/
def all : List NodeKind := [model, test, seed, snapshot, analysis, operation]

/-- The kind with a written name. -/
def ofName? (name : Text) : Option NodeKind :=
  all.find? (fun k => k.name = name)

/-- A kind is found by its written name. -/
theorem ofName?_name (k : NodeKind) : ofName? k.name = some k := by
  cases k <;> decide

end NodeKind

/-- The kinds of resource that a member can be. -/
inductive ResourceKind where
  | node (kind : NodeKind)
  | source
  | exposure
  deriving DecidableEq, Repr

namespace ResourceKind

/-- The kind's written name. -/
def name : ResourceKind → String
  | node kind => kind.name
  | source => "source"
  | exposure => "exposure"

/-- All kinds, in the order in which they are listed. -/
def all : List ResourceKind := NodeKind.all.map node ++ [source, exposure]

/-- The kind with a written name. -/
def ofName? (name : String) : Option ResourceKind :=
  all.find? (fun k => k.name = name)

/-- A kind is found by its written name. -/
theorem ofName?_name (k : ResourceKind) : ofName? k.name = some k := by
  cases k with
  | node kind => cases kind <;> decide
  | source => decide
  | exposure => decide

end ResourceKind

/-- What a member is, with the attributes that only such members have. A node is empty if it holds
nothing to build. -/
inductive Role where
  | node (kind : NodeKind) (empty : Bool)
  | source (sourceName : Text)
  | exposure
  deriving DecidableEq, Repr

/-- A member of the build graph. Its identifier is unique, and `dependsOn` lists its direct
parents. -/
structure Member where
  id : Text
  name : Text
  package : Text
  qualifiedName : List Text
  path : Text
  tags : List Text
  enabled : Bool
  dependsOn : List Text
  role : Role
  deriving DecidableEq, Repr

namespace Member

/-- The kind of resource that a member is. -/
def resourceKind (m : Member) : ResourceKind :=
  match m.role with
  | .node kind _ => .node kind
  | .source _ => .source
  | .exposure => .exposure

/-- Whether a member is a node that can be built. -/
def isNode (m : Member) : Bool :=
  match m.role with
  | .node _ _ => true
  | _ => false

/-- Whether a member is a test. -/
def isTest (m : Member) : Bool :=
  m.resourceKind = .node .test

/-- Whether a member takes part in selections: it is enabled and, if it is a node, not empty. -/
def isSelectable (m : Member) : Bool :=
  match m.role with
  | .node _ empty => m.enabled && !empty
  | _ => m.enabled

end Member

end DagSelect
