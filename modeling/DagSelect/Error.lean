import DagSelect.Manifest.Issue
import DagSelect.Member

/-!
# Errors by cause

Four families: a broken invariant between manifest, graph and queue, which ends a run; a selector
that cannot be understood, from which a selection recovers where it can; a manifest that cannot be
used; and a graph that cannot be changed as it should, which nothing recovers from.
-/

namespace DagSelect

/-- An identifier that is missing where it has to be known. -/
inductive InternalError where
  | notInManifest (id : Text)
  | notInGraph (id : Text)
  | neverStarted (id : Text)
  deriving DecidableEq, Repr

namespace InternalError

/-- The error in words. -/
def message : InternalError → Text
  | notInManifest id => "Node " ++ id ++ " not found in the manifest!"
  | notInGraph id => "Node " ++ id ++ " not found in the graph!"
  | neverStarted id => "Node " ++ id ++ " was marked done but was never started"

end InternalError

/-- A selection argument that cannot be understood. -/
inductive SelectorError where
  | malformed (raw : String)
  | clashingModifiers (raw : String)
  | badArguments (methodText method : String)
  | unknownMethod (name : String)
  | badSourceValue (value : String)
  | badExposureValue (value : String)
  | unknownResourceType (value : String)
  deriving DecidableEq, Repr

namespace SelectorError

/-- The error in words. -/
def message : SelectorError → String
  | malformed raw => s!"Invalid selector spec \"{raw}\""
  | clashingModifiers raw =>
    s!"Invalid node spec {raw} - \"@\" prefix and \"+\" prefix are not compatible"
  | badArguments methodText _ => s!"Invalid method arguments in \"{methodText}\""
  | unknownMethod name => s!"Unknown selector method: {name}"
  | badSourceValue value =>
    s!"Invalid source selector value \"{value}\". Sources must be of the form "
      ++ "$\x7bsource_name\x7d, $\x7bsource_name\x7d.$\x7btarget_name\x7d, or "
      ++ "$\x7bpackage_name\x7d.$\x7bsource_name\x7d.$\x7btarget_name\x7d"
  | badExposureValue value =>
    s!"Invalid exposure selector value \"{value}\". Exposures must be of the form "
      ++ "$\x7bexposure_name\x7d or $\x7bexposure_package.exposure_name\x7d"
  | unknownResourceType value =>
    s!"Unknown resource type: {value}. Must be one of ["
      ++ ", ".intercalate (ResourceKind.all.map ResourceKind.name) ++ "]"

/-- The selector method that an error is about, where it is about one. -/
def method? : SelectorError → Option String
  | badArguments _ method => some method
  | unknownMethod name => some name
  | badSourceValue _ => some "source"
  | badExposureValue _ => some "exposure"
  | _ => none

end SelectorError

/-- A manifest that cannot be used. -/
inductive ManifestError where
  | notJson (path : String) (reason : Text)
  | invalidDocument (issues : List Issue)
  | duplicateId (id : Text)
  | unknownParent (member parent : Text)
  deriving DecidableEq, Repr

namespace ManifestError

/-- The error in words; the issues of a document follow on lines of their own. -/
def message : ManifestError → Text
  | notJson path reason => s!"Manifest is not valid JSON: {path} (" ++ reason ++ ")"
  | invalidDocument issues =>
    .join "\n  - " ("Invalid manifest document" :: issues.map Issue.message)
  | duplicateId id => "Duplicate unique id in manifest: " ++ id
  | unknownParent member parent =>
    member ++ " depends on " ++ parent ++ ", which is not in the manifest"

/-- The issues that an error lists. -/
def issues : ManifestError → List Issue
  | invalidDocument issues => issues
  | _ => []

end ManifestError

/-- A graph that cannot be changed as it should: a node cannot be removed from it. -/
inductive StoreError where
  | unremovable
  deriving DecidableEq, Repr

/-- The error in words, which are those of the accident that the removal ends in. -/
def StoreError.message : StoreError → Text
  | unremovable => "Cannot read properties of undefined (reading 'outDegree')"

/-- Why a selection cannot be carried out. -/
inductive SelectionError where
  | internal (error : InternalError)
  | selector (error : SelectorError)
  | manifest (error : ManifestError)
  | store (error : StoreError)
  deriving DecidableEq, Repr

namespace SelectionError

/-- The error in words. -/
def message : SelectionError → Text
  | internal error => error.message
  | selector error => error.message
  | manifest error => error.message
  | store error => error.message

end SelectionError

end DagSelect
