import DagSelect.Proofs.Listing
import DagSelect.Proofs.Selector.Exclusion

/-!
# What greediness adds

Made greedy, a spec that excludes something greedily selects everything that it selects or that
hangs on it, and nothing hangs on it any more. So a greedy request lists what the same request
lists without, and besides the tests that the notice about left-out tests is about.
-/

namespace DagSelect

namespace Selector

variable {s : Selector} {spec included excluded : Spec} {x : Text}
variable (h : Spec.Exclusion included excluded spec)

include h

/-- An exclusion made greedy has the same of everything. -/
theorem mem_everything_greedily_exclusion :
    x ∈ (s.bundle spec.greedily).everything ↔ x ∈ (s.bundle spec).everything := by
  rw [mem_everything_exclusion h.greedily, mem_everything_exclusion h,
    mem_everything_greedily h.included_positive]

/-- An exclusion made greedy selects everything. -/
theorem mem_direct_greedily_exclusion :
    x ∈ (s.bundle spec.greedily).direct ↔ x ∈ (s.bundle spec).everything := by
  constructor
  · intro hx
    rw [← mem_everything_greedily_exclusion h]
    exact Bundle.mem_everything_of_mem_direct hx
  · intro hx
    obtain ⟨hin, hout⟩ := (mem_everything_exclusion h).1 hx
    exact mem_direct_exclusion h.greedily ((mem_direct_greedily h.included_positive).2 hin) hout

/-- Nothing hangs on an exclusion that was made greedy. -/
theorem not_mem_indirectOnly_greedily : x ∉ (s.selection spec.greedily).indirectOnly := by
  intro hx
  obtain ⟨hindirect, hdirect⟩ := OrderedSet.mem_diff.1 hx
  refine hdirect ((mem_direct_greedily_exclusion h).2 ?_)
  rw [← mem_everything_greedily_exclusion h]
  exact OrderedSet.mem_union.2 (.inr hindirect)

end Selector

/-- The request with the tests that hang on the selection. -/
def SelectionRequest.greedily (request : SelectionRequest) : SelectionRequest :=
  { request with arguments := { request.arguments with greedy := true } }

variable {m : Manifest} {g : Graph} {request : SelectionRequest} {filter : ResourceFilter}
variable {spec : Spec}

/-- A request made greedy selects what it selects without and what only hangs on that, and lists
besides the members that it lists without exactly the tests that the notice is about. -/
theorem greedy_listing (hg : m.graph = .ok g) (hplain : request.arguments.greedy = false)
    (hfilter : request.filter = .ok filter) (hspec : request.arguments.parse = .ok spec) :
    ∃ (s : Selector) (greedySpec : Spec) (plain greedy : Logged Selection)
      (listed greedyListed : Logged (List Member)) (leftOut : List Member),
      request.prepare m = .ok (s, spec) ∧
      request.greedily.prepare m = .ok (s, greedySpec) ∧
      s.resolve spec = .ok plain ∧
      s.resolve greedySpec = .ok greedy ∧
      (∀ id, id ∈ greedy.value.direct ↔
        id ∈ plain.value.direct ∨ id ∈ plain.value.indirectOnly) ∧
      (∀ id, id ∉ greedy.value.indirectOnly) ∧
      listing m request = .ok listed ∧
      listing m request.greedily = .ok greedyListed ∧
      m.IsListing (fun x => x.id ∈ plain.value.indirectOnly ∧ filter.accepts x = true) leftOut ∧
      (∀ x ∈ leftOut, x.isTest = true) ∧
      greedyListed.value.Perm (listed.value ++ leftOut) ∧
      listed.log = plain.log ++ (if leftOut.isEmpty then []
        else Notice.unusedTests (leftOut.map Member.name) Selector.standardGreedyOption) ∧
      greedyListed.log = greedy.log := by
  obtain ⟨included, excluded, -, -, hexclusion⟩ := SelectionArguments.parse_spec hspec
  have hspec' : request.greedily.arguments.parse = .ok spec.greedily := by
    refine SelectionArguments.parse_greedy ?_
    rw [← hplain]
    exact hspec
  let s := Selector.ofManifest m g .standard filter Selector.standardGreedyOption
  obtain ⟨listed, leftOut, hlisted, hleftOut, hlisting⟩ :=
    listing_spec hg hfilter hspec (s := s) rfl
  have hfilter' : request.greedily.filter = .ok filter := hfilter
  obtain ⟨greedyListed, leftOut', hgreedyListed, hleftOut', hgreedyListing⟩ :=
    listing_spec hg hfilter' hspec' (s := s) rfl
  have hdirect : ∀ id, id ∈ (s.selection spec.greedily).direct ↔
      id ∈ (s.selection spec).direct ∨ id ∈ (s.selection spec).indirectOnly := fun id =>
    (Selector.mem_direct_greedily_exclusion hexclusion).trans Selector.mem_everything_iff
  have hindirect : ∀ id, id ∉ (s.selection spec.greedily).indirectOnly := fun id =>
    Selector.not_mem_indirectOnly_greedily hexclusion
  refine ⟨s, spec.greedily, _, _, _, _, leftOut, SelectionRequest.prepare_eq hg hfilter hspec,
    SelectionRequest.prepare_eq hg hfilter' hspec', s.resolve_eq spec, s.resolve_eq spec.greedily,
    hdirect, hindirect, hlisting, hgreedyListing, hleftOut, fun x hx => ?_, ?_, rfl, ?_⟩
  · obtain ⟨hmem, hid, -⟩ := (hleftOut.mem_iff x).1 hx
    exact Selector.isTest_of_mem_indirectOnly hmem hid
  · refine hgreedyListed.perm_append hlisted hleftOut (fun x hx => ?_) fun x hx h h' => ?_
    · rw [← or_and_right]
      exact and_congr_left fun _ => hdirect x.id
    · exact (OrderedSet.mem_diff.1 h'.1).2 h.1
  · have hempty : leftOut' = [] := List.eq_nil_iff_forall_not_mem.2 fun x hx =>
      hindirect x.id ((hleftOut'.mem_iff x).1 hx).2.1
    rw [hempty]
    exact List.append_nil _

/-- In the sample, a request for `orders` leaves out tests, and lists them besides if it is made
greedy. -/
theorem greedy_listing_sample : ∃ listed greedyListed leftOut,
    listing Sample.manifest ⟨⟨["orders"], [], false⟩, []⟩ = .ok listed ∧
    listing Sample.manifest ⟨⟨["orders"], [], true⟩, []⟩ = .ok greedyListed ∧
    greedyListed.value.Perm (listed.value ++ leftOut) ∧
    ∀ x ∈ leftOut, x.isTest = true := by
  obtain ⟨spec, hspec⟩ := Except.exists_eq_ok
    (x := SelectionArguments.parse ⟨["orders"], [], false⟩) (by decide +kernel)
  have hfilter : SelectionRequest.filter ⟨⟨["orders"], [], false⟩, []⟩ = .ok .all := rfl
  obtain ⟨_, _, _, _, listed, greedyListed, leftOut, -, -, -, -, -, -, hlisted, hgreedyListed, -,
    htests, hperm, -, -⟩ := greedy_listing Sample.graph_eq rfl hfilter hspec
  exact ⟨listed, greedyListed, leftOut, hlisted, hgreedyListed, hperm, htests⟩

end DagSelect
