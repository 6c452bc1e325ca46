import DagSelect.Proofs.Listing

/-!
# What a filter leaves

The kinds of resource that a request names count only when everything else is settled: they decide
nothing about what is selected, what hangs on it or what is logged for the spec. So a listing with a
filter is the listing without it, filtered. What is left out of a selection are tests, so the notice
about them passes a filter as a whole or not at all.
-/

namespace DagSelect

namespace Selector

variable {s : Selector} {filter : ResourceFilter} {spec : Spec}

/-- The selector with another filter. -/
def withFilter (s : Selector) (filter : ResourceFilter) : Selector := { s with filter := filter }

/-- What a spec selects and what hangs on it does not depend on the filter. -/
theorem bundle_withFilter : (s.withFilter filter).bundle spec = s.bundle spec := by
  induction spec with
  | criterion c => rfl
  | combination operation components warnIfEmpty text ih =>
    rw [bundle, bundle, bundleAll_eq_map, bundleAll_eq_map, List.map_congr_left ih]
    rfl

/-- The messages for a spec do not depend on the filter. -/
theorem messages_withFilter : (s.withFilter filter).messages spec = s.messages spec := by
  induction spec with
  | criterion c =>
    rw [messages, messages, bundle_withFilter]
    rfl
  | combination operation components warnIfEmpty text ih =>
    rw [messages, messages, messagesAll_eq_flatMap, messagesAll_eq_flatMap, bundle_withFilter,
      List.flatMap_congr ih]

/-- What only hangs on a spec does not depend on the filter. -/
theorem selection_withFilter : (s.withFilter filter).selection spec = s.selection spec := by
  rw [selection, selection, bundle_withFilter]

end Selector

namespace SelectionRequest

/-- Kinds of resource are read back from their names. -/
theorem readKinds_map_name (kinds : List ResourceKind) :
    readKinds (kinds.map ResourceKind.name) = .ok kinds := by
  rw [readKinds, Except.mapM_eq_ok_iff, List.forall₂_map_left_iff]
  refine List.forall₂_same.2 fun kind _ => ?_
  rw [ResourceKind.ofName?_name]

/-- A request that names kinds of resource asks for a filter that leaves those. -/
theorem filter_map_name {args : SelectionArguments} {kinds : List ResourceKind}
    (h : kinds ≠ []) :
    filter ⟨args, kinds.map ResourceKind.name⟩ = .ok (.only kinds) := by
  rw [filter, if_neg (by simpa using h), readKinds_map_name]
  rfl

end SelectionRequest

variable {m : Manifest} {g : Graph} {args : SelectionArguments} {spec : Spec}
variable {kinds : List ResourceKind}

/-- A listing with a filter holds what passes it of the listing without, in the same order, and the
log is the same. Only if tests do not pass the filter, the notice about those left out of the
selection is missing. -/
theorem filtered_listing (hg : m.graph = .ok g) (hspec : args.parse = .ok spec)
    (hkinds : kinds ≠ []) :
    ∃ (s : Selector) (plain : Logged Selection) (listed filtered : Logged (List Member))
      (leftOut : List Member),
      SelectionRequest.prepare ⟨args, []⟩ m = .ok (s, spec) ∧
      s.resolve spec = .ok plain ∧
      m.IsListing (fun x => x.id ∈ plain.value.indirectOnly) leftOut ∧
      listing m ⟨args, []⟩ = .ok listed ∧
      listed.log = plain.log ++ (if leftOut.isEmpty then []
        else Notice.unusedTests (leftOut.map Member.name) Selector.standardGreedyOption) ∧
      listing m ⟨args, kinds.map ResourceKind.name⟩ = .ok filtered ∧
      filtered.value = listed.value.filter (fun x => x.resourceKind ∈ kinds) ∧
      filtered.log = if .node .test ∈ kinds then listed.log else plain.log := by
  let s := Selector.ofManifest m g .standard .all Selector.standardGreedyOption
  have hall : SelectionRequest.filter ⟨args, []⟩ = .ok .all := rfl
  obtain ⟨listed, leftOut, hlisted, hleftOut, hlisting⟩ := listing_spec hg hall hspec (s := s) rfl
  obtain ⟨filtered, leftOut', hfiltered, hleftOut', hfiltering⟩ :=
    listing_spec hg (SelectionRequest.filter_map_name hkinds) hspec
      (s := s.withFilter (.only kinds)) rfl
  rw [Selector.messages_withFilter] at hfiltering
  simp only [Selector.bundle_withFilter] at hfiltered
  simp only [Selector.selection_withFilter] at hleftOut'
  have hplain : m.IsListing (fun x => x.id ∈ (s.selection spec).indirectOnly) leftOut :=
    hleftOut.congr fun x _ => and_iff_left rfl
  have hvalue : filtered = listed.filter fun x => x.resourceKind ∈ kinds :=
    hfiltered.unique ((hlisted.filter _).congr fun x _ => and_congr_left' (and_iff_left rfl))
  have hnotice : leftOut' = leftOut.filter fun x => x.resourceKind ∈ kinds :=
    hleftOut'.unique (hplain.filter _)
  have htests : ∀ x ∈ leftOut, x.resourceKind = .node .test := fun x hx =>
    have ⟨hmem, hid⟩ := (hplain.mem_iff x).1 hx
    of_decide_eq_true (Selector.isTest_of_mem_indirectOnly hmem hid)
  refine ⟨s, _, _, _, leftOut, SelectionRequest.prepare_eq hg hall hspec, s.resolve_eq spec, hplain,
    hlisting, rfl, hfiltering, hvalue, ?_⟩
  by_cases htest : .node .test ∈ kinds
  · have hsame : leftOut' = leftOut := by
      rw [hnotice]
      exact List.filter_eq_self.2 fun x hx => by simpa [htests x hx] using htest
    rw [if_pos htest, hsame]
  · have hnone : leftOut' = [] := by
      rw [hnotice]
      exact List.filter_eq_nil_iff.2 fun x hx => by simpa [htests x hx] using htest
    rw [if_neg htest, hnone]
    exact List.append_nil _

/-- In the sample, a test hangs on `orders`; if only models are asked for, the same is listed but for
the tests, and nothing is said about it. -/
theorem filtered_listing_sample : ∃ listed filtered,
    listing Sample.manifest ⟨⟨["orders"], [], false⟩, []⟩ = .ok listed ∧
    listing Sample.manifest ⟨⟨["orders"], [], false⟩, ["model"]⟩ = .ok filtered ∧
    filtered.value = listed.value.filter (fun x => x.resourceKind ∈ [.node .model]) ∧
    listed.log = filtered.log ++ Notice.unusedTests ["match"] "--greedy" := by
  obtain ⟨spec, hspec⟩ := Except.exists_eq_ok
    (x := SelectionArguments.parse ⟨["orders"], [], false⟩) (by decide +kernel)
  obtain ⟨_, _, listed, filtered, _, -, -, -, hlisted, -, hfiltered, hvalue, -⟩ :=
    filtered_listing Sample.graph_eq hspec (List.cons_ne_nil (.node .model) [])
  have hnotice : (listing Sample.manifest ⟨⟨["orders"], [], false⟩, []⟩).toOption.all
      (fun listed => listed.log = Notice.unusedTests ["match"] "--greedy") = true := by
    decide +kernel
  have hnothing : (listing Sample.manifest ⟨⟨["orders"], [], false⟩, ["model"]⟩).toOption.all
      (fun filtered => filtered.log = []) = true := by
    decide +kernel
  have hmodels : listing Sample.manifest ⟨⟨["orders"], [], false⟩, ["model"]⟩ = .ok filtered :=
    hfiltered
  rw [hlisted] at hnotice
  rw [hmodels] at hnothing
  have hlog : listed.log = Notice.unusedTests ["match"] "--greedy" := of_decide_eq_true hnotice
  have hnil : filtered.log = [] := of_decide_eq_true hnothing
  refine ⟨listed, filtered, hlisted, hmodels, hvalue, ?_⟩
  rw [hlog, hnil]
  rfl

end DagSelect
