import DagSelect.Proofs.Listing
import DagSelect.Proofs.Selector.Growth
import DagSelect.Proofs.Selector.LeftOut

/-!
# Longer requests

A further text to select takes nothing away from a listing. A further text to exclude adds nothing
to it, if something is excluded already. The first text to exclude makes a difference of the spec,
which ends with a promotion of its own, and this promotion may take in tests that were left out. It
does so only for tests that depend on tests, since no others are left out while their parents are
selected.
-/

namespace DagSelect

namespace SelectionArguments

variable {args : SelectionArguments} {text : String} {spec : Spec}

/-- The arguments with a further text to select. -/
def selecting (args : SelectionArguments) (text : String) : SelectionArguments :=
  { args with select := args.select ++ [text] }

/-- The arguments with a further text to exclude. -/
def excluding (args : SelectionArguments) (text : String) : SelectionArguments :=
  { args with exclude := args.exclude ++ [text] }

/-- If a further text to select can be read with the others, they can be read without it, and
select no more. -/
theorem exists_parse_of_selecting (hselect : args.select ≠ [])
    (h : (args.selecting text).parse = .ok spec) : ∃ plain, args.parse = .ok plain ∧
      ∀ (s : Selector) (x : Text), x ∈ (s.bundle plain).direct → x ∈ (s.bundle spec).direct := by
  have hread : ∀ {included}, (args.selecting text).parseSelect = .ok included →
      ∃ plain, args.parseSelect = .ok plain ∧
        ∀ s : Selector, (s.bundle plain).GrowsTo (s.bundle included) := by
    intro included hincluded
    have hselect' : (args.selecting text).select ≠ [] := by simp [selecting]
    rw [parseSelect_of_select_ne_nil hselect'] at hincluded
    obtain ⟨words, more, hwords, rfl⟩ := readUnion_append hincluded
    exact ⟨_, (parseSelect_of_select_ne_nil hselect).trans hwords, fun s =>
      Selector.union_growsTo words more⟩
  by_cases hnil : args.exclude = []
  · have hnil' : (args.selecting text).exclude = [] := hnil
    rw [parse_of_exclude_eq_nil hnil'] at h
    obtain ⟨plain, hplain, hgrows⟩ := hread h
    exact ⟨plain, (parse_of_exclude_eq_nil hnil).trans hplain, fun s => (hgrows s).direct⟩
  · have hnil' : (args.selecting text).exclude ≠ [] := hnil
    obtain ⟨included, excluded, hincluded, hexcluded, rfl⟩ := (parse_eq_ok_iff hnil').1 h
    obtain ⟨plain, hplain, hgrows⟩ := hread hincluded
    refine ⟨_, (parse_eq_ok_iff hnil).2 ⟨plain, excluded, hplain, hexcluded, rfl⟩, fun s x hx => ?_⟩
    obtain ⟨hpositive, hgreedy⟩ := parseExclude_spec hexcluded
    exact Selector.mem_direct_difference_mono (hgrows s)
      (fun y hy => (Selector.mem_direct_of_greedy hpositive hgreedy).2 hy) hx

/-- If a further text to exclude can be read with the others, they can be read without it. They
select no less then, but for tests with tests among their parents that a first exclusion takes in:
such a test hung on the selection, which was not greedy. -/
theorem exists_parse_of_excluding (h : (args.excluding text).parse = .ok spec) :
    ∃ plain, args.parse = .ok plain ∧ ∀ (s : Selector) (x : Text), x ∈ (s.bundle spec).direct →
      x ∈ (s.bundle plain).direct ∨ args.exclude = [] ∧ args.greedy = false ∧
        x ∈ (s.selection plain).indirectOnly ∧ ∃ t ∈ s.manifest.members, t.id = x ∧
          t.isTest = true ∧ ∃ p ∈ t.dependsOn, ∃ y ∈ s.manifest.members,
            y.id = p ∧ y.isTest = true := by
  have hnil' : (args.excluding text).exclude ≠ [] := by simp [excluding]
  obtain ⟨included, excluded, hincluded, hexcluded, rfl⟩ := (parse_eq_ok_iff hnil').1 h
  have hincluded' : args.parseSelect = .ok included := hincluded
  by_cases hnil : args.exclude = []
  · refine ⟨included, (parse_of_exclude_eq_nil hnil).trans hincluded', fun s x hx => ?_⟩
    by_cases hin : x ∈ (s.bundle included).direct
    · exact .inl hin
    · have htest := Selector.test_of_mem_difference hin hx
      refine .inr ⟨hnil, ?_, htest⟩
      -- Nothing hangs on a greedy selection.
      by_contra hgreedy
      obtain ⟨hpositive, hcriteria⟩ := parseSelect_spec hincluded'
      rw [Bool.not_eq_false] at hgreedy
      rw [hgreedy] at hcriteria
      refine hin ((Selector.mem_direct_of_greedy hpositive hcriteria).2 ?_)
      exact Selector.mem_everything_iff.2 (.inr htest.1)
  · obtain ⟨words, more, hwords, rfl⟩ := readUnion_append hexcluded
    have hplain : args.parse = .ok (.combine .difference
        [included, .combination .union words false (" ".intercalate args.exclude)] false none) :=
      (parse_eq_ok_iff hnil).2 ⟨included, _, hincluded', hwords, rfl⟩
    refine ⟨_, hplain, fun s x hx => .inl ?_⟩
    obtain ⟨hpositive, hgreedy⟩ := parseExclude_spec hexcluded
    refine Selector.mem_direct_difference_mono (.refl _) (fun y hy => ?_) hx
    rw [Selector.mem_direct_of_greedy hpositive hgreedy]
    exact Selector.mem_everything_union_append hy

end SelectionArguments

namespace SelectionRequest

/-- The request with a further text to select. -/
def selecting (request : SelectionRequest) (text : String) : SelectionRequest :=
  { request with arguments := request.arguments.selecting text }

/-- The request with a further text to exclude. -/
def excluding (request : SelectionRequest) (text : String) : SelectionRequest :=
  { request with arguments := request.arguments.excluding text }

end SelectionRequest

variable {m : Manifest} {g : Graph} {request : SelectionRequest} {filter : ResourceFilter}
variable {text : String} {spec : Spec}

/-- A request with a further text to select lists everything that the request lists without it. -/
theorem listing_selecting (hg : m.graph = .ok g) (hfilter : request.filter = .ok filter)
    (hselect : request.arguments.select ≠ [])
    (hspec : (request.selecting text).arguments.parse = .ok spec) :
    ∃ before after, listing m request = .ok before ∧
      listing m (request.selecting text) = .ok after ∧
      ∀ x ∈ before.value, x ∈ after.value := by
  obtain ⟨plain, hplain, hmono⟩ := SelectionArguments.exists_parse_of_selecting hselect hspec
  have hfilter' : (request.selecting text).filter = .ok filter := hfilter
  obtain ⟨before, hbefore, hlisted⟩ := listing_mem_iff hg hfilter hplain rfl
  obtain ⟨after, hafter, hlisted'⟩ := listing_mem_iff hg hfilter' hspec rfl
  refine ⟨before, after, hbefore, hafter, fun x hx => ?_⟩
  obtain ⟨hmem, hdirect, haccepts⟩ := (hlisted x).1 hx
  exact (hlisted' x).2 ⟨hmem, hmono _ _ hdirect, haccepts⟩

/-- In the sample, selecting the second model besides the first keeps what is listed. -/
theorem listing_selecting_sample : ∃ before after,
    listing Sample.manifest ⟨⟨["orders", "report"], ["unique"], false⟩, []⟩ = .ok before ∧
    listing Sample.manifest ⟨⟨["orders", "report", "stock"], ["unique"], false⟩, []⟩ = .ok after ∧
    ∀ x ∈ before.value, x ∈ after.value := by
  let request : SelectionRequest := ⟨⟨["orders", "report"], ["unique"], false⟩, []⟩
  have hread : (request.selecting "stock").arguments.parse.isOk = true := by decide +kernel
  obtain ⟨spec, hspec⟩ := Except.exists_eq_ok hread
  have hfilter : request.filter = .ok .all := rfl
  exact listing_selecting Sample.graph_eq hfilter (by decide) hspec

/-- A request with a further text to exclude lists nothing that the request does not list without
it, but for tests of tests that the first text to exclude takes in: they were left out without it,
by a request that was not greedy. -/
theorem listing_excluding (hg : m.graph = .ok g) (hfilter : request.filter = .ok filter)
    (hspec : (request.excluding text).arguments.parse = .ok spec) :
    ∃ s plainSpec plain before after, request.prepare m = .ok (s, plainSpec) ∧
      s.resolve plainSpec = .ok plain ∧
      listing m request = .ok before ∧ listing m (request.excluding text) = .ok after ∧
      ∀ x ∈ after.value, x ∈ before.value ∨
        request.arguments.exclude = [] ∧ request.arguments.greedy = false ∧
          x.id ∈ plain.value.indirectOnly ∧ x.isTest = true ∧
          ∃ p ∈ x.dependsOn, ∃ y ∈ m.members, y.id = p ∧ y.isTest = true := by
  obtain ⟨plain, hplain, hmono⟩ := SelectionArguments.exists_parse_of_excluding hspec
  have hfilter' : (request.excluding text).filter = .ok filter := hfilter
  obtain ⟨before, hbefore, hlisted⟩ := listing_mem_iff hg hfilter hplain rfl
  obtain ⟨after, hafter, hlisted'⟩ := listing_mem_iff hg hfilter' hspec rfl
  refine ⟨_, plain, _, before, after, SelectionRequest.prepare_eq hg hfilter hplain,
    Selector.resolve_eq _ plain, hbefore, hafter, fun x hx => ?_⟩
  obtain ⟨hmem, hdirect, haccepts⟩ := (hlisted' x).1 hx
  rcases hmono _ _ hdirect with hdirect | ⟨hnil, hgreedy, hindirect, t, ht, hid, htest⟩
  · exact .inl ((hlisted x).2 ⟨hmem, hdirect, haccepts⟩)
  · obtain rfl := Manifest.eq_of_id_eq ht hmem hid
    exact .inr ⟨hnil, hgreedy, hindirect, htest⟩

/-- In the sample, a request for both models that excludes the test of one of them lists no more
when the other model is excluded besides. -/
theorem listing_excluding_sample : ∃ before after,
    listing Sample.manifest ⟨⟨["orders", "stock"], ["unique"], false⟩, []⟩ = .ok before ∧
    listing Sample.manifest ⟨⟨["orders", "stock"], ["unique", "stock"], false⟩, []⟩ = .ok after ∧
    ∀ x ∈ after.value, x ∈ before.value := by
  let request : SelectionRequest := ⟨⟨["orders", "stock"], ["unique"], false⟩, []⟩
  have hread : (request.excluding "stock").arguments.parse.isOk = true := by decide +kernel
  obtain ⟨spec, hspec⟩ := Except.exists_eq_ok hread
  have hfilter : request.filter = .ok .all := rfl
  obtain ⟨_, _, _, before, after, -, -, hbefore, hafter, hlisted⟩ :=
    listing_excluding Sample.graph_eq hfilter hspec
  refine ⟨before, after, hbefore, hafter, fun x hx => (hlisted x hx).resolve_right ?_⟩
  rintro ⟨hnil, -⟩
  exact absurd hnil (by decide)

/-- Of the tests that depend on each other, a request for the model lists the fourth only if it
excludes something, although nothing is found for that. -/
theorem listing_excluding_adds : ∃ before after,
    listing Sample.chain ⟨⟨["orders"], [], false⟩, []⟩ = .ok before ∧
    listing Sample.chain ⟨⟨["orders"], ["customers"], false⟩, []⟩ = .ok after ∧
    ("fourth" : Text) ∉ before.value.map Member.id ∧
    ("fourth" : Text) ∈ after.value.map Member.id := by
  obtain ⟨before, hbefore⟩ := Except.exists_eq_ok
    (x := listing Sample.chain ⟨⟨["orders"], [], false⟩, []⟩) (by decide +kernel)
  obtain ⟨after, hafter⟩ := Except.exists_eq_ok
    (x := listing Sample.chain ⟨⟨["orders"], ["customers"], false⟩, []⟩) (by decide +kernel)
  have hout : (listing Sample.chain ⟨⟨["orders"], [], false⟩, []⟩).toOption.all
      (fun listed => ("fourth" : Text) ∉ listed.value.map Member.id) = true := by
    decide +kernel
  have hin : (listing Sample.chain ⟨⟨["orders"], ["customers"], false⟩, []⟩).toOption.all
      (fun listed => ("fourth" : Text) ∈ listed.value.map Member.id) = true := by
    decide +kernel
  rw [hbefore] at hout
  rw [hafter] at hin
  exact ⟨before, after, hbefore, hafter, of_decide_eq_true hout, of_decide_eq_true hin⟩

end DagSelect
