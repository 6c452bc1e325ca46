import DagSelect.Manifest.Document
import DagSelect.Proofs.Listing
import DagSelect.Proofs.Selector.Exclusion
import DagSelect.Proofs.Text.Wildcard

/-!
# The listing when nothing is asked for

Without arguments three selectors stand in, each of which is an asterisk. So what is listed are the
selectable members whose names an asterisk matches, and besides them at most tests. Nodes without a
qualified name, and members with a line break in a name, are left out although they are selectable.
-/

namespace DagSelect

/-- Whether an asterisk matches a member's names: the first dotted part of a node's qualified name,
unless its last segment is an asterisk itself, and all names of a source, and that of an
exposure. -/
def Member.PlainlyNamed (x : Member) : Prop :=
  match x.role with
  | .node _ _ => x.qualifiedName.getLast? = some ("*" : Text) ∨
    ∃ first rest, x.qualifiedName.flatMap Text.dotted = first :: rest ∧ Text.OnOneLine first.units
  | .source sourceName => Text.OnOneLine x.package.units ∧ Text.OnOneLine sourceName.units ∧
    Text.OnOneLine x.name.units
  | .exposure => Text.OnOneLine x.name.units

/-- The methods that stand in for a selection. -/
def Method.defaults : List Method := [qualifiedName, source, exposure]

/-- The spec that stands in for a selection. -/
def Spec.default : Spec :=
  .combination .union (Method.defaults.map fun method =>
    .combination .intersection [.criterion (.plain method.name "*")] false (method.name ++ ":*"))
    false "fqn:* source:* exposure:*"

/-- Without arguments the spec that stands in for a selection is read. -/
theorem SelectionArguments.parse_nothing : parse ⟨[], [], false⟩ = .ok .default := rfl

namespace Method

/-- An asterisk is a single dotted part. -/
theorem dotted_asterisk : Text.dotted "*" = [("*" : Text)] := by
  decide

/-- An asterisk selects a qualified name by its last segment, or by its first dotted part. -/
theorem qualifiedNameMatches_asterisk {name : List Text} :
    qualifiedNameMatches name "*" = true ↔ name.getLast? = some ("*" : Text) ∨
      ∃ first rest, name.flatMap Text.dotted = first :: rest ∧ Text.OnOneLine first.units := by
  rw [qualifiedNameMatches, Bool.or_eq_true, beq_iff_eq, dotted_asterisk, segmentsMatch]
  refine or_congr Iff.rfl ?_
  cases name.flatMap Text.dotted with
  | nil => simp
  | cons first rest => simp [Text.wildcardMatches_asterisk]

/-- An asterisk selects a source whose names all stand on one line. -/
theorem sourceMatches_asterisk {package sourceName table : Text} :
    sourceMatches package sourceName table "*" = true ↔ Text.OnOneLine package.units ∧
      Text.OnOneLine sourceName.units ∧ Text.OnOneLine table.units := by
  simp only [sourceMatches, dotted_asterisk, sourcePatterns?, Bool.and_eq_true,
    Text.wildcardMatches_asterisk, and_assoc]

/-- An asterisk selects an exposure whose name stands on one line. -/
theorem exposureMatches_asterisk {package name : Text} :
    exposureMatches package name "*" = true ↔ Text.OnOneLine name.units := by
  simp only [exposureMatches, dotted_asterisk, Text.wildcardMatches_asterisk]

/-- A member is plainly named exactly if a method that stands in for a selection selects it by an
asterisk. -/
theorem exists_selects_asterisk {x : Member} :
    (∃ method ∈ defaults, method.selects "*" x = true) ↔ x.PlainlyNamed := by
  simp only [defaults, List.mem_cons, List.not_mem_nil, or_false, exists_eq_or_imp,
    exists_eq_left, selects, Bool.and_eq_true, qualifiedNameMatches_asterisk,
    Member.PlainlyNamed, Member.isNode]
  cases x.role with
  | node kind empty => simp
  | source sourceName => simp [sourceMatches_asterisk]
  | exposure => simp [exposureMatches_asterisk]

end Method

namespace Selector

variable {s : Selector} {method : Method} {x : Member}

/-- An asterisk collects the members that its method selects. -/
theorem mem_collected_asterisk (hs : s.registry = .standard) (hx : x ∈ s.manifest.members) :
    x.id ∈ s.collected (.plain method.name "*") ↔
      x.id ∈ s.memberGraph.nodes ∧ method.selects "*" x = true := by
  have hfind : s.registry.find method.name = .ok method := by
    rw [hs]
    cases method <;> rfl
  have hvalue : method.valueError? "*" = none := by
    cases method <;> rfl
  have hmember : s.manifest.find? x.id = some x := Manifest.find?_eq_some_iff.2 ⟨hx, rfl⟩
  have hmatching : s.matching s.memberGraph.nodes (.plain method.name "*") =
      .ok (s.memberGraph.nodes.filter fun id =>
        (s.manifest.find? id).any (method.selects ("*" : String))) := by
    rw [matching, Criterion.plain, hfind, Except.ok_bind, Method.search, hvalue]
  have hsurroundings : ∀ ids, ¬ x.id ∈ s.surroundings (.plain method.name "*") ids := by
    intro ids
    simp [surroundings, Criterion.plain, OrderedSet.mem_union, OrderedSet.not_mem_empty]
  simp only [collected, hmatching, OrderedSet.mem_union, OrderedSet.mem_filter, hmember,
    Option.any_some, hsurroundings, or_false]

/-- What an asterisk collects is selected when nothing is asked for. -/
theorem mem_direct_default {id : Text} (hmethod : method ∈ Method.defaults)
    (h : id ∈ s.collected (.plain method.name "*")) : id ∈ (s.bundle .default).direct := by
  rw [Spec.default, direct_combination]
  refine mem_promoteAll_of_mem (SetOperation.mem_combine_union.2 ?_)
  refine ⟨_, List.mem_map_of_mem (List.mem_map_of_mem hmethod), ?_⟩
  rw [direct_combination]
  refine mem_promoteAll_of_mem (SetOperation.mem_combine_intersection.2 ⟨by simp, ?_⟩)
  simp only [List.map_cons, List.map_nil, List.mem_singleton, forall_eq]
  exact mem_direct_expansion.2 (.inl h)

/-- What is selected when nothing is asked for is collected by an asterisk, unless it is a test. -/
theorem exists_collected_of_mem_default (hx : x ∈ s.manifest.members) (htest : x.isTest = false)
    (h : x.id ∈ (s.bundle .default).direct) :
    ∃ method ∈ Method.defaults, x.id ∈ s.collected (.plain method.name "*") := by
  obtain ⟨word, hword, hmem⟩ :=
    exists_component_of_mem_everything (Bundle.mem_everything_of_mem_direct h)
  obtain ⟨method, hmethod, rfl⟩ := List.mem_map.1 hword
  obtain ⟨_, hcriterion, hmem⟩ := exists_component_of_mem_everything hmem
  obtain rfl := List.mem_singleton.1 hcriterion
  rcases mem_everything_expansion.1 hmem with hmem | ⟨t, ht, hid⟩
  · exact ⟨method, hmethod, hmem⟩
  · obtain ⟨htmem, hittest, -⟩ := mem_neighbouringTests.1 ht
    rw [Manifest.eq_of_id_eq htmem hx hid, htest] at hittest
    contradiction

end Selector

variable {m : Manifest} {g : Graph}

/-- When nothing is asked for, the listing holds selectable members, each once and in the order of
identifiers: all that are plainly named, and besides them at most tests. So it is the listing of all
selectable members if they are all plainly named. -/
theorem default_listing (hg : m.graph = .ok g) :
    ∃ listed, listing m ⟨⟨[], [], false⟩, []⟩ = .ok listed ∧
      listed.value.Nodup ∧
      (listed.value.map Member.id).Pairwise (fun a b => Text.unitLE a b = true) ∧
      (∀ x ∈ listed.value, x ∈ m.members ∧ x.isSelectable = true) ∧
      (∀ x ∈ m.members, x.isSelectable = true → x.PlainlyNamed → x ∈ listed.value) ∧
      (∀ x ∈ listed.value, x.isTest = false → x.PlainlyNamed) ∧
      ((∀ x ∈ m.members, x.isSelectable = true → x.PlainlyNamed) →
        m.IsListing (fun x => x.isSelectable = true) listed.value) := by
  let s := Selector.ofManifest m g .standard .all Selector.standardGreedyOption
  have hfilter : SelectionRequest.filter ⟨⟨[], [], false⟩, []⟩ = .ok .all := rfl
  obtain ⟨listed, _, hlisted, -, hlisting⟩ :=
    listing_spec hg hfilter SelectionArguments.parse_nothing (s := s) rfl
  have hmem : ∀ x, x ∈ listed ↔ x ∈ m.members ∧ x.id ∈ (s.bundle .default).direct := fun x =>
    (hlisted.mem_iff x).trans (and_congr_right fun _ => and_iff_left rfl)
  have hselectable : ∀ x ∈ m.members, (x.id ∈ s.memberGraph.nodes ↔ x.isSelectable = true) := by
    intro x hx
    rw [Selector.mem_nodes_ofManifest hg]
    refine ⟨?_, fun h => ⟨x, hx, rfl, h⟩⟩
    rintro ⟨y, hy, hid, h⟩
    exact Manifest.eq_of_id_eq hy hx hid ▸ h
  have honly : ∀ x ∈ listed, x ∈ m.members ∧ x.isSelectable = true := by
    intro x hx
    obtain ⟨hx, hdirect⟩ := (hmem x).1 hx
    have hnode := Selector.mem_nodes_of_mem_everything (Bundle.mem_everything_of_mem_direct hdirect)
    exact ⟨hx, (hselectable x hx).1 hnode⟩
  have hall : ∀ x ∈ m.members, x.isSelectable = true → x.PlainlyNamed → x ∈ listed := by
    intro x hx h hplain
    obtain ⟨method, hmethod, hselects⟩ := Method.exists_selects_asterisk.2 hplain
    have hcollected := (Selector.mem_collected_asterisk (s := s) rfl hx).2
      ⟨(hselectable x hx).2 h, hselects⟩
    exact (hmem x).2 ⟨hx, Selector.mem_direct_default hmethod hcollected⟩
  refine ⟨_, hlisting, hlisted.nodup, hlisted.ascending, honly, hall, fun x hx htest => ?_,
    fun hplain => ⟨hlisted.nodup, hlisted.ascending, fun x => ?_⟩⟩
  · obtain ⟨hx, hdirect⟩ := (hmem x).1 hx
    obtain ⟨method, hmethod, hcollected⟩ :=
      Selector.exists_collected_of_mem_default (s := s) hx htest hdirect
    exact Method.exists_selects_asterisk.1
      ⟨method, hmethod, ((Selector.mem_collected_asterisk (s := s) rfl hx).1 hcollected).2⟩
  · exact ⟨honly x, fun h => hall x h.1 h.2 (hplain x h.1 h.2)⟩

/-- In the sample, all members are plainly named, so all of them are listed when nothing is asked
for. -/
theorem default_listing_sample : ∃ listed,
    listing Sample.manifest ⟨⟨[], [], false⟩, []⟩ = .ok listed ∧
    Sample.manifest.IsListing (fun x => x.isSelectable = true) listed.value := by
  have hplain : ∀ x ∈ Sample.manifest.members,
      ∃ method ∈ Method.defaults, method.selects "*" x = true := by
    decide +kernel
  obtain ⟨listed, hlisting, -, -, -, -, -, hlisted⟩ := default_listing Sample.graph_eq
  exact ⟨listed, hlisting, hlisted fun x hx _ => Method.exists_selects_asterisk.1 (hplain x hx)⟩

/-- The fields of a document with a node that has no qualified name and a source and an exposure
with a line break in their names. -/
def Sample.unnamed : List (Text × Json) :=
  [("nodes", .object [("model.shop.orders", .object [("name", .string "orders"),
      ("resourceType", .string "model"), ("fqn", .array [])])]),
    ("sources", .object [("source.shop.raw", .object [("name", .string "ra\nw"),
      ("sourceName", .string "shop")])]),
    ("exposures", .object [("exposure.shop.board", .object [("name", .string "bo\nard")])])]

/-- Nothing of this document is listed when nothing is asked for, although all its members are
selectable. -/
theorem default_listing_incomplete : ∃ m g listed,
    Manifest.ofDocument (some (.object Sample.unnamed)) = .ok m ∧ m.graph = .ok g ∧
    listing m ⟨⟨[], [], false⟩, []⟩ = .ok listed ∧
    m.members.map Member.id = ["model.shop.orders", "source.shop.raw", "exposure.shop.board"] ∧
    (∀ x ∈ m.members, x.isSelectable = true) ∧ listed.value = [] := by
  obtain ⟨m, hm⟩ := Except.exists_eq_ok
    (x := Manifest.ofDocument (some (.object Sample.unnamed))) (by decide +kernel)
  have hcheck : (Manifest.ofDocument (some (.object Sample.unnamed))).toOption.all (fun m =>
      m.graph.isOk && (listing m ⟨⟨[], [], false⟩, []⟩).isOk &&
      (m.members.map Member.id =
        ["model.shop.orders", "source.shop.raw", "exposure.shop.board"] : Bool) &&
      m.members.all Member.isSelectable &&
      (listing m ⟨⟨[], [], false⟩, []⟩).toOption.all fun listed =>
        listed.value.isEmpty) = true := by
    decide +kernel
  rw [hm] at hcheck
  simp only [Except.toOption, Option.all_some, Bool.and_eq_true, decide_eq_true_eq,
    List.all_eq_true] at hcheck
  obtain ⟨⟨⟨⟨hgraph, hlisting⟩, hids⟩, hselectable⟩, hempty⟩ := hcheck
  obtain ⟨g, hg⟩ := Except.exists_eq_ok hgraph
  obtain ⟨listed, hlisted⟩ := Except.exists_eq_ok hlisting
  rw [hlisted] at hempty
  exact ⟨m, g, listed, hm, hg, hlisted, hids, hselectable, List.isEmpty_iff.1 hempty⟩

end DagSelect
