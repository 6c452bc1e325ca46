import DagSelect.Proofs.CommandLine.Options
import DagSelect.Proofs.Except

/-!
# Invocations of a command

What arguments ask for is a command, the path of a manifest file, the written output format and a
request. A run does what its arguments ask for: it carries the command out unless there is no such
format. Every request can be asked for, of either command. Only a listing can be given a format,
since the other command does not know that option.
-/

namespace DagSelect.CommandLine

/-- The option that an argument is read as. -/
def Reading.flag? : Reading → Option Flag
  | alone flag => some flag
  | awaiting flag => some flag
  | valued flag _ => some flag
  | other => none

variable {known : List Flag} {flag : Flag} {arg : String} {args : List String}

/-- An argument with something attached to a letter is read as an option that is known. -/
theorem mem_known_of_readAttached (h : (readAttached known arg).flag? = some flag) :
    flag ∈ known := by
  rw [readAttached] at h
  grind [Reading.flag?]

/-- An argument with an equals sign is read as an option that is known. -/
theorem mem_known_of_readAssigned (h : (readAssigned known arg).flag? = some flag) :
    flag ∈ known := by
  rw [readAssigned] at h
  grind [Reading.flag?]

/-- An argument is read as an option that is known. -/
theorem mem_known_of_readArgument (h : (readArgument known arg).flag? = some flag) :
    flag ∈ known := by
  rw [readArgument] at h
  split at h
  · rename_i f hf
    have hflag : f = flag := by
      split at h <;> exact Option.some.inj h
    exact hflag ▸ List.mem_of_find?_eq_some hf
  · split at h
    · exact mem_known_of_readAssigned h
    · exact mem_known_of_readAttached h

/-- A scan finds values of options that are known, if the one that is still open is. -/
theorem mem_known_of_scan {open? : Option Flag} {past : Bool} {s : Scan}
    (h : scan known open? past args = .ok s) (hopen : ∀ flag, open? = some flag → flag ∈ known) :
    ∀ v ∈ s.values, v.1 ∈ known := by
  fun_induction scan known open? past args generalizing s
  case case1 =>
    obtain rfl := Except.ok.inj h
    simp [Scan.empty]
  case case2 =>
    obtain rfl := Except.ok.inj h
    split <;> simp [Scan.empty]
  case case3 inOpen flag hflag ih =>
    obtain ⟨s, hs, rfl⟩ := Except.map_eq_ok_iff.1 h
    have hknown : flag ∈ known := by
      refine hopen flag ?_
      grind
    exact List.forall_mem_cons.2 ⟨hknown, ih hs fun _ heq => Option.some.inj heq ▸ hknown⟩
  case case4 | case7 => contradiction
  case case5 hread _ ih | case6 hread ih =>
    obtain ⟨s, hs, rfl⟩ := Except.map_eq_ok_iff.1 h
    have hknown := mem_known_of_readArgument (congrArg Reading.flag? hread)
    exact List.forall_mem_cons.2 ⟨hknown, ih hs (by simp)⟩
  case case8 flag hread value args next ih =>
    obtain ⟨s, hs, rfl⟩ := Except.map_eq_ok_iff.1 h
    have hknown : flag ∈ known := mem_known_of_readArgument (congrArg Reading.flag? hread)
    refine List.forall_mem_cons.2 ⟨hknown, ih hs fun other hother => ?_⟩
    have heq : flag = other := by grind
    exact heq ▸ hknown
  case case9 ih =>
    obtain ⟨s, hs, rfl⟩ := Except.map_eq_ok_iff.1 h
    have hvalues : ∀ past arg, (s.withOther past arg).values = s.values := by
      rintro (_ | _) _ <;> rfl
    exact hvalues _ _ ▸ ih hs (by simp)

/-- What a command is invoked with. -/
structure Invocation where
  command : Command
  path : String
  format : String
  request : SelectionRequest

namespace Invocation

variable {inv : Invocation}

/-- Whether arguments ask for an invocation: the command's name is the first operand, and its
options are scanned with nothing left over. -/
def IsAskedBy (inv : Invocation) (args : List String) : Prop :=
  ∃ top s, scan [.version] none false args = .ok top ∧
    top.operands.head? = some inv.command.name ∧
    scan inv.command.flags none false top.leftOver = .ok s ∧ s.leftOver = [] ∧
    s.last? .manifest = some inv.path ∧
    (s.last? .output).getD ListingFormat.text.name = inv.format ∧
    selectionRequest s = inv.request

/-- A plan is not given a format, so it is invoked with the one that is meant if nothing is said. -/
theorem IsAskedBy.format_of_queue (h : inv.IsAskedBy args) (hqueue : inv.command = .queue) :
    inv.format = ListingFormat.text.name := by
  obtain ⟨top, s, -, -, hs, -, -, hformat, -⟩ := h
  rw [hqueue] at hs
  have hknown := mem_known_of_scan hs (by simp)
  have hnone : s.values.filter (fun v => v.1 = .output) = [] := by
    refine List.filter_eq_nil_iff.2 fun v hv => ?_
    have hflag := hknown v hv
    rintro houtput
    rw [of_decide_eq_true houtput] at hflag
    exact absurd hflag (by decide)
  rw [← hformat, Scan.last?, hnone]
  rfl

/-- A run carries out what is asked for, if there is the format. -/
theorem IsAskedBy.run_eq (h : inv.IsAskedBy args) (around : Surroundings) :
    run around args =
      match ListingFormat.ofName? inv.format with
      | none => ⟨[⟨.message .error, s!"알 수 없는 형식: {inv.format}"⟩], some 1⟩
      | some format => carryOut around inv.command format inv.path inv.request := by
  obtain ⟨top, s, htop, hname, hs, hleft, hpath, hformat, hrequest⟩ := h
  obtain ⟨operands, hoperands⟩ := List.head?_eq_some_iff.1 hname
  have hcommand : Command.ofName? inv.command.name = some inv.command := by
    cases inv.command <;> rfl
  have hhelp : asksForHelp [] = false := rfl
  rw [run, htop]
  simp only [hoperands, hcommand, runCommand, hs, runScanned, hleft, hhelp, hpath, hformat,
    hrequest]
  rfl

/-- The options of an invocation, with the lists of texts repeated text by text. -/
def options (inv : Invocation) : List (Flag × String) :=
  (.manifest, inv.path) :: (inv.request.arguments.select.map (Prod.mk .select) ++
    inv.request.arguments.exclude.map (Prod.mk .exclude) ++
    inv.request.resourceTypes.map (Prod.mk .resourceType) ++
    (if inv.request.arguments.greedy then [(.greedy, "")] else []) ++
    match inv.command with
    | .ls => [(.output, inv.format)]
    | .queue => [])

/-- Arguments for an invocation. -/
def arguments (inv : Invocation) : List String :=
  inv.command.name :: inv.options.map optionText

/-- The options of an invocation are options of the command, each of them with a value or the one
that has none. -/
theorem options_cases {option : Flag × String} (h : option ∈ inv.options) :
    option = (.greedy, "") ∨ option.1 ∈ inv.command.flags ∧ option.1.takesValue = true := by
  have hvalued : ∀ {flag : Flag} (texts : List String), flag ∈ inv.command.flags →
      flag.takesValue = true → option ∈ texts.map (Prod.mk flag) →
      option.1 ∈ inv.command.flags ∧ option.1.takesValue = true := by
    intro flag texts hknown hvalue hmem
    obtain ⟨text, -, rfl⟩ := List.mem_map.1 hmem
    exact ⟨hknown, hvalue⟩
  have hflags : ∀ flag ∈ Command.queue.flags, flag ∈ inv.command.flags := by
    cases inv.command <;> decide
  simp only [options, List.mem_cons, List.mem_append] at h
  obtain rfl | (((h | h) | h) | h) | h := h
  · exact .inr ⟨hflags _ (List.mem_of_elem_eq_true rfl), rfl⟩
  · exact .inr (hvalued _ (hflags _ (by decide)) rfl h)
  · exact .inr (hvalued _ (hflags _ (by decide)) rfl h)
  · exact .inr (hvalued _ (hflags _ (by decide)) rfl h)
  · split at h
    · exact .inl (List.mem_singleton.1 h)
    · cases h
  · split at h
    · rename_i hls
      obtain rfl := List.mem_singleton.1 h
      exact .inr ⟨hls ▸ List.mem_of_elem_eq_true rfl, rfl⟩
    · cases h

/-- The arguments for an invocation ask for it, if a plan is invoked with the format that is meant
if nothing is said. -/
theorem isAskedBy_arguments (hqueue : inv.command = .queue → inv.format = ListingFormat.text.name) :
    inv.IsAskedBy inv.arguments := by
  have hunknown : ∀ option ∈ inv.options, readArgument [.version] (optionText option) = .other := by
    intro option hoption
    rcases options_cases hoption with rfl | ⟨hknown, hvalue⟩
    · decide
    · have hversion : option.1 ∉ [Flag.version] := by
        intro h
        rw [List.mem_singleton.1 h] at hknown
        revert hknown
        cases inv.command <;> decide
      rw [optionText, if_pos hvalue, readArgument_assigned hvalue, if_neg hversion]
  have hread : ∀ option ∈ inv.options, IsRead inv.command.flags option := by
    intro option hoption
    rcases options_cases hoption with rfl | ⟨hknown, hvalue⟩
    · refine .inr ?_
      cases inv.command <;> decide
    · exact isRead_of_takesValue hknown hvalue
  have htop : scan [.version] none false inv.arguments =
      .ok ⟨[], [inv.command.name], inv.options.map optionText⟩ := by
    have hname : readArgument [.version] inv.command.name = .other := by
      cases inv.command <;> decide
    have hplain : looksLikeOption inv.command.name = false := by
      cases inv.command <;> decide
    have hoperand : inv.command.name ≠ "--" := by
      cases inv.command <;> decide
    rw [arguments, scan, if_neg hoperand, hplain]
    simp only [hname, scan_unknown hunknown, Bool.or_false, Bool.false_eq_true, if_false]
    rfl
  refine ⟨_, _, htop, rfl, scan_options hread, rfl, ?_, ?_, ?_⟩
  · rcases inv with ⟨_ | _, path, format, ⟨⟨select, exclude, _ | _⟩, resourceTypes⟩⟩ <;>
      simp [Scan.last?, options, List.filter_map, Function.comp_def]
  · rcases inv with ⟨_ | _, path, format, ⟨⟨select, exclude, _ | _⟩, resourceTypes⟩⟩
    all_goals simp [Scan.last?, options, List.filter_map, Function.comp_def] at hqueue ⊢
    all_goals exact hqueue.symm
  · rcases inv with ⟨_ | _, path, format, ⟨⟨select, exclude, _ | _⟩, resourceTypes⟩⟩ <;>
      simp [selectionRequest, Scan.all, Scan.has, options, List.filter_map, Function.comp_def]

end Invocation

end DagSelect.CommandLine
