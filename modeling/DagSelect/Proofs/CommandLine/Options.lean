import DagSelect.CommandLine.Run
import Mathlib.Data.List.Basic

/-!
# Options as they can be written

An option with a value can be written in one argument, its long name and its value with an equals
sign between them. Such arguments are read as they are meant, whatever the values are, and they are
left over by a scan for other options.
-/

namespace DagSelect.CommandLine

variable {known : List Flag} {flag : Flag} {value : String} {options : List (Flag × String)}

/-- An option in one argument: its long name, with its value behind an equals sign if it has one. -/
def optionText (option : Flag × String) : String :=
  if option.1.takesValue then option.1.long ++ "=" ++ option.2 else option.1.long

/-- A long name starts with two hyphens and has no equals sign. -/
theorem Flag.long_spec (f : Flag) : ∃ c s, f.long.toList = '-' :: '-' :: c :: s ∧
    '=' ∉ f.long.toList := by
  cases f <;> exact ⟨_, _, rfl, by decide⟩

/-- Options have different long names. -/
theorem Flag.long_injective : Function.Injective Flag.long := by
  intro f g
  cases f <;> cases g <;> decide

/-- The characters of an option with its value. -/
theorem toList_assigned (f : Flag) (value : String) :
    (f.long ++ "=" ++ value).toList = f.long.toList ++ '=' :: value.toList := by
  simp

/-- No option is named by an argument with an equals sign behind a long name. -/
theorem isNamed_assigned (f flag : Flag) (value : String) :
    f.isNamed (flag.long ++ "=" ++ value) = false := by
  obtain ⟨c, s, hs, -⟩ := flag.long_spec
  obtain ⟨-, -, -, hno⟩ := f.long_spec
  have hlong : flag.long ++ "=" ++ value ≠ f.long := by
    intro h
    have hmem : '=' ∈ f.long.toList := by
      rw [← h, toList_assigned]
      simp
    exact hno hmem
  have hletter : ∀ c, (flag.long ++ "=" ++ value).toList ≠ ['-', c] := by
    intro c h
    rw [toList_assigned, hs] at h
    simp at h
  rw [Flag.isNamed, decide_eq_false hlong]
  cases f.letter? with
  | none => rfl
  | some c => exact decide_eq_false (hletter c)

/-- An option with a value is found by its long name, if it is known. -/
theorem find?_long (hvalue : flag.takesValue = true) :
    known.find? (fun f => f.takesValue && f.long.toList = flag.long.toList) =
      if flag ∈ known then some flag else none := by
  have hname : ∀ f : Flag, (f.takesValue && decide (f.long.toList = flag.long.toList)) =
      decide (f = flag) := by
    intro f
    by_cases hf : f = flag
    · simp [hf, hvalue]
    · have hlong : f.long.toList ≠ flag.long.toList := fun h =>
        hf (Flag.long_injective (String.toList_injective h))
      simp [hf, hlong]
  simp only [hname]
  split
  · rename_i hknown
    cases h : known.find? (fun f => decide (f = flag)) with
    | none => exact absurd (decide_eq_true rfl) (List.find?_eq_none.1 h flag hknown)
    | some f =>
      have hf := List.find?_some h
      exact congrArg some (of_decide_eq_true hf)
  · rename_i hknown
    rw [List.find?_eq_none]
    intro f hf h
    exact hknown (of_decide_eq_true h ▸ hf)

/-- What stands behind the equals sign is the value, if the option in front of it is known. -/
theorem readAssigned_assigned (hvalue : flag.takesValue = true) (value : String) :
    readAssigned known (flag.long ++ "=" ++ value) =
      if flag ∈ known then .valued flag value else .other := by
  obtain ⟨c, s, hs, hequals⟩ := flag.long_spec
  have hno : ∀ d ∈ flag.long.toList, decide (d ≠ '=') = true := by
    intro d hd
    exact decide_eq_true fun h => hequals (h ▸ hd)
  have htake : (flag.long.toList ++ '=' :: value.toList).takeWhile (fun c => c ≠ '=') =
      flag.long.toList := by
    rw [List.takeWhile_append_of_pos hno]
    simp
  have hdrop : (flag.long.toList ++ '=' :: value.toList).dropWhile (fun c => c ≠ '=') =
      '=' :: value.toList := by
    rw [List.dropWhile_append_of_pos hno]
    simp
  have hlength : ¬ flag.long.toList.length < 3 := by
    rw [hs]
    simp
  rw [readAssigned, toList_assigned]
  simp only [htake, hdrop, if_neg hlength, find?_long hvalue]
  by_cases hknown : flag ∈ known
  · simp [hknown]
  · simp [hknown]

/-- An argument with an equals sign behind a long name is read as the option with this name, if it
is known. -/
theorem readArgument_assigned (hvalue : flag.takesValue = true) (value : String) :
    readArgument known (flag.long ++ "=" ++ value) =
      if flag ∈ known then .valued flag value else .other := by
  have hnamed : known.find? (fun f => f.isNamed (flag.long ++ "=" ++ value)) = none := by
    simp [isNamed_assigned]
  have hattached : readAttached known (flag.long ++ "=" ++ value) = .other := by
    obtain ⟨c, s, hs, -⟩ := flag.long_spec
    rw [readAttached, toList_assigned, hs]
    rfl
  rw [readArgument, hnamed, hattached]
  exact readAssigned_assigned hvalue value

/-- A written option starts with two hyphens and a further character. -/
theorem exists_optionText_eq (option : Flag × String) :
    ∃ c s, (optionText option).toList = '-' :: '-' :: c :: s := by
  obtain ⟨c, s, hs, -⟩ := option.1.long_spec
  rw [optionText]
  split
  · exact ⟨c, _, by rw [toList_assigned, hs]; rfl⟩
  · exact ⟨c, s, hs⟩

/-- A written option looks like one, and is not the double hyphen. -/
theorem looksLikeOption_optionText (option : Flag × String) :
    looksLikeOption (optionText option) = true ∧ optionText option ≠ "--" := by
  obtain ⟨c, s, hs⟩ := exists_optionText_eq option
  refine ⟨by rw [looksLikeOption, hs]; rfl, fun h => ?_⟩
  rw [h] at hs
  simp at hs

/-- Written options that are not known are left over. -/
theorem scan_unknown (h : ∀ option ∈ options, readArgument known (optionText option) = .other)
    (past : Bool) : scan known none past (options.map optionText) =
      .ok { Scan.empty with leftOver := options.map optionText } := by
  induction options generalizing past with
  | nil => rfl
  | cons option options ih =>
    obtain ⟨hoption, hoptions⟩ := List.forall_mem_cons.1 h
    obtain ⟨hlooks, hne⟩ := looksLikeOption_optionText option
    rw [List.map_cons, scan, if_neg hne, hlooks, if_pos rfl, hoption]
    simp only [Bool.or_true, ih hoptions]
    rfl

/-- Whether a written option is read as it is meant: with its value, or alone if it has none. -/
def IsRead (known : List Flag) (option : Flag × String) : Prop :=
  readArgument known (optionText option) = .valued option.1 option.2 ∨
    readArgument known (optionText option) = .alone option.1 ∧ option.2 = "" ∧ option.1 ≠ .version

/-- A known option with a value is read as it is meant. -/
theorem isRead_of_takesValue (hknown : flag ∈ known) (hvalue : flag.takesValue = true) :
    IsRead known (flag, value) := by
  refine .inl ?_
  rw [optionText, if_pos hvalue, readArgument_assigned hvalue, if_pos hknown]

/-- Written options that are read as they are meant are what a scan finds. -/
theorem scan_options (h : ∀ option ∈ options, IsRead known option) :
    scan known none false (options.map optionText) = .ok ⟨options, [], []⟩ := by
  induction options with
  | nil => rfl
  | cons option options ih =>
    obtain ⟨hoption, hoptions⟩ := List.forall_mem_cons.1 h
    obtain ⟨hlooks, hne⟩ := looksLikeOption_optionText option
    obtain ⟨flag, value⟩ := option
    rw [List.map_cons, scan, if_neg hne, hlooks, if_pos rfl]
    rcases hoption with hread | ⟨hread, rfl, hversion⟩
    · rw [hread]
      simp only [ih hoptions]
      rfl
    · rw [hread]
      simp only [if_neg hversion, ih hoptions]
      rfl

end DagSelect.CommandLine
