import DagSelect.Proofs.Dictionary
import DagSelect.Spec.Parser
import DagSelect.Text.Symbol
import Mathlib.Data.List.Induction
import Mathlib.Data.List.TakeWhile

/-!
# A method and its arguments

The text of a method is cut at its dots: the first part is the method itself, and every further one
an argument. An argument is cut at its equals signs: its key is what stands before the first, its
value what stands between the first and the second. The arguments make a dictionary in which the
last value of a key counts and the key that holds nothing is missing.
-/

namespace DagSelect

namespace Criterion

/-- The key of a written argument: what stands before its first equals sign. -/
def argumentKey (written : List Char) : List Char :=
  written.takeWhile (· ≠ '=')

/-- The value of a written argument: what stands between its first two equals signs, and `true`
where it has none. -/
def argumentValue (written : List Char) : List Char :=
  match written.dropWhile (· ≠ '=') with
  | [] => "true".toList
  | _ :: rest => rest.takeWhile (· ≠ '=')

/-- The value that the last one of the written arguments with a key gives it. -/
def lastValue? (written : List (List Char)) (key : List Char) : Option (List Char) :=
  (written.reverse.find? fun argument => argumentKey argument = key).map argumentValue

/-- A dictionary of written arguments: every key has the value that the last one with it gives, but
the key that holds nothing has none. -/
structure Collects (arguments : List (String × String)) (written : List (List Char)) : Prop where
  nodup : (arguments.map Prod.fst).Nodup
  find?_eq : ∀ key, (Dictionary.find? key arguments).map String.toList =
    if key = "__proto__" then none else lastValue? written key.toList

/-- The method in the text of a method with its arguments: what stands before the first dot. -/
def methodName (chars : List Char) : List Char :=
  chars.takeWhile (· ≠ '.')

/-- The arguments in the text of a method: its parts between dots without the first. -/
def methodArguments (chars : List Char) : List (List Char) :=
  (chars.splitOn '.').tail

section Pieces

variable {sep : Char} {s : List Char}

/-- Without a separator there is a single piece. -/
theorem splitOn_of_dropWhile_eq_nil (h : s.dropWhile (· ≠ sep) = []) :
    s.splitOn sep = [s.takeWhile (· ≠ sep)] := by
  have hself : s.takeWhile (· ≠ sep) = s := by
    conv_rhs =>
      rw [← List.takeWhile_append_dropWhile (p := (· ≠ sep)) (l := s), h, List.append_nil]
  have hmem : sep ∉ s := by
    intro hsep
    rw [← hself] at hsep
    simpa using List.mem_takeWhile_imp hsep
  rw [hself, List.splitOn_eq_singleton hmem]

/-- The pieces are what stands before the first separator and the pieces of what follows it. -/
theorem splitOn_of_dropWhile_eq_cons {c : Char} {rest : List Char}
    (h : s.dropWhile (· ≠ sep) = c :: rest) :
    s.splitOn sep = s.takeWhile (· ≠ sep) :: rest.splitOn sep := by
  obtain rfl : c = sep := by
    have hhead := List.head?_dropWhile_not (· ≠ sep) s
    rw [h] at hhead
    simpa using hhead
  have hmem : c ∉ s.takeWhile (· ≠ c) := by
    intro hmem
    simpa using List.mem_takeWhile_imp hmem
  have hs : s = s.takeWhile (· ≠ c) ++ c :: rest := by
    rw [← h, List.takeWhile_append_dropWhile]
  conv_lhs => rw [hs]
  exact List.splitOn_append_cons_self_of_not_mem hmem rest

/-- The first piece is what stands before the first separator. -/
theorem exists_splitOn_eq_cons (sep : Char) (s : List Char) :
    ∃ rest, s.splitOn sep = s.takeWhile (· ≠ sep) :: rest := by
  cases h : s.dropWhile (· ≠ sep) with
  | nil => exact ⟨[], splitOn_of_dropWhile_eq_nil h⟩
  | cons c rest => exact ⟨rest.splitOn sep, splitOn_of_dropWhile_eq_cons h⟩

end Pieces

/-- A written argument is read as its key and its value, unless the key is empty. -/
theorem readArgument_ofList (written : List Char) :
    readArgument (String.ofList written) =
      if argumentKey written = [] then none
      else some (String.ofList (argumentKey written), String.ofList (argumentValue written)) := by
  have hpieces : Text.pieces '=' (String.ofList written) =
      (written.splitOn '=').map String.ofList := by
    rw [Text.pieces, String.toList_ofList]
  have hempty (l : List Char) : (String.ofList l).isEmpty = true ↔ l = [] := by
    simp
  rw [readArgument, hpieces]
  cases h : written.dropWhile (· ≠ '=') with
  | nil =>
    rw [splitOn_of_dropWhile_eq_nil h]
    simp only [List.map_cons, List.map_nil, hempty, argumentKey, argumentValue, h]
    rfl
  | cons c rest =>
    obtain ⟨more, hmore⟩ := exists_splitOn_eq_cons '=' rest
    rw [splitOn_of_dropWhile_eq_cons h, hmore]
    simp only [List.map_cons, hempty, argumentKey, argumentValue, h]

/-- Written arguments are read one by one, unless a key is empty. -/
theorem mapM_readArgument (written : List (List Char)) :
    (written.map String.ofList).mapM readArgument =
      if ∀ argument ∈ written, argumentKey argument ≠ [] then
        some (written.map fun argument =>
          (String.ofList (argumentKey argument), String.ofList (argumentValue argument)))
      else none := by
  induction written with
  | nil => rfl
  | cons argument rest ih =>
    rw [List.map_cons, List.mapM_cons, ih, readArgument_ofList]
    by_cases hkey : argumentKey argument = []
    · simp [hkey]
    · rw [if_neg hkey]
      by_cases hrest : ∀ argument ∈ rest, argumentKey argument ≠ []
      · have hall : ∀ written ∈ argument :: rest, argumentKey written ≠ [] :=
          List.forall_mem_cons.2 ⟨hkey, hrest⟩
        rw [if_pos hrest, if_pos hall]
        rfl
      · rw [if_neg hrest, if_neg fun hall => hrest (List.forall_mem_cons.1 hall).2]
        rfl

/-- Arguments without an empty key are read as a dictionary of them. -/
theorem readArguments_eq_some {written : List (List Char)}
    (h : ∀ argument ∈ written, argumentKey argument ≠ []) :
    ∃ arguments, readArguments (written.map String.ofList) = some arguments ∧
      Collects arguments written := by
  rw [readArguments, mapM_readArgument, if_pos h]
  refine ⟨_, rfl, Dictionary.assignAll_keys_nodup (by simp) _, fun key => ?_⟩
  -- What is found under the key is written with it, and the key is not the one left out.
  have hfound (argument : List Char) :
      (Text.ofString (String.ofList (argumentKey argument)) ≠ Text.voidKey ∧
        String.ofList (argumentKey argument) = key) ↔
      key ≠ "__proto__" ∧ argumentKey argument = key.toList := by
    rw [← String.toList_inj, String.toList_ofList, Text.voidKey, ne_eq, Text.ofString_inj]
    constructor
    · rintro ⟨hvoid, hkey⟩
      rw [hkey, String.ofList_toList] at hvoid
      exact ⟨hvoid, hkey⟩
    · rintro ⟨hvoid, hkey⟩
      rw [hkey, String.ofList_toList]
      exact ⟨hvoid, rfl⟩
  rw [Dictionary.find?_assignAll, ← List.filter_reverse, List.find?_filter, ← List.map_reverse,
    List.find?_map, lastValue?]
  simp only [Function.comp_def, decide_eq_true_eq, hfound]
  by_cases hkey : key = "__proto__"
  · simp [hkey]
  · simp [hkey, Function.comp_def]

/-- A written method is its name with what its arguments are read as. -/
theorem readMethod_some (chars : List Char) : readMethod (some chars) =
    match readArguments ((methodArguments chars).map String.ofList) with
    | some arguments => .ok (String.ofList (methodName chars), arguments)
    | none => .error (.badArguments (String.ofList chars) (String.ofList (methodName chars))) := by
  obtain ⟨rest, hrest⟩ := exists_splitOn_eq_cons '.' chars
  have hpieces : Text.pieces '.' (String.ofList chars) =
      String.ofList (methodName chars) :: rest.map String.ofList := by
    rw [Text.pieces, String.toList_ofList, hrest, List.map_cons, methodName]
  rw [readMethod, hpieces, methodArguments, hrest]
  rfl

/-- A method is read if none of its arguments has an empty key. -/
theorem readMethod_some_eq_ok {chars : List Char}
    (h : ∀ argument ∈ methodArguments chars, argumentKey argument ≠ []) :
    ∃ arguments, readMethod (some chars) = .ok (String.ofList (methodName chars), arguments) ∧
      Collects arguments (methodArguments chars) := by
  obtain ⟨arguments, hread, hspec⟩ := readArguments_eq_some h
  refine ⟨arguments, ?_, hspec⟩
  rw [readMethod_some, hread]

/-- A method is refused if one of its arguments has an empty key. -/
theorem readMethod_some_eq_error {chars : List Char}
    (h : ∃ argument ∈ methodArguments chars, argumentKey argument = []) :
    readMethod (some chars) =
      .error (.badArguments (String.ofList chars) (String.ofList (methodName chars))) := by
  have hread : readArguments ((methodArguments chars).map String.ofList) = none := by
    rw [readArguments, mapM_readArgument, if_neg (by simpa using h)]
    rfl
  rw [readMethod_some, hread]

end Criterion

end DagSelect
