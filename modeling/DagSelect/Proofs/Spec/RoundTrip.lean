import DagSelect.Proofs.Json.RoundTrip
import DagSelect.Proofs.Spec.Grammar

/-!
# Reading canonical criteria

A criterion is in canonical form if its parts can stand side by side without one taking characters
from another: names hold no character that separates parts, and a value without a downstream part
behind it does not end like one. The text of such a criterion divides into the parts that it was
written from, and so it is read back with nothing lost, a depth of zero and an empty value of an
argument included.
-/

namespace DagSelect.Criterion

open Json (natText)

/-- The characters of the keys and the values of arguments. -/
def isNameChar (c : Char) : Bool :=
  c.isAlphanum || c = '_' || c = '-'

/-- A depth that may be missing. What is written is below 2^53, so it is read as the same number. -/
abbrev WrittenDepth : Type := Option (Fin (2 ^ 53))

/-- The digits of a written depth. -/
def WrittenDepth.digits : WrittenDepth → List Char
  | none => []
  | some n => natText n

/-- The bound that a written depth stands for. -/
def WrittenDepth.bound (depth : WrittenDepth) : Option Depth :=
  depth.map fun n => Depth.ofNat n

/-- What may stand in front of a method. The mark of a family and an upstream part exclude each
other. -/
inductive Front where
  | nothing
  | family
  | upstream (depth : WrittenDepth)

namespace Front

/-- Whether the mark of a family stands in front. -/
def isFamily : Front → Bool
  | family => true
  | _ => false

/-- The depth of the upstream part, if that stands in front. -/
def upstream? : Front → Option WrittenDepth
  | upstream depth => some depth
  | _ => none

/-- The mark of a family, if it stands in front. -/
def familyPart (front : Front) : List Char :=
  if front.isFamily then ['@'] else []

/-- The upstream part, if it stands in front. -/
def upstreamPart (front : Front) : List Char :=
  match front.upstream? with
  | none => []
  | some depth => depth.digits ++ ['+']

end Front

/-- A criterion in canonical form. -/
structure Canonical where
  front : Front
  method : String
  arguments : List (String × String)
  value : String
  downstream : Option WrittenDepth
  method_ne_nil : method.toList ≠ []
  method_chars : ∀ c ∈ method.toList, isNameChar c = true ∨ c = '='
  keys_nodup : (arguments.map Prod.fst).Nodup
  keys_ne : ∀ argument ∈ arguments, argument.1.toList ≠ [] ∧ argument.1 ≠ "__proto__"
  key_chars : ∀ argument ∈ arguments, ∀ c ∈ argument.1.toList, isNameChar c = true
  value_chars : ∀ argument ∈ arguments, ∀ c ∈ argument.2.toList, isNameChar c = true
  value_ne_nil : value.toList ≠ []
  value_oneLine : ∀ c ∈ value.toList, Text.isLineBreak c = false
  value_back : downstream = none → ∀ part, IsDownstream part → ¬ part <:+ value.toList

namespace Canonical

variable (k : Canonical)

/-- An argument with its value behind an equals sign. -/
def argumentText (argument : String × String) : List Char :=
  argument.1.toList ++ '=' :: argument.2.toList

/-- The method and its arguments with dots between them. -/
def methodText : List Char :=
  ['.'].intercalate (k.method.toList :: k.arguments.map argumentText)

/-- The downstream part, if there is one. -/
def downstreamPart : List Char :=
  match k.downstream with
  | none => []
  | some depth => '+' :: depth.digits

/-- The parts that are written. -/
def division : Division where
  family := k.front.familyPart
  upstream := k.front.upstreamPart
  method := k.methodText ++ [':']
  value := k.value.toList
  downstream := k.downstreamPart

/-- The text that is written: all parts one after another. -/
def text : String :=
  String.ofList (k.front.familyPart ++ (k.front.upstreamPart ++ (k.methodText ++ ':' ::
    (k.value.toList ++ k.downstreamPart))))

/-- The criterion that is meant. -/
def criterion (greedy : Bool) : Criterion where
  method := k.method
  arguments := k.arguments
  value := k.value
  upstream := k.front.upstream?.isSome
  upstreamDepth := k.front.upstream?.bind WrittenDepth.bound
  downstream := k.downstream.isSome
  downstreamDepth := k.downstream.bind WrittenDepth.bound
  family := k.front.isFamily
  greedy := greedy
  warnIfEmpty := false
  text := k.text

end Canonical

section Characters

variable {c : Char}

/-- A character of a name stands in methods, and separates neither arguments nor keys from
values. -/
theorem isMethodChar_of_isNameChar (h : isNameChar c = true) :
    isMethodChar c = true ∧ c ≠ '.' ∧ c ≠ '=' := by
  refine ⟨?_, ?_, ?_⟩
  · simp only [isNameChar, isMethodChar, Bool.or_eq_true] at h ⊢
    tauto
  · rintro rfl
    contradiction
  · rintro rfl
    contradiction

/-- No character of a name is an equals sign. -/
theorem forall_mem_ne_equals {s : List Char} (h : ∀ c ∈ s, isNameChar c = true) :
    ∀ c ∈ s, decide (c ≠ '=') = true :=
  fun c hc => decide_eq_true (isMethodChar_of_isNameChar (h c hc)).2.2

/-- A digit is a character of methods. -/
theorem isMethodChar_of_isDigit (h : c.isDigit = true) : isMethodChar c = true := by
  simp [isMethodChar, Char.isAlphanum, h]

/-- No character of a method ends a line. -/
theorem isLineBreak_of_isMethodChar (h : isMethodChar c = true) : Text.isLineBreak c = false := by
  by_contra hbreak
  have hcode : c.toNat ∈ Text.lineBreakCodes := by simpa [Text.isLineBreak] using hbreak
  have hchar : c = Char.ofNat c.toNat := (Char.ofNat_toNat c).symm
  have hcode : c.toNat = 0x0A ∨ c.toNat = 0x0D ∨ c.toNat = 0x2028 ∨ c.toNat = 0x2029 := by
    simpa [Text.lineBreakCodes] using hcode
  rcases hcode with hcode | hcode | hcode | hcode
  all_goals
    rw [hchar, hcode] at h
    contradiction

end Characters

/-- Two runs of one kind in front of the same text end with the same character. -/
theorem stop_unique {kind : Char → Bool} {stop stop' : Char} {run other s : List Char}
    (hrun : ∀ c ∈ run, kind c = true) (hother : ∀ c ∈ other, kind c = true)
    (hstop : kind stop = false) (hstop' : kind stop' = false) (h : run ++ [stop] <+: s)
    (h' : other ++ [stop'] <+: s) : stop = stop' := by
  obtain ⟨-, rest, hrest⟩ := takeWhile_of_run hrun hstop h
  obtain ⟨-, rest', hrest'⟩ := takeWhile_of_run hother hstop' h'
  exact (List.cons.inj (hrest.symm.trans hrest')).1

/-- Pieces of one kind with a separator of this kind between them are all of this kind. -/
theorem forall_mem_intercalate {kind : Char → Prop} {sep : Char} {pieces : List (List Char)}
    (hsep : kind sep) (h : ∀ piece ∈ pieces, ∀ c ∈ piece, kind c) :
    ∀ c ∈ [sep].intercalate pieces, kind c := by
  induction pieces with
  | nil => simp
  | cons piece rest ih =>
    have hpiece := h piece List.mem_cons_self
    have hrest := ih fun other hother => h other (List.mem_cons_of_mem _ hother)
    cases rest with
    | nil => simpa using hpiece
    | cons next rest =>
      rw [List.intercalate_cons_cons]
      simpa [or_imp, forall_and, hsep] using ⟨hpiece, hrest⟩

namespace WrittenDepth

variable (depth : WrittenDepth)

/-- A depth is written with digits only. -/
theorem isDigit_of_mem_digits {c : Char} (h : c ∈ depth.digits) : c.isDigit = true := by
  cases depth with
  | none => contradiction
  | some n => exact Json.isDigit_of_mem_natText h

/-- What is written of a depth is read as this depth. -/
theorem depthOf_digits : depthOf depth.digits = depth.bound := by
  cases depth with
  | none => rfl
  | some n =>
    have hvalue : Text.decimalValue (natText n) = n := Text.decimalValue_toDigits n
    have hlt : Text.decimalValue (natText n) < 2 ^ 53 := by
      rw [hvalue]
      exact n.isLt
    rw [digits, (denotes_depthOf _).exact (Json.natText_ne_nil n) hlt, hvalue]
    rfl

end WrittenDepth

namespace Canonical

variable (k : Canonical)

/-- An argument is written with characters of methods and without a dot. -/
theorem argumentText_chars {argument : String × String} (h : argument ∈ k.arguments) :
    ∀ c ∈ argumentText argument, isMethodChar c = true ∧ c ≠ '.' := by
  intro c hc
  rcases List.mem_append.1 hc with hkey | hvalue
  · have hname := isMethodChar_of_isNameChar (k.key_chars argument h c hkey)
    exact ⟨hname.1, hname.2.1⟩
  · rcases List.mem_cons.1 hvalue with rfl | hvalue
    · decide
    · have hname := isMethodChar_of_isNameChar (k.value_chars argument h c hvalue)
      exact ⟨hname.1, hname.2.1⟩

/-- The name of the method consists of characters of methods and has no dot. -/
theorem method_isMethodChar : ∀ c ∈ k.method.toList, isMethodChar c = true ∧ c ≠ '.' := by
  intro c hc
  rcases k.method_chars c hc with hname | rfl
  · have hname := isMethodChar_of_isNameChar hname
    exact ⟨hname.1, hname.2.1⟩
  · decide

/-- What stands between the dots is written with characters of methods and without a dot. -/
theorem pieces_chars : ∀ piece ∈ k.method.toList :: k.arguments.map argumentText,
    ∀ c ∈ piece, isMethodChar c = true ∧ c ≠ '.' := by
  intro piece hpiece
  rcases List.mem_cons.1 hpiece with rfl | hpiece
  · exact k.method_isMethodChar
  · obtain ⟨argument, hargument, rfl⟩ := List.mem_map.1 hpiece
    exact k.argumentText_chars hargument

/-- The text of the method is cut at its dots into the method and its arguments. -/
theorem splitOn_methodText :
    k.methodText.splitOn '.' = k.method.toList :: k.arguments.map argumentText := by
  apply List.splitOn_intercalate
  · intro piece hpiece hdot
    exact (k.pieces_chars piece hpiece '.' hdot).2 rfl
  · exact List.cons_ne_nil _ _

/-- The text of the method consists of characters of methods, dots included. -/
theorem methodText_chars : ∀ c ∈ k.methodText, isMethodChar c = true := by
  apply forall_mem_intercalate
  · decide
  · intro piece hpiece c hc
    exact (k.pieces_chars piece hpiece c hc).1

/-- The text of the method is not empty. -/
theorem methodText_ne_nil : k.methodText ≠ [] := by
  intro hnil
  have hsplit := k.splitOn_methodText
  rw [hnil] at hsplit
  exact k.method_ne_nil (List.cons.inj hsplit).1.symm

/-- The method is read off its text. -/
theorem methodName_methodText : methodName k.methodText = k.method.toList := by
  obtain ⟨rest, hrest⟩ := exists_splitOn_eq_cons '.' k.methodText
  exact (List.cons.inj (hrest.symm.trans k.splitOn_methodText)).1

/-- The arguments are read off the text of the method. -/
theorem methodArguments_methodText :
    methodArguments k.methodText = k.arguments.map argumentText := by
  rw [methodArguments, splitOn_methodText, List.tail_cons]

section Argument

variable {k} {argument : String × String} (h : argument ∈ k.arguments)
include h

/-- The key of an argument is what stands before its equals sign. -/
theorem argumentKey_argumentText : argumentKey (argumentText argument) = argument.1.toList := by
  have hkey := forall_mem_ne_equals (k.key_chars argument h)
  rw [argumentKey, argumentText, List.takeWhile_append_of_pos hkey]
  simp

/-- The value of an argument is what stands behind its equals sign. -/
theorem argumentValue_argumentText :
    argumentValue (argumentText argument) = argument.2.toList := by
  have hkey := forall_mem_ne_equals (k.key_chars argument h)
  have hvalue := forall_mem_ne_equals (k.value_chars argument h)
  rw [argumentValue, argumentText, List.dropWhile_append_of_pos hkey]
  simpa using hvalue

end Argument

/-- The arguments are read as the dictionary that they are. -/
theorem readArguments_argumentText :
    readArguments ((k.arguments.map argumentText).map String.ofList) = some k.arguments := by
  have hkeyed : ∀ written ∈ k.arguments.map argumentText, argumentKey written ≠ [] := by
    intro written hwritten
    obtain ⟨argument, hargument, rfl⟩ := List.mem_map.1 hwritten
    rw [argumentKey_argumentText hargument]
    exact (k.keys_ne argument hargument).1
  have hread : (k.arguments.map argumentText).map (fun written =>
      (String.ofList (argumentKey written), String.ofList (argumentValue written))) =
      k.arguments := by
    rw [List.map_map]
    refine (List.map_congr_left fun argument hargument => ?_).trans (List.map_id _)
    simp [argumentKey_argumentText hargument, argumentValue_argumentText hargument]
  have hvoid : k.arguments.filter (fun argument => argument.1 ≠ Text.voidKey) = k.arguments := by
    apply List.filter_eq_self.2
    intro argument hargument
    have hne := (k.keys_ne argument hargument).2
    simpa [Text.voidKey, Text.ofString_inj] using hne
  have hassign := Dictionary.assignAll_eq_self k.keys_nodup
  rw [readArguments, mapM_readArgument, if_pos hkeyed, hread]
  simp only [Option.bind_eq_bind, Option.bind_some, hvoid, hassign]
  rfl

/-- The text of the method is read as the method with its arguments. -/
theorem readMethod_methodText :
    readMethod (some k.methodText) = .ok (k.method, k.arguments) := by
  rw [readMethod_some, methodName_methodText, methodArguments_methodText,
    readArguments_argumentText, String.ofList_toList]

/-- What is written behind the parts in front. -/
def rest : List Char :=
  k.methodText ++ [':'] ++ (k.value.toList ++ k.downstreamPart)

/-- Behind the parts in front no run of characters of methods ends with anything but the colon. -/
theorem stop_eq_colon {run : List Char} {stop : Char} (hrun : ∀ c ∈ run, isMethodChar c = true)
    (hstop : isMethodChar stop = false) (h : run ++ [stop] <+: k.rest) : stop = ':' :=
  stop_unique hrun k.methodText_chars hstop (by decide) h (List.prefix_append _ _)

/-- The mark of a family stands in front of the text if it is written, and otherwise not. -/
theorem isFront_family : IsFront IsFamily k.front.familyPart
    (k.front.familyPart ++ (k.front.upstreamPart ++ k.rest)) := by
  -- An `@` in front would end an empty run where the run of the next part ends.
  cases hfront : k.front with
  | nothing =>
    refine .inr ⟨rfl, ?_⟩
    rintro part rfl hpart
    have hempty : ∀ c ∈ ([] : List Char), isMethodChar c = true := by simp
    exact absurd (k.stop_eq_colon hempty (by decide) hpart) (by decide)
  | family => exact .inl ⟨rfl, List.prefix_append _ _⟩
  | upstream depth =>
    refine .inr ⟨rfl, ?_⟩
    rintro part rfl hpart
    have hempty : ∀ c ∈ ([] : List Char), c.isDigit = true := by simp
    have hdigits : ∀ c ∈ depth.digits, c.isDigit = true := fun _ => depth.isDigit_of_mem_digits
    have hplus := stop_unique hempty hdigits (by decide) (by decide) hpart
      (List.prefix_append _ _)
    exact absurd hplus (by decide)

/-- The upstream part stands behind the mark of a family if it is written, and otherwise not. -/
theorem isFront_upstream :
    IsFront IsUpstream k.front.upstreamPart (k.front.upstreamPart ++ k.rest) := by
  -- Digits are characters of methods, so a plus sign behind them would end the method.
  have hnone : ∀ part, IsUpstream part → ¬ part <+: k.rest := by
    rintro part ⟨digits, hdigits, rfl⟩ hpart
    have hrun : ∀ c ∈ digits, isMethodChar c = true :=
      fun c hc => isMethodChar_of_isDigit (hdigits c hc)
    exact absurd (k.stop_eq_colon hrun (by decide) hpart) (by decide)
  cases hfront : k.front with
  | nothing => exact .inr ⟨rfl, hnone⟩
  | family => exact .inr ⟨rfl, hnone⟩
  | upstream depth =>
    exact .inl ⟨⟨_, fun _ => depth.isDigit_of_mem_digits, rfl⟩, List.prefix_append _ _⟩

/-- The downstream part stands at the back if it is written, and otherwise none does. -/
theorem isBack_downstream :
    IsBack IsDownstream k.downstreamPart (k.value.toList ++ k.downstreamPart) := by
  cases hdownstream : k.downstream with
  | none =>
    have hnil : k.downstreamPart = [] := by rw [downstreamPart, hdownstream]
    rw [hnil, List.append_nil]
    exact .inr ⟨rfl, k.value_back hdownstream⟩
  | some depth =>
    have hpart : IsDownstream k.downstreamPart := by
      rw [downstreamPart, hdownstream]
      exact ⟨_, fun _ => depth.isDigit_of_mem_digits, rfl⟩
    have hback : k.downstreamPart <:+ k.value.toList ++ k.downstreamPart := List.suffix_append _ _
    refine .inl ⟨hpart, hback, fun part hkind hpart' => ?_⟩
    rw [hpart.unique hkind hback hpart']

/-- The parts that are written are the division of the text. -/
theorem divides : k.division.Divides k.text.toList where
  append_eq := by simp [division, text]
  family := by simpa [division, text, rest] using k.isFront_family
  upstream := by simpa [division, rest] using k.isFront_upstream
  method := .inl ⟨⟨_, k.methodText_ne_nil, k.methodText_chars, rfl⟩, List.prefix_append _ _⟩
  downstream := k.isBack_downstream

/-- The upstream part consists of digits and a plus sign. -/
theorem mem_upstreamPart {c : Char} (h : c ∈ k.front.upstreamPart) :
    c.isDigit = true ∨ c = '+' := by
  rw [Front.upstreamPart] at h
  split at h
  · contradiction
  · rename_i depth _
    rcases List.mem_append.1 h with hdigit | hplus
    · exact .inl (depth.isDigit_of_mem_digits hdigit)
    · exact .inr (List.mem_singleton.1 hplus)

/-- The downstream part consists of a plus sign and digits. -/
theorem mem_downstreamPart {c : Char} (h : c ∈ k.downstreamPart) :
    c.isDigit = true ∨ c = '+' := by
  rw [downstreamPart] at h
  split at h
  · contradiction
  · rename_i depth _
    rcases List.mem_cons.1 h with hplus | hdigit
    · exact .inr hplus
    · exact .inl (depth.isDigit_of_mem_digits hdigit)

/-- A canonical criterion stands on one line. -/
theorem text_oneLine : ∀ c ∈ k.text.toList, Text.isLineBreak c = false := by
  have hsign {c : Char} (h : c.isDigit = true ∨ c = '+') : Text.isLineBreak c = false := by
    rcases h with hdigit | rfl
    · exact isLineBreak_of_isMethodChar (isMethodChar_of_isDigit hdigit)
    · decide
  intro c hc
  rw [← k.divides.append_eq] at hc
  simp only [division, List.mem_append, List.mem_singleton] at hc
  rcases hc with hfamily | hupstream | (hmethod | rfl) | hvalue | hdownstream
  · rw [Front.familyPart] at hfamily
    split at hfamily
    · obtain rfl := List.mem_singleton.1 hfamily
      decide
    · exact absurd hfamily List.not_mem_nil
  · exact hsign (k.mem_upstreamPart hupstream)
  · exact isLineBreak_of_isMethodChar (k.methodText_chars c hmethod)
  · decide
  · exact k.value_oneLine c hvalue
  · exact hsign (k.mem_downstreamPart hdownstream)

/-- What is kept of the upstream part is the depth that is written there. -/
theorem parts_upstream :
    k.division.parts.upstream = k.front.upstream?.map WrittenDepth.digits := by
  simp only [Division.parts, division, Front.upstreamPart]
  cases k.front.upstream? <;> simp [kept]

/-- What is kept of the downstream part is the depth that is written there. -/
theorem parts_downstream :
    k.division.parts.downstream = k.downstream.map WrittenDepth.digits := by
  simp only [Division.parts, division, downstreamPart]
  cases k.downstream <;> simp [kept]

/-- What is written of a canonical criterion is read as this criterion. -/
theorem parse_text (greedy : Bool) : parse k.text greedy = .ok (k.criterion greedy) := by
  have hexclusive : k.division.family = [] ∨ k.division.upstream = [] := by
    simp only [division]
    cases k.front <;> simp [Front.familyPart, Front.upstreamPart, Front.isFamily, Front.upstream?]
  have hfamily : k.division.parts.family = k.front.isFamily := by
    simp [Division.parts, division, Front.familyPart]
  have hmethod : k.division.parts.method = some k.methodText := by
    simp [Division.parts, division, kept]
  have hvalue : String.ofList k.division.parts.value = k.value := String.ofList_toList
  have hbound (written : Option WrittenDepth) :
      (written.map WrittenDepth.digits).bind depthOf = written.bind WrittenDepth.bound := by
    cases written with
    | none => rfl
    | some depth => exact depth.depthOf_digits
  rw [parse_eq_map_readMethod greedy k.divides k.text_oneLine k.value_ne_nil hexclusive, hmethod,
    readMethod_methodText, hfamily, hvalue, parts_upstream, parts_downstream, hbound, hbound,
    Option.isSome_map, Option.isSome_map]
  rfl

/-- A criterion with depths of zero, an argument without a value, and a value with the characters in
it that separate parts elsewhere. -/
def sample : Canonical where
  front := .upstream (some 0)
  method := "config"
  arguments := [("enabled", ""), ("tag", "x-1")]
  value := "a:b@c+1"
  downstream := some (some 0)
  method_ne_nil := by decide
  method_chars := by simp [isNameChar]
  keys_nodup := by decide
  keys_ne := by decide
  key_chars := by simp [isNameChar]
  value_chars := by simp [isNameChar]
  value_ne_nil := by decide
  value_oneLine := by simp [Text.isLineBreak, Text.lineBreakCodes]
  value_back := by intro h; contradiction

/-- Neither a depth of zero nor an empty value of an argument is taken for a missing one. -/
theorem parse_text_sample :
    parse "0+config.enabled=.tag=x-1:a:b@c+1+0" false = .ok {
      method := "config"
      arguments := [("enabled", ""), ("tag", "x-1")]
      value := "a:b@c+1"
      upstream := true
      upstreamDepth := some (Depth.ofNat 0)
      downstream := true
      downstreamDepth := some (Depth.ofNat 0)
      family := false
      greedy := false
      warnIfEmpty := false
      text := "0+config.enabled=.tag=x-1:a:b@c+1+0" } := by
  have htext : sample.text = "0+config.enabled=.tag=x-1:a:b@c+1+0" := by decide
  have hparse := sample.parse_text false
  rw [criterion, htext] at hparse
  exact hparse

end Canonical

end DagSelect.Criterion
