import DagSelect.Proofs.Depth
import DagSelect.Proofs.Except
import DagSelect.Proofs.Spec.Division
import DagSelect.Proofs.Spec.Method

/-!
# The grammar of criteria

A criterion is accepted exactly if it stands on one line, its value is not empty, it has no `@`
together with an upstream part, and no argument of its method has an empty key. What is read is said
by the division of the text alone, and so is the error where nothing is read: the first of these
conditions that fails decides it.
-/

namespace DagSelect.Criterion

/-- The bound that the digits of a part denote: none without digits, else their number as far as 53
binary digits represent it, which they do for every number below 2^53. -/
structure Denotes (digits : List Char) (depth : Option Depth) : Prop where
  absent : digits = [] → depth = none
  number : digits ≠ [] → depth = some (Depth.ofNumber (Text.decimalValue digits))
  exact : digits ≠ [] → Text.decimalValue digits < 2 ^ 53 →
    depth = some (Depth.ofNat (Text.decimalValue digits))

/-- Digits are read as the bound that they denote. -/
theorem denotes_depthOf (digits : List Char) : Denotes digits (depthOf digits) where
  absent h := by rw [depthOf, h]; rfl
  number h := by
    rw [depthOf, if_neg (by simpa using h), Depth.ofNumeral_eq]
  exact h hlt := by
    rw [depthOf, if_neg (by simpa using h), Depth.ofNumeral_eq, Depth.ofNumber_of_lt hlt]

/-- What is kept of a part is read as the bound that it denotes, if nothing is in an empty part. -/
theorem denotes_kept {part digits : List Char} (h : part = [] → digits = []) :
    Denotes digits ((kept part digits).bind depthOf) := by
  have hdepth : (kept part digits).bind depthOf = depthOf digits := by
    by_cases hnil : part = []
    · simp [kept, hnil, h hnil, depthOf]
    · simp [kept, hnil]
  rw [hdepth]
  exact denotes_depthOf digits

namespace Division

/-- The text of the method with its arguments, without the colon. -/
def methodText (d : Division) : List Char :=
  d.method.dropLast

/-- A division that a criterion can be read off. -/
structure Readable (d : Division) (text : String) : Prop where
  oneLine : ∀ c ∈ text.toList, Text.isLineBreak c = false
  value_ne_nil : d.value ≠ []
  exclusive : d.family = [] ∨ d.upstream = []
  keyed : ∀ argument ∈ methodArguments d.methodText, argumentKey argument ≠ []

/-- A criterion that says what the division of its text says. -/
structure Yields (d : Division) (text : String) (greedy : Bool) (c : Criterion) : Prop where
  family : c.family = true ↔ d.family ≠ []
  upstream : c.upstream = true ↔ d.upstream ≠ []
  upstreamDepth : Denotes d.upstream.dropLast c.upstreamDepth
  downstream : c.downstream = true ↔ d.downstream ≠ []
  downstreamDepth : Denotes d.downstream.tail c.downstreamDepth
  value : c.value.toList = d.value
  method : c.method.toList = if d.method = [] then "fqn".toList else methodName d.methodText
  arguments : Collects c.arguments (methodArguments d.methodText)
  text : c.text = text
  greedy : c.greedy = greedy
  warnIfEmpty : c.warnIfEmpty = false

/-- The error that says why nothing can be read off a division. -/
inductive Refused (d : Division) (text : String) : SelectorError → Prop where
  | malformed (h : (∃ c ∈ text.toList, Text.isLineBreak c = true) ∨ d.value = []) :
    Refused d text (.malformed text)
  | clashingModifiers (hline : ∀ c ∈ text.toList, Text.isLineBreak c = false)
    (hvalue : d.value ≠ []) (hfamily : d.family ≠ []) (hupstream : d.upstream ≠ []) :
    Refused d text (.clashingModifiers text)
  | badArguments (hline : ∀ c ∈ text.toList, Text.isLineBreak c = false) (hvalue : d.value ≠ [])
    (hexclusive : d.family = [] ∨ d.upstream = [])
    (hkey : ∃ argument ∈ methodArguments d.methodText, argumentKey argument = []) :
    Refused d text
      (.badArguments (String.ofList d.methodText) (String.ofList (methodName d.methodText)))

variable {d : Division} {text : String}

/-- Without an empty key the method of a division is read. -/
theorem readMethod_parts_eq_ok
    (h : ∀ argument ∈ methodArguments d.methodText, argumentKey argument ≠ []) :
    ∃ method arguments, readMethod d.parts.method = .ok (method, arguments) ∧
      method.toList = (if d.method = [] then "fqn".toList else methodName d.methodText) ∧
      Collects arguments (methodArguments d.methodText) := by
  by_cases hnil : d.method = []
  · have hparts : d.parts.method = none := if_pos hnil
    refine ⟨defaultMethod, [], ?_, ?_, ⟨List.nodup_nil, fun key => ?_⟩⟩
    · rw [hparts]
      rfl
    · rw [if_pos hnil, defaultMethod]
    · rw [methodText, hnil]
      simp [Dictionary.find?, lastValue?, methodArguments]
  · have hparts : d.parts.method = some d.methodText := if_neg hnil
    obtain ⟨arguments, hread, hspec⟩ := readMethod_some_eq_ok h
    refine ⟨String.ofList (methodName d.methodText), arguments, ?_, ?_, hspec⟩
    · rw [hparts, hread]
    · rw [if_neg hnil, String.toList_ofList]

/-- With an empty key the method of a division is refused. -/
theorem readMethod_parts_eq_error
    (h : ∃ argument ∈ methodArguments d.methodText, argumentKey argument = []) :
    readMethod d.parts.method = .error
      (.badArguments (String.ofList d.methodText) (String.ofList (methodName d.methodText))) := by
  have hne : d.method ≠ [] := by
    intro hnil
    rw [methodText, hnil] at h
    simp [methodArguments] at h
  have hparts : d.parts.method = some d.methodText := if_neg hne
  rw [hparts, readMethod_some_eq_error h]

end Division

section Parse

variable {d : Division} {text : String} (greedy : Bool)

/-- A text is cut as its division says. -/
theorem cut_eq_parts {s : List Char} (h : d.Divides s) : cut s = d.parts := by
  obtain ⟨d', h', hcut⟩ := exists_divides s
  rw [hcut, h'.unique h]

/-- A text with a line break or without a value is malformed. -/
theorem parse_eq_malformed (h : d.Divides text.toList)
    (hd : (∃ c ∈ text.toList, Text.isLineBreak c = true) ∨ d.value = []) :
    parse text greedy = .error (.malformed text) := by
  have hcheck : (text.toList.any Text.isLineBreak || d.parts.value.isEmpty) = true := by
    simpa [Division.parts] using hd
  simp only [parse, cut_eq_parts h, hcheck]
  rfl

/-- A text on one line with a value has clashing modifiers if it has both. -/
theorem parse_eq_clashingModifiers (h : d.Divides text.toList)
    (hline : ∀ c ∈ text.toList, Text.isLineBreak c = false) (hvalue : d.value ≠ [])
    (hfamily : d.family ≠ []) (hupstream : d.upstream ≠ []) :
    parse text greedy = .error (.clashingModifiers text) := by
  have hcheck : (text.toList.any Text.isLineBreak || d.parts.value.isEmpty) = false := by
    simpa [Division.parts] using And.intro hline hvalue
  have hclash : (d.parts.family && d.parts.upstream.isSome) = true := by
    simpa [Division.parts, isSome_kept] using And.intro hfamily hupstream
  simp only [parse, cut_eq_parts h, hcheck, hclash]
  rfl

/-- Any other text is read as its method is. -/
theorem parse_eq_map_readMethod (h : d.Divides text.toList)
    (hline : ∀ c ∈ text.toList, Text.isLineBreak c = false) (hvalue : d.value ≠ [])
    (hexclusive : d.family = [] ∨ d.upstream = []) :
    parse text greedy = (readMethod d.parts.method).map fun method =>
      { method := method.1
        arguments := method.2
        value := String.ofList d.parts.value
        upstream := d.parts.upstream.isSome
        upstreamDepth := d.parts.upstream.bind depthOf
        downstream := d.parts.downstream.isSome
        downstreamDepth := d.parts.downstream.bind depthOf
        family := d.parts.family
        greedy := greedy
        warnIfEmpty := false
        text := text } := by
  have hcheck : (text.toList.any Text.isLineBreak || d.parts.value.isEmpty) = false := by
    simpa [Division.parts] using And.intro hline hvalue
  have hclash : (d.parts.family && d.parts.upstream.isSome) = false := by
    rcases hexclusive with hnil | hnil <;> simp [Division.parts, isSome_kept, hnil]
  simp only [parse, cut_eq_parts h, hcheck, hclash]
  cases readMethod d.parts.method <;> rfl

/-- What can be read off the division of a text is what the text is read as. -/
theorem parse_eq_ok_of_readable (h : d.Divides text.toList) (hd : d.Readable text) :
    ∃ c, parse text greedy = .ok c ∧ d.Yields text greedy c := by
  obtain ⟨method, arguments, hread, hmethod, harguments⟩ :=
    Division.readMethod_parts_eq_ok hd.keyed
  have hparse := parse_eq_map_readMethod greedy h hd.oneLine hd.value_ne_nil hd.exclusive
  rw [hread] at hparse
  exact ⟨_, hparse, {
    family := by simp [Division.parts]
    upstream := by simp [Division.parts, isSome_kept]
    upstreamDepth := denotes_kept fun hnil => by rw [hnil, List.dropLast_nil]
    downstream := by simp [Division.parts, isSome_kept]
    downstreamDepth := denotes_kept fun hnil => by rw [hnil, List.tail_nil]
    value := String.toList_ofList
    method := hmethod
    arguments := harguments
    text := rfl
    greedy := rfl
    warnIfEmpty := rfl }⟩

/-- A text is refused for the first reason for which nothing can be read off its division. -/
theorem parse_eq_error_of_not_readable (h : d.Divides text.toList) (hd : ¬ d.Readable text) :
    ∃ e, parse text greedy = .error e ∧ d.Refused text e := by
  by_cases hcheck : (∃ c ∈ text.toList, Text.isLineBreak c = true) ∨ d.value = []
  · exact ⟨_, parse_eq_malformed greedy h hcheck, .malformed hcheck⟩
  obtain ⟨hline, hvalue⟩ :
      (∀ c ∈ text.toList, Text.isLineBreak c = false) ∧ d.value ≠ [] := by
    simpa using hcheck
  by_cases hclash : d.family = [] ∨ d.upstream = []
  · have hkey : ∃ argument ∈ methodArguments d.methodText, argumentKey argument = [] := by
      by_contra hkeyed
      exact hd ⟨hline, hvalue, hclash, by simpa using hkeyed⟩
    refine ⟨_, ?_, .badArguments hline hvalue hclash hkey⟩
    rw [parse_eq_map_readMethod greedy h hline hvalue hclash,
      Division.readMethod_parts_eq_error hkey]
    rfl
  · obtain ⟨hfamily, hupstream⟩ : d.family ≠ [] ∧ d.upstream ≠ [] := by simpa using hclash
    exact ⟨_, parse_eq_clashingModifiers greedy h hline hvalue hfamily hupstream,
      .clashingModifiers hline hvalue hfamily hupstream⟩

/-- Whatever a text is read as says what its division says. -/
theorem yields_of_parse {c : Criterion} (h : d.Divides text.toList)
    (hparse : parse text greedy = .ok c) : d.Yields text greedy c := by
  by_cases hd : d.Readable text
  · obtain ⟨c', hc', hyields⟩ := parse_eq_ok_of_readable greedy h hd
    obtain rfl := Except.ok.inj (hparse.symm.trans hc')
    exact hyields
  · obtain ⟨e, he, -⟩ := parse_eq_error_of_not_readable greedy h hd
    rw [hparse] at he
    contradiction

end Parse

/-- A text has exactly one division, and it is read as a criterion exactly if that is readable. The
criterion says then what the division says; otherwise the error says the first thing that keeps the
division from being readable. -/
theorem parse_iff_readable (text : String) (greedy : Bool) :
    (∃! d : Division, d.Divides text.toList) ∧
    ∀ d : Division, d.Divides text.toList →
      ((∃ c, parse text greedy = .ok c) ↔ d.Readable text) ∧
      (∀ c, parse text greedy = .ok c → d.Yields text greedy c) ∧
      (¬ d.Readable text → ∃ e, parse text greedy = .error e ∧ d.Refused text e) := by
  obtain ⟨d, hdivides, -⟩ := exists_divides text.toList
  refine ⟨⟨d, hdivides, fun d' h' => h'.unique hdivides⟩, fun d h => ⟨⟨?_, ?_⟩, ?_, ?_⟩⟩
  · rintro ⟨c, hc⟩
    by_contra hd
    obtain ⟨e, he, -⟩ := parse_eq_error_of_not_readable greedy h hd
    rw [hc] at he
    contradiction
  · intro hd
    obtain ⟨c, hc, -⟩ := parse_eq_ok_of_readable greedy h hd
    exact ⟨c, hc⟩
  · intro c hc
    by_cases hd : d.Readable text
    · obtain ⟨c', hc', hyields⟩ := parse_eq_ok_of_readable greedy h hd
      obtain rfl := Except.ok.inj (hc.symm.trans hc')
      exact hyields
    · obtain ⟨e, he, -⟩ := parse_eq_error_of_not_readable greedy h hd
      rw [hc] at he
      contradiction
  · exact parse_eq_error_of_not_readable greedy h

/-- Of two plus signs behind a value only the last one starts the downstream part. -/
theorem parse_iff_readable_sample : ∃ d : Division,
    d.Divides "2+config.enabled:a+1+".toList ∧ d.value = "a+1".toList ∧
    d.Readable "2+config.enabled:a+1+" ∧
    ∃ c, parse "2+config.enabled:a+1+" false = .ok c ∧
      d.Yields "2+config.enabled:a+1+" false c := by
  obtain ⟨⟨d, hdivides, -⟩, h⟩ := parse_iff_readable "2+config.enabled:a+1+" false
  obtain ⟨hiff, hyields, -⟩ := h d hdivides
  obtain ⟨c, hc⟩ := Except.exists_eq_ok (x := parse "2+config.enabled:a+1+" false)
    (by decide +kernel)
  have hvalue : d.value = "a+1".toList :=
    congrArg Parts.value (cut_eq_parts hdivides).symm
  exact ⟨d, hdivides, hvalue, hiff.1 ⟨c, hc⟩, c, hc, hyields c hc⟩

end DagSelect.Criterion
