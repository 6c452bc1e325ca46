import DagSelect.Json.Parser
import DagSelect.Json.Printer
import DagSelect.Proofs.Json.Quotation

/-!
# Reading what is written

Every value is read back from the text as which it is written. Reading stops where a value ends:
what follows it there is a comma or a line feed, if anything does, and so belongs to no number. The
bound on the number of steps is never met, since reading takes at most one step for each
character.
-/

namespace DagSelect.Json

open Text

variable {s rest digits : List Char} {n m : Nat}

/-- Whether a text does not start with a decimal digit. -/
def NoDigitFirst (s : List Char) : Prop := ∀ c ∈ s.head?, c.isDigit = false

/-- Whether a text may follow a value where values are written. -/
def Follows (s : List Char) : Prop := ∀ c ∈ s.head?, c = ',' ∨ c = '\n'

/-- What follows a value does not start with a digit. -/
theorem Follows.noDigitFirst (h : Follows rest) : NoDigitFirst rest := by
  intro c hc
  rcases h c hc with rfl | rfl <;> rfl

/-- A run of digits is read up to its end. -/
theorem readDigits_append (hne : digits ≠ []) (hdigits : ∀ c ∈ digits, c.isDigit = true)
    (hrest : NoDigitFirst rest) : readDigits (digits ++ rest) = some (digits, rest) := by
  have hstop : rest.takeWhile Char.isDigit = [] ∧ rest.dropWhile Char.isDigit = rest := by
    cases rest with
    | nil => exact ⟨rfl, rfl⟩
    | cons c s =>
      have hc : c.isDigit = false := hrest c rfl
      exact ⟨List.takeWhile_cons_of_neg (by simp [hc]), List.dropWhile_cons_of_neg (by simp [hc])⟩
  rw [readDigits, List.takeWhile_append_of_pos hdigits, List.dropWhile_append_of_pos hdigits,
    hstop.1, hstop.2, List.append_nil]
  simp [hne]

/-- A numeral consists of digits. -/
theorem isDigit_of_mem_natText {c : Char} (h : c ∈ natText n) : c.isDigit = true :=
  Nat.isDigit_of_mem_toDigits (by decide) (by decide) h

/-- A numeral is not empty. -/
theorem natText_ne_nil (n : Nat) : natText n ≠ [] := by
  intro h
  have hvalue : decimalValue (natText n) = n := decimalValue_toDigits n
  rw [h] at hvalue
  subst hvalue
  contradiction

/-- A numeral starts with a digit. -/
theorem exists_natText_eq_cons (n : Nat) : ∃ c s, natText n = c :: s ∧ c.isDigit = true := by
  obtain ⟨c, s, hs⟩ := List.exists_cons_of_ne_nil (natText_ne_nil n)
  exact ⟨c, s, hs, isDigit_of_mem_natText (hs ▸ List.mem_cons_self)⟩

/-- A numeral is read up to its end. -/
theorem readDigits_natText (hrest : NoDigitFirst rest) :
    readDigits (natText n ++ rest) = some (natText n, rest) :=
  readDigits_append (natText_ne_nil n) (fun _ => isDigit_of_mem_natText) hrest

/-- Only the numeral of zero starts with a zero. -/
theorem eq_zero_of_natText_eq_cons (h : natText n = '0' :: s) : n = 0 := by
  induction n using Nat.strongRecOn generalizing s with
  | _ n ih =>
    by_cases hlt : n < 10
    · rw [natText, Nat.toDigits_of_lt_base hlt] at h
      have hall : ∀ n < 10, Nat.digitChar n = '0' → n = 0 := by decide
      exact hall n hlt (List.cons.inj h).1
    · have hpos : 0 < n / 10 := by omega
      have hsplit :=
        Nat.toDigits_append_toDigits (by decide) hpos (Nat.mod_lt n (by decide : 0 < 10))
      rw [Nat.div_add_mod] at hsplit
      obtain ⟨c, s', hs', -⟩ := exists_natText_eq_cons (n / 10)
      rw [natText, ← hsplit, ← natText, hs', List.cons_append] at h
      have hzero := ih (n / 10) (by omega) ((List.cons.inj h).1 ▸ hs')
      omega

/-- A numeral is read as its number, with the power of ten that is read behind it. -/
theorem readMagnitude_natText (hrest : NoDigitFirst rest) (hpoint : rest.head? ≠ some '.') :
    readMagnitude (natText n ++ rest) =
      (readExponent rest).map fun (exponent, s) => (n, exponent, s) := by
  have hfraction : readFraction rest = some ([], rest) :=
    readFraction.eq_2 rest fun s hs => hpoint (by rw [hs]; rfl)
  have hvalue : decimalValue (natText n) = n := decimalValue_toDigits n
  by_cases hzero : n = 0
  · subst hzero
    have hread : natText 0 ++ rest = '0' :: rest := rfl
    rw [hread, readMagnitude]
    cases hexponent : readExponent rest <;> simp [hfraction, hexponent, decimalValue]
  · have hhead : ∀ s, natText n ++ rest ≠ '0' :: s := by
      intro s hs
      obtain ⟨c, s', hs', -⟩ := exists_natText_eq_cons n
      rw [hs', List.cons_append] at hs
      exact hzero (eq_zero_of_natText_eq_cons ((List.cons.inj hs).1 ▸ hs'))
    rw [readMagnitude.eq_def]
    split
    · rename_i s hs
      exact absurd hs (hhead s)
    · rw [readDigits_natText hrest]
      cases hexponent : readExponent rest <;> simp [hfraction, hexponent, hvalue]

/-- Behind a numeral that a value ends with, no power of ten is read. -/
theorem Follows.readExponent (h : Follows rest) : readExponent rest = some (0, rest) := by
  cases rest with
  | nil => rfl
  | cons c s => rcases h c rfl with rfl | rfl <;> rfl

/-- A power of ten is read as its exponent. -/
theorem readExponent_intText (e : Int) (h : NoDigitFirst rest) :
    Json.readExponent ('e' :: intText e ++ rest) = some (e, rest) := by
  have hvalue : decimalValue (natText e.natAbs) = e.natAbs := decimalValue_toDigits _
  rw [intText]
  split
  · rename_i hneg
    rw [List.cons_append, List.cons_append, readExponent.eq_1, readDigits_natText h]
    simp only [Option.map_some, hvalue]
    congr 2
    omega
  · rename_i hneg
    obtain ⟨c, s, hs, hc⟩ := exists_natText_eq_cons e.natAbs
    have hsign : ∀ d, d.isDigit = false → ∀ s', natText e.natAbs ++ rest ≠ d :: s' := by
      intro d hd s' hs'
      rw [hs, List.cons_append] at hs'
      rw [← (List.cons.inj hs').1, hc] at hd
      contradiction
    rw [List.cons_append, readExponent.eq_3 _ (hsign '-' rfl) (hsign '+' rfl),
      readDigits_natText h]
    simp only [Option.map_some, hvalue]
    congr 2
    omega

/-- A number as it is written. -/
def numberText (mantissa exponent : Int) : List Char :=
  if exponent = 0 then intText mantissa else intText mantissa ++ 'e' :: intText exponent

/-- The numeral of a number is read with the power of ten behind it. -/
theorem readNumber_intText (mantissa exponent : Int) (hdigit : NoDigitFirst rest)
    (hpoint : rest.head? ≠ some '.') (hexponent : Json.readExponent rest = some (exponent, s)) :
    readNumber (intText mantissa ++ rest) = some (.number mantissa exponent, s) := by
  rw [intText]
  split
  · rename_i hneg
    rw [List.cons_append, readNumber, readMagnitude_natText hdigit hpoint, hexponent]
    simp only [Option.map_some]
    congr 3
    omega
  · rename_i hneg
    obtain ⟨c, s', hs, hc⟩ := exists_natText_eq_cons mantissa.natAbs
    have hsign : ∀ s', natText mantissa.natAbs ++ rest ≠ '-' :: s' := by
      intro s' hs'
      rw [hs, List.cons_append] at hs'
      rw [(List.cons.inj hs').1] at hc
      contradiction
    rw [readNumber.eq_2 _ hsign, readMagnitude_natText hdigit hpoint, hexponent]
    simp only [Option.map_some]
    congr 3
    omega

/-- A number is read back. -/
theorem readNumber_numberText (mantissa exponent : Int) (h : Follows rest) :
    readNumber (numberText mantissa exponent ++ rest) =
      some (.number mantissa exponent, rest) := by
  rw [numberText]
  split
  · rename_i hzero
    refine readNumber_intText _ _ h.noDigitFirst (fun hpoint => ?_) (hzero ▸ h.readExponent)
    rcases h _ hpoint with h | h <;> contradiction
  · rw [List.append_assoc]
    refine readNumber_intText _ _ ?_ (by simp) (readExponent_intText _ h.noDigitFirst)
    rintro _ ⟨⟩
    rfl

/-- A new line counts as space. -/
theorem skipSpace_newLine (level : Nat) (s : List Char) :
    skipSpace (newLine level ++ s) = skipSpace s := by
  refine List.dropWhile_append_of_pos fun c hc => ?_
  rcases List.mem_cons.1 hc with rfl | hc
  · rfl
  · rw [(List.mem_replicate.1 hc).2]
    rfl

/-- A new line before a value is skipped. -/
theorem readValue_newLine (steps level : Nat) (s : List Char) :
    readValue steps (newLine level ++ s) = readValue steps s := by
  cases steps with
  | zero => rfl
  | succ steps => rw [readValue.eq_2, readValue.eq_2, skipSpace_newLine]

/-- A new line before items is skipped. -/
theorem readItems_newLine (steps level : Nat) (s : List Char) :
    readItems steps (newLine level ++ s) = readItems steps s := by
  cases steps with
  | zero => rfl
  | succ steps => rw [readItems.eq_2, readItems.eq_2, readValue_newLine]

/-- A new line before fields is skipped. -/
theorem readFields_newLine (steps level : Nat) (s : List Char) :
    readFields steps (newLine level ++ s) = readFields steps s := by
  cases steps with
  | zero => rfl
  | succ steps => rw [readFields.eq_2, readFields.eq_2, skipSpace_newLine]

/-- The characters that start a value other than a number, or count as space, start no number. -/
theorem ne_of_startsNumber {c d : Char} (hc : c = '-' ∨ c.isDigit = true)
    (hd : d ∈ ['n', 't', 'f', '"', '[', '\x7b', ' ', '\t', '\n', '\r', ']']) : c ≠ d := by
  have hnone : (['n', 't', 'f', '"', '[', '\x7b', ' ', '\t', '\n', '\r', ']'].any fun d =>
      d = '-' || d.isDigit) = false := by
    decide
  rintro rfl
  rw [List.any_eq_false] at hnone
  exact hnone c hd (by simpa using hc)

/-- No space starts a number. -/
theorem isSpace_of_startsNumber {c : Char} (hc : c = '-' ∨ c.isDigit = true) :
    isSpace c = false := by
  simp [isSpace, ne_of_startsNumber hc]

/-- What starts like a number is read as a number. -/
theorem readValue_number {steps : Nat} {c : Char} (hc : c = '-' ∨ c.isDigit = true) :
    readValue (steps + 1) (c :: s) = readNumber (c :: s) := by
  have hskip : skipSpace (c :: s) = c :: s :=
    List.dropWhile_cons_of_neg (by simp [isSpace_of_startsNumber hc])
  rw [readValue.eq_2, hskip]
  split
  case h_7 => rfl
  all_goals
    rename_i heq
    exact absurd (List.cons.inj heq).1 (ne_of_startsNumber hc (by simp))

/-- After an opening bracket, items are read up to the closing one. -/
theorem readValue_array {steps : Nat} {c : Char} {s' : List Char} (h : skipSpace s = c :: s')
    (hc : c ≠ ']') : readValue (steps + 1) ('[' :: s) =
      (readItems steps (c :: s')).map fun (items, rest) => (.array items, rest) := by
  have hopen : skipSpace ('[' :: s) = '[' :: s := rfl
  rw [readValue.eq_2, hopen]
  simp only [h]
  split
  · rename_i heq
    exact absurd (List.cons.inj heq).1 hc
  · rfl

/-- After an opening brace, fields are read up to the closing one. -/
theorem readValue_object {steps : Nat} {c : Char} {s' : List Char} (h : skipSpace s = c :: s')
    (hc : c ≠ '\x7d') : readValue (steps + 1) ('\x7b' :: s) =
      (readFields steps (c :: s')).map fun (fields, rest) => (.object fields, rest) := by
  have hopen : skipSpace ('\x7b' :: s) = '\x7b' :: s := rfl
  rw [readValue.eq_2, hopen]
  simp only [h]
  split
  · rename_i heq
    exact absurd (List.cons.inj heq).1 hc
  · rfl

/-- A number starts with a sign or a digit. -/
theorem exists_numberText_eq_cons (mantissa exponent : Int) : ∃ c s,
    numberText mantissa exponent = c :: s ∧ (c = '-' ∨ c.isDigit = true) := by
  have hint : ∃ c s, intText mantissa = c :: s ∧ (c = '-' ∨ c.isDigit = true) := by
    rw [intText]
    split
    · exact ⟨_, _, rfl, .inl rfl⟩
    · obtain ⟨c, s, hs, hc⟩ := exists_natText_eq_cons mantissa.natAbs
      exact ⟨c, s, hs, .inr hc⟩
  obtain ⟨c, s, hs, hc⟩ := hint
  rw [numberText]
  split
  · exact ⟨c, s, hs, hc⟩
  · exact ⟨c, _, by rw [hs, List.cons_append], hc⟩

/-- A value starts with a character that is no space and closes nothing. -/
theorem exists_prettyAt_eq_cons (level : Nat) (v : Json) : ∃ c s,
    prettyAt level v = c :: s ∧ isSpace c = false ∧ c ≠ ']' := by
  cases v with
  | null => exact ⟨_, _, rfl, rfl, by decide⟩
  | bool b => cases b <;> exact ⟨_, _, rfl, rfl, by decide⟩
  | number mantissa exponent =>
    obtain ⟨c, s, hs, hc⟩ := exists_numberText_eq_cons mantissa exponent
    exact ⟨c, s, hs, isSpace_of_startsNumber hc, ne_of_startsNumber hc (by simp)⟩
  | string t => exact ⟨_, _, rfl, rfl, by decide⟩
  | array items => cases items <;> exact ⟨_, _, rfl, rfl, by decide⟩
  | object fields => cases fields <;> exact ⟨_, _, rfl, rfl, by decide⟩

/-- Whether a value is read back wherever it is written. -/
def ReadBack (v : Json) : Prop :=
  ∀ (level steps : Nat) (rest : List Char), Follows rest → (prettyAt level v).length ≤ steps →
    readValue steps (prettyAt level v ++ rest) = some (v, rest)

/-- What follows an item follows a value. -/
theorem follows_prettyItems (level inner : Nat) (items : List Json) (s : List Char) :
    Follows (prettyItems level items ++ (newLine inner ++ s)) := by
  cases items with
  | nil =>
    rintro _ ⟨⟩
    exact .inr rfl
  | cons =>
    rintro _ ⟨⟩
    exact .inl rfl

/-- What follows the value of a field follows a value. -/
theorem follows_prettyFields (level inner : Nat) (fields : List (Text × Json)) (s : List Char) :
    Follows (prettyFields level fields ++ (newLine inner ++ s)) := by
  cases fields with
  | nil =>
    rintro _ ⟨⟩
    exact .inr rfl
  | cons =>
    rintro _ ⟨⟩
    exact .inl rfl

/-- Items that are read back are read up to the bracket that closes their list. -/
theorem readItems_pretty {item : Json} {items : List Json} {steps : Nat}
    (h : ∀ v ∈ item :: items, ReadBack v) (level inner : Nat) (rest : List Char)
    (hsteps : (prettyAt level item).length + (prettyItems level items).length < steps) :
    readItems steps (prettyAt level item ++ (prettyItems level items ++
      (newLine inner ++ ']' :: rest))) = some (item :: items, rest) := by
  induction items generalizing item steps with
  | nil =>
    obtain ⟨k, rfl⟩ : ∃ k, steps = k + 1 := ⟨steps - 1, by omega⟩
    have hread := h item List.mem_cons_self level k _
      (follows_prettyItems level inner [] (']' :: rest)) (by omega)
    have hclose : skipSpace (newLine inner ++ ']' :: rest) = ']' :: rest :=
      skipSpace_newLine inner _
    rw [readItems.eq_2, hread]
    simp only [Option.bind_eq_bind, Option.bind_some, prettyItems, List.nil_append, hclose]
    rfl
  | cons next items ih =>
    obtain ⟨k, rfl⟩ : ∃ k, steps = k + 1 := ⟨steps - 1, by omega⟩
    obtain ⟨hitem, hitems⟩ := List.forall_mem_cons.1 h
    have hread := hitem level k _ (follows_prettyItems level inner (next :: items) (']' :: rest))
      (by omega)
    have hlength : (prettyAt level next).length + (prettyItems level items).length < k := by
      simp only [prettyItems, List.length_cons, List.length_append] at hsteps
      omega
    have hcomma : ∀ s : List Char, skipSpace (',' :: s) = ',' :: s := fun s => rfl
    rw [readItems.eq_2, hread]
    simp only [Option.bind_eq_bind, Option.bind_some, prettyItems, List.cons_append,
      List.append_assoc, hcomma, readItems_newLine, ih hitems hlength]
    rfl

/-- A list is read back if its items are. -/
theorem readBack_array {items : List Json} (h : ∀ v ∈ items, ReadBack v) :
    ReadBack (.array items) := by
  intro level steps rest hrest hsteps
  cases items with
  | nil =>
    obtain ⟨k, rfl⟩ : ∃ k, steps = k + 1 := ⟨steps - 1, by simp [prettyAt] at hsteps; omega⟩
    rfl
  | cons item items =>
    simp only [prettyAt, List.length_cons, List.length_append, List.length_nil] at hsteps
    obtain ⟨k, rfl⟩ : ∃ k, steps = k + 1 := ⟨steps - 1, by omega⟩
    obtain ⟨c, s, hs, hspace, hclose⟩ := exists_prettyAt_eq_cons (level + 1) item
    have hline : 0 < (newLine level).length := Nat.succ_pos _
    have hlength : (prettyAt (level + 1) item).length +
        (prettyItems (level + 1) items).length < k := by omega
    have hread := readItems_pretty h (level + 1) level rest hlength
    have hskip : ∀ t, skipSpace (newLine (level + 1) ++ (prettyAt (level + 1) item ++ t)) =
        c :: (s ++ t) := by
      intro t
      rw [skipSpace_newLine, hs]
      exact List.dropWhile_cons_of_neg (by simp [hspace])
    simp only [prettyAt, List.cons_append, List.append_assoc, List.nil_append]
    rw [readValue_array (hskip _) hclose, ← List.cons_append, ← hs, hread]
    rfl

/-- A space before a value is skipped. -/
theorem readValue_space (steps : Nat) (s : List Char) :
    readValue steps (' ' :: s) = readValue steps s := by
  cases steps with
  | zero => rfl
  | succ steps =>
    have hskip : skipSpace (' ' :: s) = skipSpace s := rfl
    rw [readValue.eq_2, readValue.eq_2, hskip]

/-- The fields of an object start with a key in quotes, and go on behind its colon. -/
theorem readFields_quote (steps : Nat) (key : Text) (s : List Char) :
    readFields (steps + 1) (quote key ++ (':' :: ' ' :: s)) = (do
      let (value, s) ← readValue steps s
      match skipSpace s with
      | ',' :: s =>
        let (fields, s) ← readFields steps s
        return ((key, value) :: fields, s)
      | '\x7d' :: s => return ([(key, value)], s)
      | _ => none) := by
  have hquote : skipSpace (quote key ++ (':' :: ' ' :: s)) =
      '"' :: (key.symbols.flatMap escapeSymbol ++ '"' :: ':' :: ' ' :: s) := by
    simp [quote, skipSpace, isSpace]
  have hcolon : ∀ s, skipSpace (':' :: s) = ':' :: s := fun s => rfl
  have hread := readFields.eq_2 (quote key ++ (':' :: ' ' :: s)) steps
  simp only [hquote, readText_quote, Option.bind_eq_bind, Option.bind_some, hcolon,
    readValue_space] at hread
  exact hread

/-- Fields whose values are read back are read up to the brace that closes their object. -/
theorem readFields_pretty {key : Text} {value : Json} {fields : List (Text × Json)} {steps : Nat}
    (h : ∀ field ∈ (key, value) :: fields, ReadBack field.2) (level inner : Nat)
    (rest : List Char)
    (hsteps : (prettyAt level value).length + (prettyFields level fields).length < steps) :
    readFields steps (quote key ++ (':' :: ' ' :: (prettyAt level value ++
      (prettyFields level fields ++ (newLine inner ++ '\x7d' :: rest))))) =
      some ((key, value) :: fields, rest) := by
  induction fields generalizing key value steps with
  | nil =>
    obtain ⟨k, rfl⟩ : ∃ k, steps = k + 1 := ⟨steps - 1, by omega⟩
    have hvalue : ReadBack value := h _ List.mem_cons_self
    have hread := hvalue level k _ (follows_prettyFields level inner [] ('\x7d' :: rest))
      (by omega)
    have hclose : skipSpace (newLine inner ++ '\x7d' :: rest) = '\x7d' :: rest :=
      skipSpace_newLine inner _
    rw [readFields_quote, hread]
    simp only [Option.bind_eq_bind, Option.bind_some, prettyFields, List.nil_append, hclose]
    rfl
  | cons next fields ih =>
    obtain ⟨nextKey, nextValue⟩ := next
    obtain ⟨k, rfl⟩ : ∃ k, steps = k + 1 := ⟨steps - 1, by omega⟩
    have hvalue : ReadBack value := h _ List.mem_cons_self
    have hfields := (List.forall_mem_cons.1 h).2
    have hread := hvalue level k _
      (follows_prettyFields level inner ((nextKey, nextValue) :: fields) ('\x7d' :: rest))
      (by omega)
    have hlength : (prettyAt level nextValue).length + (prettyFields level fields).length < k := by
      simp only [prettyFields, List.length_cons, List.length_append] at hsteps
      omega
    have hcomma : ∀ s : List Char, skipSpace (',' :: s) = ',' :: s := fun s => rfl
    rw [readFields_quote, hread]
    simp only [Option.bind_eq_bind, Option.bind_some, prettyFields, List.cons_append,
      List.append_assoc, hcomma, readFields_newLine, ih hfields hlength]
    rfl

/-- An object is read back if the values of its fields are. -/
theorem readBack_object {fields : List (Text × Json)} (h : ∀ field ∈ fields, ReadBack field.2) :
    ReadBack (.object fields) := by
  intro level steps rest hrest hsteps
  cases fields with
  | nil =>
    obtain ⟨k, rfl⟩ : ∃ k, steps = k + 1 := ⟨steps - 1, by simp [prettyAt] at hsteps; omega⟩
    rfl
  | cons field fields =>
    obtain ⟨key, value⟩ := field
    simp only [prettyAt, List.length_cons, List.length_append, List.length_nil] at hsteps
    obtain ⟨k, rfl⟩ : ∃ k, steps = k + 1 := ⟨steps - 1, by omega⟩
    have hlength : (prettyAt (level + 1) value).length +
        (prettyFields (level + 1) fields).length < k := by omega
    have hread := readFields_pretty h (level + 1) level rest hlength
    have hskip : ∀ t, skipSpace (newLine (level + 1) ++ (quote key ++ t)) =
        '"' :: (key.symbols.flatMap escapeSymbol ++ '"' :: t) := by
      intro t
      rw [skipSpace_newLine]
      simp [quote, skipSpace, isSpace]
    have hquote : ∀ t, quote key ++ t = '"' :: (key.symbols.flatMap escapeSymbol ++ '"' :: t) := by
      simp [quote]
    simp only [prettyAt, List.cons_append, List.append_assoc, List.nil_append]
    rw [readValue_object (hskip _) (by decide), ← hquote, hread]
    rfl

mutual

/-- Every value is read back. -/
theorem readBack : ∀ v : Json, ReadBack v
  | .null => by
    intro level steps rest hrest hsteps
    obtain ⟨k, rfl⟩ : ∃ k, steps = k + 1 := ⟨steps - 1, by simp [prettyAt] at hsteps; omega⟩
    rfl
  | .bool b => by
    intro level steps rest hrest hsteps
    obtain ⟨k, rfl⟩ : ∃ k, steps = k + 1 :=
      ⟨steps - 1, by cases b <;> simp [prettyAt] at hsteps <;> omega⟩
    cases b <;> rfl
  | .number m e => by
    intro level steps rest hrest hsteps
    have hnumber : prettyAt level (.number m e) = numberText m e := rfl
    obtain ⟨c, s, hs, hc⟩ := exists_numberText_eq_cons m e
    rw [hnumber, hs, List.length_cons] at hsteps
    obtain ⟨k, rfl⟩ : ∃ k, steps = k + 1 := ⟨steps - 1, by omega⟩
    rw [hnumber, hs, List.cons_append, readValue_number hc, ← List.cons_append, ← hs,
      readNumber_numberText m e hrest]
  | .string t => by
    intro level steps rest hrest hsteps
    obtain ⟨k, rfl⟩ : ∃ k, steps = k + 1 := ⟨steps - 1, by simp [prettyAt, quote] at hsteps; omega⟩
    have hskip : skipSpace (prettyAt level (.string t) ++ rest) =
        '"' :: (t.symbols.flatMap escapeSymbol ++ '"' :: rest) := by
      simp [prettyAt, quote, skipSpace, isSpace]
    rw [readValue.eq_2, hskip]
    simp only [readText_quote, Option.map_some]
  | .array items => readBack_array (readBack_items items)
  | .object fields => readBack_object (readBack_fields fields)

/-- Every item of a list is read back. -/
theorem readBack_items : ∀ items : List Json, ∀ v ∈ items, ReadBack v
  | [] => by simp
  | item :: items => List.forall_mem_cons.2 ⟨readBack item, readBack_items items⟩

/-- Every value of an object's fields is read back. -/
theorem readBack_fields : ∀ fields : List (Text × Json), ∀ field ∈ fields, ReadBack field.2
  | [] => by simp
  | (key, value) :: fields => List.forall_mem_cons.2 ⟨readBack value, readBack_fields fields⟩

end

/-- A value is the only one that the text holds as which it is written. -/
theorem parse?_pretty (v : Json) : parse? (pretty v) = some v := by
  have hread := readBack v 0 (2 * (prettyAt 0 v).length + 2) [] (by rintro _ ⟨⟩) (by omega)
  rw [List.append_nil] at hread
  simp only [parse?, pretty, String.toList_ofList, hread]
  rfl

/-- Values that are written as the same text are equal. -/
theorem pretty_injective : Function.Injective pretty := by
  have hread : parse? ∘ pretty = some := funext parse?_pretty
  apply Function.Injective.of_comp (f := parse?)
  rw [hread]
  exact fun _ _ => Option.some.inj

end DagSelect.Json
