import DagSelect.Spec.Parser
import Mathlib.Data.List.TakeWhile

/-!
# The division of a criterion

A text divides into five parts, of which all but the value may be missing: an `@`, a run of digits
with a plus sign after it, a run of method characters with a colon after it, the value, and a plus
sign with a run of digits after it. The first three stand in front if something of their kind does,
and the last one at the back; the value is what is left. Neither a plus sign is a digit nor a colon
a method character, so the runs end where these stand, and every text has exactly one division.
-/

namespace DagSelect.Criterion

/-- The mark of a family. -/
def IsFamily (part : List Char) : Prop :=
  part = ['@']

/-- Digits and a plus sign after them. -/
def IsUpstream (part : List Char) : Prop :=
  ∃ digits, (∀ c ∈ digits, c.isDigit = true) ∧ part = digits ++ ['+']

/-- Method characters, at least one, and a colon after them. -/
def IsMethod (part : List Char) : Prop :=
  ∃ run, run ≠ [] ∧ (∀ c ∈ run, isMethodChar c = true) ∧ part = run ++ [':']

/-- A plus sign and digits after it. -/
def IsDownstream (part : List Char) : Prop :=
  ∃ digits, (∀ c ∈ digits, c.isDigit = true) ∧ part = '+' :: digits

/-- A part of a kind stands in front of a text, or it is empty and nothing of the kind does. -/
def IsFront (kind : List Char → Prop) (part s : List Char) : Prop :=
  kind part ∧ part <+: s ∨ part = [] ∧ ∀ p, kind p → ¬ p <+: s

/-- The shortest part of a kind at the back of a text, or it is empty and nothing of the kind stands
there. -/
def IsBack (kind : List Char → Prop) (part s : List Char) : Prop :=
  (kind part ∧ part <:+ s ∧ ∀ p, kind p → p <:+ s → part.length ≤ p.length) ∨
    part = [] ∧ ∀ p, kind p → ¬ p <:+ s

/-- Five parts of a text. -/
@[ext] structure Division where
  family : List Char
  upstream : List Char
  method : List Char
  value : List Char
  downstream : List Char

/-- The parts make up a text, and each but the value is what stands at its place if something of
its kind does. -/
structure Division.Divides (d : Division) (s : List Char) : Prop where
  append_eq : d.family ++ (d.upstream ++ (d.method ++ (d.value ++ d.downstream))) = s
  family : IsFront IsFamily d.family s
  upstream : IsFront IsUpstream d.upstream (d.upstream ++ (d.method ++ (d.value ++ d.downstream)))
  method : IsFront IsMethod d.method (d.method ++ (d.value ++ d.downstream))
  downstream : IsBack IsDownstream d.downstream (d.value ++ d.downstream)

section Runs

variable {kind : Char → Bool} {stop : Char} {run other s rest : List Char}

/-- A run in front of a character that is not of its kind is the longest one. -/
theorem takeWhile_of_run (hrun : ∀ c ∈ run, kind c = true) (hstop : kind stop = false)
    (h : run ++ [stop] <+: s) :
    s.takeWhile kind = run ∧ ∃ rest, s.dropWhile kind = stop :: rest := by
  obtain ⟨rest, rfl⟩ := h
  rw [List.append_assoc, List.takeWhile_append_of_pos hrun, List.dropWhile_append_of_pos hrun]
  simp [hstop]

/-- Two runs in front of the same text that end with the same character are equal. -/
theorem run_unique (hstop : kind stop = false) (hrun : ∀ c ∈ run, kind c = true)
    (hother : ∀ c ∈ other, kind c = true) (h : run ++ [stop] <+: s) (h' : other ++ [stop] <+: s) :
    run = other := by
  rw [← (takeWhile_of_run hrun hstop h).1, (takeWhile_of_run hother hstop h').1]

/-- The longest run and what ends it stand in front. -/
theorem append_of_dropWhile (h : s.dropWhile kind = stop :: rest) :
    s.takeWhile kind ++ [stop] ++ rest = s := by
  rw [List.append_assoc, List.singleton_append, ← h, List.takeWhile_append_dropWhile]

/-- The characters of the longest run are of its kind. -/
theorem mem_takeWhile : ∀ c ∈ s.takeWhile kind, kind c = true :=
  fun _ h => List.mem_takeWhile_imp h

end Runs

/-- Of a kind of which no two parts stand in front of one text, the part in front is determined,
and with it what follows. -/
theorem IsFront.unique {kind : List Char → Prop} {part other s t : List Char}
    (hkind : ∀ {p q s}, kind p → kind q → p <+: s → q <+: s → p = q)
    (h : IsFront kind part (part ++ s)) (h' : IsFront kind other (other ++ t))
    (hst : part ++ s = other ++ t) : part = other ∧ s = t := by
  have hpart : part = other := by
    rw [← hst] at h'
    rcases h with ⟨hpart, hfront⟩ | ⟨hnil, hnone⟩
    · rcases h' with ⟨hother, hfront'⟩ | ⟨-, hnone⟩
      · exact hkind hpart hother hfront hfront'
      · exact absurd hfront (hnone part hpart)
    · rcases h' with ⟨hother, hfront'⟩ | ⟨hnil', -⟩
      · exact absurd hfront' (hnone other hother)
      · rw [hnil, hnil']
  subst hpart
  exact ⟨rfl, List.append_cancel_left hst⟩

/-- No two marks of a family differ. -/
theorem IsFamily.unique {p q s : List Char} (hp : IsFamily p) (hq : IsFamily q) (_ : p <+: s)
    (_ : q <+: s) : p = q :=
  hp.trans hq.symm

/-- No two upstream parts stand in front of one text. -/
theorem IsUpstream.unique {p q s : List Char} (hp : IsUpstream p) (hq : IsUpstream q)
    (hfront : p <+: s) (hfront' : q <+: s) : p = q := by
  obtain ⟨digits, hdigits, rfl⟩ := hp
  obtain ⟨digits', hdigits', rfl⟩ := hq
  rw [run_unique (by decide) hdigits hdigits' hfront hfront']

/-- No two methods stand in front of one text. -/
theorem IsMethod.unique {p q s : List Char} (hp : IsMethod p) (hq : IsMethod q)
    (hfront : p <+: s) (hfront' : q <+: s) : p = q := by
  obtain ⟨run, -, hrun, rfl⟩ := hp
  obtain ⟨run', -, hrun', rfl⟩ := hq
  rw [run_unique (by decide) hrun hrun' hfront hfront']

/-- There is one shortest part of a kind at the back of a text. -/
theorem IsBack.unique {kind : List Char → Prop} {part other s : List Char}
    (h : IsBack kind part s) (h' : IsBack kind other s) : part = other := by
  rcases h with ⟨hpart, hback, hshortest⟩ | ⟨rfl, hnone⟩
  · rcases h' with ⟨hother, hback', hshortest'⟩ | ⟨rfl, hnone⟩
    · have hle := hshortest other hother hback'
      have hge := hshortest' part hpart hback
      have hsuffix := List.suffix_of_suffix_length_le hback hback' hle
      exact hsuffix.eq_of_length (Nat.le_antisymm hle hge)
    · exact absurd hback (hnone part hpart)
  · rcases h' with ⟨hother, hback', _⟩ | ⟨rfl, _⟩
    · exact absurd hback' (hnone other hother)
    · rfl

/-- A text has no two divisions. -/
theorem Division.Divides.unique {d d' : Division} {s : List Char} (h : d.Divides s)
    (h' : d'.Divides s) : d = d' := by
  have hs := h.append_eq.trans h'.append_eq.symm
  have hfamily := h.append_eq ▸ h.family
  have hfamily' := h'.append_eq ▸ h'.family
  obtain ⟨hfamilies, hs⟩ := hfamily.unique IsFamily.unique hfamily' hs
  obtain ⟨hupstreams, hs⟩ := h.upstream.unique IsUpstream.unique h'.upstream hs
  obtain ⟨hmethods, hs⟩ := h.method.unique IsMethod.unique h'.method hs
  have hdownstreams : d.downstream = d'.downstream := (hs ▸ h.downstream).unique h'.downstream
  rw [hdownstreams] at hs
  exact Division.ext hfamilies hupstreams hmethods (List.append_cancel_right hs) hdownstreams

/-- What is kept of a part, if it is not empty. -/
def kept (part content : List Char) : Option (List Char) :=
  if part = [] then none else some content

/-- Something is kept of a part exactly if it is not empty. -/
theorem isSome_kept (part content : List Char) :
    (kept part content).isSome = decide (part ≠ []) := by
  by_cases h : part = [] <;> simp [kept, h]

/-- What is cut off of a text: the parts without the characters that mark them. -/
def Division.parts (d : Division) : Parts where
  family := decide (d.family ≠ [])
  upstream := kept d.upstream d.upstream.dropLast
  method := kept d.method d.method.dropLast
  value := d.value
  downstream := kept d.downstream d.downstream.tail

section Cut

variable (s : List Char)

/-- The mark of a family is cut off the front. -/
theorem cutFamily_spec : ∃ part, part ++ (cutFamily s).2 = s ∧ IsFront IsFamily part s ∧
    (cutFamily s).1 = decide (part ≠ []) := by
  unfold cutFamily
  split
  · rename_i rest
    exact ⟨['@'], rfl, .inl ⟨rfl, rest, rfl⟩, rfl⟩
  · rename_i hnone
    refine ⟨[], rfl, .inr ⟨rfl, ?_⟩, rfl⟩
    rintro p rfl ⟨rest, hrest⟩
    exact hnone rest hrest.symm

/-- The upstream part is cut off the front. -/
theorem cutUpstream_spec : ∃ part, part ++ (cutUpstream s).2 = s ∧ IsFront IsUpstream part s ∧
    (cutUpstream s).1 = kept part part.dropLast := by
  unfold cutUpstream
  split
  · rename_i rest hrest
    have happend := append_of_dropWhile hrest
    have hpart : IsUpstream (s.takeWhile Char.isDigit ++ ['+']) := ⟨_, mem_takeWhile, rfl⟩
    exact ⟨_, happend, .inl ⟨hpart, rest, happend⟩, by simp [kept]⟩
  · rename_i hnone
    refine ⟨[], rfl, .inr ⟨rfl, ?_⟩, rfl⟩
    rintro p ⟨digits, hdigits, rfl⟩ hfront
    obtain ⟨-, rest, hrest⟩ := takeWhile_of_run hdigits (by decide) hfront
    exact hnone rest hrest

/-- The method is cut off the front. -/
theorem cutMethod_spec : ∃ part, part ++ (cutMethod s).2 = s ∧ IsFront IsMethod part s ∧
    (cutMethod s).1 = kept part part.dropLast := by
  unfold cutMethod
  split
  · rename_i hempty
    refine ⟨[], rfl, .inr ⟨rfl, ?_⟩, rfl⟩
    rintro p ⟨run, hne, hrun, rfl⟩ hfront
    exact hne ((takeWhile_of_run hrun (by decide) hfront).1.symm.trans hempty)
  · rename_i rest hrest hne
    have happend := append_of_dropWhile hrest
    have hpart : IsMethod (s.takeWhile isMethodChar ++ [':']) := ⟨_, hne, mem_takeWhile, rfl⟩
    exact ⟨_, happend, .inl ⟨hpart, rest, happend⟩, by simp [kept]⟩
  · rename_i hnone
    refine ⟨[], rfl, .inr ⟨rfl, ?_⟩, rfl⟩
    rintro p ⟨run, -, hrun, rfl⟩ hfront
    obtain ⟨-, rest, hrest⟩ := takeWhile_of_run hrun (by decide) hfront
    exact hnone rest hrest

/-- A downstream part is an upstream part read backwards. -/
theorem IsDownstream.reverse {p : List Char} (h : IsDownstream p) : IsUpstream p.reverse := by
  obtain ⟨digits, hdigits, rfl⟩ := h
  exact ⟨digits.reverse, fun c hc => hdigits c (List.mem_reverse.1 hc), List.reverse_cons⟩

/-- No two downstream parts stand at the back of one text. -/
theorem IsDownstream.unique {p q s : List Char} (hp : IsDownstream p) (hq : IsDownstream q)
    (hback : p <:+ s) (hback' : q <:+ s) : p = q := by
  have hfront := List.reverse_prefix.2 hback
  have hfront' := List.reverse_prefix.2 hback'
  exact List.reverse_inj.1 (hp.reverse.unique hq.reverse hfront hfront')

/-- The downstream part is cut off the back. -/
theorem cutDownstream_spec : ∃ part, (cutDownstream s).1 ++ part = s ∧
    IsBack IsDownstream part s ∧
    (cutDownstream s).2 = kept part part.tail := by
  unfold cutDownstream
  split
  · rename_i rest hrest
    have happend : rest.reverse ++ '+' :: (s.reverse.takeWhile Char.isDigit).reverse = s := by
      simpa using congrArg List.reverse (append_of_dropWhile hrest)
    have hpart : IsDownstream ('+' :: (s.reverse.takeWhile Char.isDigit).reverse) :=
      ⟨_, fun c hc => mem_takeWhile c (List.mem_reverse.1 hc), rfl⟩
    have hback : '+' :: (s.reverse.takeWhile Char.isDigit).reverse <:+ s := ⟨_, happend⟩
    refine ⟨_, happend, .inl ⟨hpart, hback, fun p hp hback' => ?_⟩, by simp [kept]⟩
    rw [hpart.unique hp hback hback']
  · rename_i hnone
    refine ⟨[], List.append_nil s, .inr ⟨rfl, fun p hp hback => ?_⟩, rfl⟩
    obtain ⟨digits, hdigits, hp⟩ := hp.reverse
    have hfront := List.reverse_prefix.2 hback
    rw [hp] at hfront
    obtain ⟨-, rest, hrest⟩ := takeWhile_of_run hdigits (by decide) hfront
    exact hnone rest hrest

/-- Cutting a text divides it. -/
theorem exists_divides : ∃ d : Division, d.Divides s ∧ cut s = d.parts := by
  obtain ⟨family, hfamily, hfront, hcutFamily⟩ := cutFamily_spec s
  obtain ⟨upstream, hupstream, hfront', hcutUpstream⟩ := cutUpstream_spec (cutFamily s).2
  obtain ⟨method, hmethod, hfront'', hcutMethod⟩ := cutMethod_spec (cutUpstream (cutFamily s).2).2
  obtain ⟨downstream, hdownstream, hback, hcutDownstream⟩ :=
    cutDownstream_spec (cutMethod (cutUpstream (cutFamily s).2).2).2
  rw [← hdownstream] at hmethod hback
  rw [← hmethod] at hupstream hfront''
  rw [← hupstream] at hfamily hfront'
  let value := (cutDownstream (cutMethod (cutUpstream (cutFamily s).2).2).2).1
  refine ⟨⟨family, upstream, method, value, downstream⟩,
    ⟨hfamily, hfront, hfront', hfront'', hback⟩, ?_⟩
  rw [Division.parts, ← hcutFamily, ← hcutUpstream, ← hcutMethod, ← hcutDownstream]
  rfl

end Cut

end DagSelect.Criterion
