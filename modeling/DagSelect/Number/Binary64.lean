/-!
# Rounding to 53 binary digits

A written number denotes the nearest binary fraction with 53 significant digits and an exponent in
the range of the IEEE double format; of two that are equally near, the one with the even last
digit. Magnitudes that round to 2^1024 or more have no such value. Everything here is exact
arithmetic on natural numbers.
-/

namespace DagSelect.Number

/-- A positive binary fraction, or zero: `significand * 2 ^ exponent`. -/
structure Binary64 where
  significand : Nat
  exponent : Int
  deriving DecidableEq, Repr

/-- The quotient rounded to the nearest natural number, halves to the even one. -/
def roundDiv (num den : Nat) : Nat :=
  let q := num / den
  let r := num % den
  if 2 * r < den then q
  else if den < 2 * r then q + 1
  else if q % 2 = 0 then q else q + 1

/-- The power `base ^ e` as a fraction with one part equal to one. -/
def powerParts (base : Nat) (e : Int) : Nat × Nat :=
  (Nat.pow base e.toNat, Nat.pow base (-e).toNat)

/-- The largest `k` with `base ^ k ≤ num / den`, for a positive fraction and a digit count of both
that is right up to one. -/
def floorLog (base : Nat) (guess : Int) (num den : Nat) : Int :=
  let (up, down) := powerParts base guess
  if den * up ≤ num * down then guess else guess - 1

namespace Binary64

/-- The value as a fraction. -/
def parts (b : Binary64) : Nat × Nat :=
  let (up, down) := powerParts 2 b.exponent
  (b.significand * up, down)

/-- The value nearest to the fraction `num / den`; none if it would be 2^1024 or more. -/
def nearest (num den : Nat) : Option Binary64 :=
  if num = 0 then some ⟨0, 0⟩
  else
    let log := floorLog 2 ((Nat.log2 num : Int) - (Nat.log2 den : Int)) num den
    let e := max (-1074) (log - 52)
    let (up, down) := powerParts 2 e
    let m := roundDiv (num * down) (den * up)
    let b : Binary64 := if m = Nat.pow 2 53 then ⟨Nat.pow 2 52, e + 1⟩ else ⟨m, e⟩
    if 971 < b.exponent then none else some b

end Binary64

end DagSelect.Number
