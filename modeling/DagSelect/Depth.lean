import DagSelect.Json.Printer
import DagSelect.Number.Binary64
import DagSelect.Text.KeyOrder

/-!
# Depth bounds

A neighbourhood is bounded by a depth, which may be any number: fractional, negative or without
end. The layer at distance `k` is searched further exactly if `k` lies below the bound, so the
number of rounds of a search is the bound rounded up, and none for a bound that is not positive. A
written bound denotes the nearest binary fraction of 53 digits.

The undefined result of a computation, which is a floating-point value but no number, is not among
the bounds: no written bound denotes it. A search that is given it goes on without a bound.
-/

namespace DagSelect

/-- A bound on the distance of a neighbourhood. -/
inductive Depth where
  | lowest
  | finite (value : Rat)
  | unbounded
  deriving DecidableEq

namespace Depth

/-- The bound that is a natural number. -/
def ofNat (n : Nat) : Depth :=
  .finite (mkRat n 1)

/-- The bound that `mantissa * 10 ^ exponent` denotes when it is written. Exponents that lead out of
range on either side are decided without computing the power. -/
def ofDecimal (mantissa exponent : Int) : Depth :=
  let magnitude := mantissa.natAbs
  let length := ((Json.natText magnitude).length : Int)
  let endless := if mantissa < 0 then lowest else unbounded
  if magnitude = 0 then ofNat 0
  else if 310 < length + exponent then endless
  else if length + exponent < -330 then ofNat 0
  else
    let (up, down) := Number.powerParts 10 exponent
    match Number.Binary64.nearest (magnitude * up) down with
    | none => endless
    | some b =>
      let (num, den) := b.parts
      .finite (mkRat (if mantissa < 0 then -(num : Int) else num) den)

/-- The bound that a run of decimal digits denotes. -/
def ofNumeral (digits : List Char) : Depth :=
  ofDecimal (Text.decimalValue digits) 0

/-- How many rounds a search makes under an optional bound, when no search needs more than `cap`. -/
def rounds (cap : Nat) : Option Depth → Nat
  | none => cap
  | some .unbounded => cap
  | some .lowest => 0
  | some (.finite q) => min cap q.ceil.toNat

end Depth

end DagSelect
