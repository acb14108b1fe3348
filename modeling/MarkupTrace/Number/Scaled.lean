import MarkupTrace.Number.Double

/-!
# Decimals read in steps

Data texts give a number as whole digits and a power of ten. The digits are rounded to a double, the
power is rounded to a double, and their product or quotient is rounded again. For up to fifteen
digits and small powers the result is the nearest double; beyond that it can differ from it in the
last place.
-/

namespace MarkupTrace.Double

/-- The units of a finite magnitude; zero for the other doubles. -/
def magnitudeUnits : Double → Nat
  | finite _ r => units r.val
  | _ => 0

/-- The rounded product of two finite magnitudes. -/
def timesMagnitude (a b : Double) : Double :=
  ofQuotient false (a.magnitudeUnits * b.magnitudeUnits) (unitsOfOne * unitsOfOne)

/-- The rounded quotient of two finite magnitudes. -/
def overMagnitude (a b : Double) : Double := ofQuotient false a.magnitudeUnits b.magnitudeUnits

def powerOfTen (n : Nat) : Double := ofNat (Nat.pow 10 n)

/-- `magnitude * 10 ^ exponent`, the power taken in steps of at most `10 ^ 308`. `none` when the
result is past the largest double. -/
def scale : Nat → Double → Int → Option Double
  | 0, f, _ => some f
  | steps + 1, f, exponent =>
    if exponent.natAbs ≤ 308 then
      if 0 ≤ exponent then
        match timesMagnitude f (powerOfTen exponent.natAbs) with
        | infinite _ => none
        | product => some product
      else some (overMagnitude f (powerOfTen exponent.natAbs))
    else if f.isZero then some f
    else if 0 ≤ exponent then none
    else scale steps (overMagnitude f (powerOfTen 308)) (exponent + 308)

/-- Digits below `2 ^ 64` times a power of ten. Dividing by `10 ^ 308` three times leaves zero, so
four steps are enough. -/
def ofScaled (negative : Bool) (digits : Nat) (exponent : Int) : Option Double :=
  (scale 4 (ofNat digits) exponent).map fun f => if negative then f.negate else f

end MarkupTrace.Double
