import MarkupTrace.Number.Shortest

/-!
# Written numbers

Two forms of a double. The plain form has no exponent at any size: digits, and a point with further
digits only where needed. The data form is that of JSON and YAML: a whole number keeps `.0`, and
from `10 ^ 16` on and below `10 ^ -5` an exponent is used.
-/

namespace MarkupTrace.Double

def zeros (n : Nat) : String := String.ofList (List.replicate n '0')

/-- The digits of a decimal with the point `point` places from their start. -/
def placePoint (digits : String) (point : Int) : String :=
  if point ≤ 0 then "0." ++ zeros (-point).toNat ++ digits
  else if digits.length ≤ point.toNat then digits ++ zeros (point.toNat - digits.length)
  else String.ofList (digits.toList.take point.toNat) ++ "." ++
    String.ofList (digits.toList.drop point.toNat)

def sign (negative : Bool) : String := if negative then "-" else ""

/-- The plain form. -/
def plain : Double → String
  | nan => "NaN"
  | infinite s => sign s ++ "inf"
  | finite s r =>
    if r.val = 0 then sign s ++ "0"
    else
      let d := Decimal.shortest .up r.val
      let digits := toString d.digits
      sign s ++ placePoint digits (digits.length + d.exponent)

/-- The marks of an exponent in the data form. -/
structure ExponentMarks where
  positive : String
  negative : String

/-- JSON writes `1e+16` and `1e-7`. -/
def jsonMarks : ExponentMarks := ⟨"e+", "e-"⟩

/-- YAML writes `1e16` and `1e-7`. -/
def yamlMarks : ExponentMarks := ⟨"e", "e-"⟩

/-- The data form of a finite magnitude. -/
def dataMagnitude (marks : ExponentMarks) (r : Nat) : String :=
  if r = 0 then "0.0"
  else
    let d := Decimal.shortest .even r
    let digits := toString d.digits
    let point : Int := digits.length + d.exponent
    if -5 < point ∧ point ≤ 16 then
      let text := placePoint digits point
      if digits.length ≤ point then text ++ ".0" else text
    else
      let rest := String.ofList (digits.toList.drop 1)
      let e := point - 1
      String.ofList (digits.toList.take 1) ++ (if rest = "" then "" else "." ++ rest) ++
        (if e < 0 then marks.negative else marks.positive) ++ toString e.natAbs

end MarkupTrace.Double
