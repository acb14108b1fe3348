import MarkupTrace.Number.Double
import MarkupTrace.Text.Digit

/-!
# Reading numbers

A written number has an optional sign, digits with at most one point among them, and an optional
exponent; there must be a digit beside the point and one in the exponent. The words for infinity and
NaN are understood in either case. What is read is the double nearest to the number written.
-/

namespace MarkupTrace.Double

/-- The sign in front, and what stands behind it. -/
def takeSign : List Char → Bool × List Char
  | '-' :: cs => (true, cs)
  | '+' :: cs => (false, cs)
  | cs => (false, cs)

/-- An exponent, or nothing for zero. -/
def readExponent? : List Char → Option Int
  | [] => some 0
  | c :: cs =>
    if c = 'e' ∨ c = 'E' then
      let (negative, digits) := takeSign cs
      if digits.all Char.isDigit then
        (Text.natOfDigits? 10 digits).map fun n => if negative then -(n : Int) else (n : Int)
      else none
    else none

/-- A number without a sign. -/
def readDecimal? (negative : Bool) (cs : List Char) : Option Double := do
  let whole := cs.takeWhile Char.isDigit
  let (fraction, rest) :=
    match cs.dropWhile Char.isDigit with
    | '.' :: rest => (rest.takeWhile Char.isDigit, rest.dropWhile Char.isDigit)
    | rest => ([], rest)
  let digits ← Text.natOfDigits? 10 (whole ++ fraction)
  let exponent ← readExponent? rest
  return ofDecimal negative digits (exponent - (fraction.length : Nat))

def ofChars? (cs : List Char) : Option Double :=
  let (negative, body) := takeSign cs
  let word := String.ofList (body.map Char.toLower)
  if word = "inf" ∨ word = "infinity" then some (infinite negative)
  else if word = "nan" then some nan
  else readDecimal? negative body

def ofText? (s : String) : Option Double := ofChars? s.toList

end MarkupTrace.Double
