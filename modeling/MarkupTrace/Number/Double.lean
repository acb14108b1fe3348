/-!
# Double precision numbers

The numbers of a markup module are the IEEE 754 doubles. Programs read them, compare them and write
them but never calculate, so a finite magnitude is kept as its rank: its place in the increasing
list of all finite magnitudes, zero being the first. Two numbers are then the same double exactly
when they are equal terms, save that all the NaNs are one.

Every finite magnitude is a whole number of units of `2^-1074`. The rank and the number of units
determine each other: `units` expands a rank, and `nearestRank` finds the rank whose units are
nearest to a quotient, a tie going to the even rank.
-/

namespace MarkupTrace

/-- The number of ranks between two powers of two. -/
def binadeSize : Nat := Nat.pow 2 52

/-- The number of finite magnitudes. -/
def magnitudes : Nat := 2047 * binadeSize

/-- The number of units that make one. -/
def unitsOfOne : Nat := Nat.pow 2 1074

inductive Double
  | nan
  | infinite (negative : Bool)
  | finite (negative : Bool) (rank : Fin magnitudes)
  deriving DecidableEq

namespace Double

/-- The spacing around a rank is `2 ^ binade rank` units. -/
def binade (rank : Nat) : Nat := rank / binadeSize - 1

/-- A magnitude in units of `2^-1074`. -/
def units (rank : Nat) : Nat := (rank - binade rank * binadeSize) * Nat.pow 2 (binade rank)

/-- The quotient rounded to a whole number, a half going to the even neighbour. -/
def divideToEven (num den : Nat) : Nat :=
  let q := num / den
  let r := num % den
  if 2 * r < den then q
  else if 2 * r = den ∧ q % 2 = 0 then q
  else q + 1

/-- The rank nearest to `num / den` units. It may lie past the last finite rank. -/
def nearestRank (num den : Nat) : Nat :=
  let b := (num / den).log2 - 52
  b * binadeSize + divideToEven num (den * Nat.pow 2 b)

/-- The double with that sign nearest to `num / den`. -/
def ofQuotient (negative : Bool) (num den : Nat) : Double :=
  let r := nearestRank (num * unitsOfOne) den
  if h : r < magnitudes then finite negative ⟨r, h⟩ else infinite negative

def zero : Double := finite false ⟨0, by decide⟩

instance : Inhabited Double := ⟨zero⟩

def ofNat (n : Nat) : Double := ofQuotient false n 1

def ofInt (i : Int) : Double := ofQuotient (i < 0) i.natAbs 1

def negate : Double → Double
  | nan => nan
  | infinite s => infinite !s
  | finite s r => finite (!s) r

def isNaN : Double → Bool
  | nan => true
  | _ => false

def isZero : Double → Bool
  | finite _ r => r.val == 0
  | _ => false

/-- Numeric equality: the two zeros are equal, and a NaN equals nothing. -/
def equal : Double → Double → Bool
  | nan, _ | _, nan => false
  | infinite s, infinite t => s == t
  | finite s r, finite t u => (r == u) && (s == t || r.val == 0)
  | _, _ => false

/-- The magnitude is a whole number below `bound`. -/
def isWholeBelow (bound : Nat) : Double → Bool
  | finite _ r => units r.val % unitsOfOne == 0 && units r.val / unitsOfOne < bound
  | _ => false

/-- The whole part, cut towards zero and kept within `[low, high]`; a NaN gives zero. -/
def toIntWithin (low high : Int) : Double → Int
  | nan => 0
  | infinite s => if s then low else high
  | finite s r =>
    let n : Int := (units r.val / unitsOfOne : Nat)
    max low (min high (if s then -n else n))

/-- The whole part as a signed 64-bit number. -/
def toInt64 (d : Double) : Int := d.toIntWithin (-Nat.pow 2 63) (Nat.pow 2 63 - 1 : Nat)

/-- The whole part as an unsigned 32-bit number. -/
def toNat32 (d : Double) : Nat := (d.toIntWithin 0 (Nat.pow 2 32 - 1 : Nat)).toNat

/-- `digits * 10 ^ exponent` rounded once. Far beyond the range of doubles the power is not formed:
the result is an infinity or a zero. -/
def ofDecimal (negative : Bool) (digits : Nat) (exponent : Int) : Double :=
  let top := exponent + (Nat.toDigits 10 digits).length
  if digits = 0 ∨ top < -400 then finite negative ⟨0, by decide⟩
  else if top > 400 then infinite negative
  else if 0 ≤ exponent then ofQuotient negative (digits * Nat.pow 10 exponent.toNat) 1
  else ofQuotient negative digits (Nat.pow 10 (-exponent).toNat)

end Double

end MarkupTrace
