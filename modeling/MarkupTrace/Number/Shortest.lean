import MarkupTrace.Number.Double

/-!
# Shortest decimals

A finite magnitude is written with the fewest decimal digits that read back as it. Among the
decimals with `n` digits only the two neighbours of the exact value can be nearest to it, so the
search looks at these for `n = 1, …, 17` and takes the first that reads back, the nearer one if both
do. How an exact tie between the two goes is for the format to say. Should no such decimal be found
the exact expansion, which is always finite, is taken; so whatever the search returns reads back.
-/

namespace MarkupTrace

/-- `digits * 10 ^ exponent`. -/
structure Decimal where
  digits : Nat
  exponent : Int
  deriving DecidableEq, Repr

namespace Decimal

/-- Zeros at the end of the digits are moved into the exponent. -/
def normalize (d : Decimal) : Decimal :=
  if h : d.digits ≠ 0 ∧ d.digits % 10 = 0 then
    normalize ⟨d.digits / 10, d.exponent + 1⟩
  else d
termination_by d.digits
decreasing_by omega

/-- Which neighbour wins when the value is exactly between two that read back. -/
inductive Tie
  | up
  | even
  deriving DecidableEq

/-- The rank that a decimal reads back as. -/
def rank (d : Decimal) : Option Nat :=
  match Double.ofDecimal false d.digits d.exponent with
  | .finite _ r => some r.val
  | _ => none

/-- The largest `e` with `10 ^ e * den ≤ num`, searched downwards from `fuel - 400`. -/
def magnitudeFrom (num den : Nat) : Nat → Int
  | 0 => -400
  | n + 1 =>
    let e : Int := (n : Int) - 400
    let fits :=
      if 0 ≤ e then Nat.pow 10 e.toNat * den ≤ num else den ≤ num * Nat.pow 10 (-e).toNat
    if fits then e else magnitudeFrom num den n

/-- The exponent of the leading decimal digit of `num / den`. -/
def magnitude (num den : Nat) : Int := magnitudeFrom num den 720

/-- The decimals with exponent `e` next to `num / den`, the nearer one first. -/
def neighbours (tie : Tie) (num den : Nat) (e : Int) : List Decimal :=
  let num' := if 0 ≤ e then num else num * Nat.pow 10 (-e).toNat
  let den' := if 0 ≤ e then den * Nat.pow 10 e.toNat else den
  let q := num' / den'
  let r := num' % den'
  if r = 0 then [⟨q, e⟩]
  else
    let upFirst := 2 * r > den' ∨ (2 * r = den' ∧ (tie = .up ∨ q % 2 = 1))
    if upFirst then [⟨q + 1, e⟩, ⟨q, e⟩] else [⟨q, e⟩, ⟨q + 1, e⟩]

/-- The candidates for `num / den`, from one digit to seventeen. -/
def candidates (tie : Tie) (num den : Nat) : List Decimal :=
  let top := magnitude num den
  (List.range 17).flatMap fun (n : Nat) => neighbours tie num den (top - (n : Int))

/-- The value of a rank written out in full. -/
def exact (r : Nat) : Decimal := ⟨Double.units r * Nat.pow 5 1074, -1074⟩

/-- The shortest decimal of a rank. -/
def shortest (tie : Tie) (r : Nat) : Decimal :=
  if r = 0 then ⟨0, 0⟩
  else
    match (candidates tie (Double.units r) unitsOfOne).find? fun d => d.rank == some r with
    | some d => d.normalize
    | none => (exact r).normalize

end Decimal

end MarkupTrace
