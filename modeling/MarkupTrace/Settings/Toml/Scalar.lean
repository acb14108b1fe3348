import MarkupTrace.Data.Basic
import MarkupTrace.Number.Read
import MarkupTrace.Settings.Toml.Moment
import MarkupTrace.Settings.Toml.Quoted

/-!
# Scalars of a settings file

Texts in quotes, and what stands without quotes: truth values, dates and times, which are kept as
texts, integers of 64 bits, and floating numbers.
-/

namespace MarkupTrace.Settings.Toml

def integer? (negative : Bool) (radix : Nat) (digits : List Char) : Option Data := do
  let n ← Text.natOfDigits? radix digits
  let i : Int := if negative then -n else n
  if -Nat.pow 2 63 ≤ i ∧ i < Nat.pow 2 63 then return .int i
  none

/-- The whole digits of a decimal number: no zero stands in front of others. -/
def wholeDigits : Reader (List Char)
  | '0' :: cs => some (['0'], cs)
  | cs => digits Char.isDigit cs

/-- A point and the digits behind it; nothing if there is no point. -/
def pointDigits : Reader (List Char)
  | '.' :: cs => (digits Char.isDigit cs).map fun (ds, cs) => ('.' :: ds, cs)
  | cs => some ([], cs)

/-- An exponent with its sign; nothing if there is no letter for it. -/
def exponent : Reader (List Char)
  | c :: cs => do
    if c ≠ 'e' ∧ c ≠ 'E' then return ([], c :: cs)
    let (negative, cs) := Double.takeSign cs
    let (ds, cs) ← digits Char.isDigit cs
    return ((if negative then ['e', '-'] else ['e']) ++ ds, cs)
  | [] => some ([], [])

/-- A decimal number without its sign. It is an integer unless it has a point or an exponent. A
number that is too large to be a double is refused, a negative one is an infinity. -/
def decimal (negative : Bool) : Reader Data := fun cs => do
  let (whole, cs) ← wholeDigits cs
  let (fraction, cs) ← pointDigits cs
  let (power, cs) ← exponent cs
  if fraction.isEmpty ∧ power.isEmpty then return (← integer? negative 10 whole, cs)
  let d ← Double.readDecimal? negative (whole ++ fraction ++ power)
  if d = .infinite false then none
  return (.float d, cs)

/-- Digits of a radix behind its mark. -/
def radixNumber (radix : Nat) : Reader Data := fun cs => do
  let isDigit : Char → Bool := fun c => (Text.digitValue? c).any fun d => d < radix
  let (ds, cs) ← digits isDigit cs
  return (← integer? false radix ds, cs)

/-- A number with its sign, if any. -/
def signed : Reader Data := fun cs =>
  let (negative, cs) := Double.takeSign cs
  match cs with
  | 'i' :: 'n' :: 'f' :: cs => some (.float (.infinite negative), cs)
  | 'n' :: 'a' :: 'n' :: cs => some (.float .nan, cs)
  | cs => decimal negative cs

def number : Reader Data
  | '0' :: 'x' :: cs => radixNumber 16 cs
  | '0' :: 'o' :: cs => radixNumber 8 cs
  | '0' :: 'b' :: cs => radixNumber 2 cs
  | cs => signed cs

def truth : Reader Data := fun cs =>
  match expect "true" cs with
  | some cs => some (.bool true, cs)
  | none => (expect "false" cs).map fun cs => (.bool false, cs)

/-- A scalar without quotes. -/
def bare : Reader Data := fun cs =>
  match truth cs with
  | some found => some found
  | none =>
    match moment cs with
    | some (m, cs) => some (.text m.text, cs)
    | none => number cs

/-- A scalar. -/
def scalar : Reader Data := fun cs =>
  match cs with
  | '"' :: _ => (textIn '"' cs).map fun (s, rest) => (.text s, rest)
  | '\x27' :: _ => (textIn '\x27' cs).map fun (s, rest) => (.text s, rest)
  | _ => bare cs

end MarkupTrace.Settings.Toml
