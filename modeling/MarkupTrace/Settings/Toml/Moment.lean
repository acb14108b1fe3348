import MarkupTrace.Settings.Toml.Basic

/-!
# Dates and times of a settings file

A moment is a date, a time of day, or both, and then perhaps with its distance from universal time.
It is kept in parts, so that it is written in one way however it was given: with a `T` before the
time, a capital `Z`, and no zeros at the end of a fraction.
-/

namespace MarkupTrace.Settings.Toml

structure Date where
  year : Nat
  month : Nat
  day : Nat
  deriving DecidableEq, Repr

structure Time where
  hour : Nat
  minute : Nat
  second : Nat
  nanosecond : Nat
  deriving DecidableEq, Repr

/-- Distance from universal time. -/
inductive Offset
  | universal
  | minutes (ahead : Int)
  deriving DecidableEq, Repr

inductive Moment
  | date (date : Date)
  | time (time : Time)
  | both (date : Date) (time : Time) (offset : Option Offset)
  deriving DecidableEq, Repr

/-! ## Reading -/

def isLeapYear (year : Nat) : Bool := year % 4 = 0 && (year % 100 ≠ 0 || year % 400 = 0)

/-- The number of days of a month. -/
def daysOf (year month : Nat) : Nat :=
  if month = 2 then if isLeapYear year then 29 else 28
  else if month = 4 ∨ month = 6 ∨ month = 9 ∨ month = 11 then 30
  else 31

def date : Reader Date := fun cs => do
  let (year, cs) ← field 4 0 9999 cs
  let (month, cs) ← field 2 1 12 (← expect "-" cs)
  let (day, cs) ← field 2 1 (daysOf year month) (← expect "-" cs)
  return (⟨year, month, day⟩, cs)

/-- A fraction of a second in nanoseconds, if one stands in front. Further digits are dropped. -/
def fraction (cs : List Char) : Nat × List Char :=
  match cs with
  | '.' :: rest =>
    let found := rest.takeWhile Char.isDigit
    match Text.natOfDigits? 10 ((found ++ List.replicate 9 '0').take 9) with
    | some n => if found.isEmpty then (0, cs) else (n, rest.dropWhile Char.isDigit)
    | none => (0, cs)
  | _ => (0, cs)

/-- A time of day. The second may be a leap second. -/
def time : Reader Time := fun cs => do
  let (hour, cs) ← field 2 0 23 cs
  let (minute, cs) ← field 2 0 59 (← expect ":" cs)
  let (second, cs) ← field 2 0 60 (← expect ":" cs)
  let (nanosecond, cs) := fraction cs
  return (⟨hour, minute, second, nanosecond⟩, cs)

def offset : Reader Offset
  | 'Z' :: cs | 'z' :: cs => some (.universal, cs)
  | c :: cs => do
    if c ≠ '+' ∧ c ≠ '-' then none
    let (hour, cs) ← field 2 0 23 cs
    let (minute, cs) ← field 2 0 59 (← expect ":" cs)
    let ahead : Int := hour * 60 + minute
    return (.minutes (if c = '-' then -ahead else ahead), cs)
  | [] => none

/-- A time behind a date, with its offset, if any. -/
def timeOfDate : Reader (Time × Option Offset)
  | c :: cs => do
    if c ≠ 'T' ∧ c ≠ 't' ∧ c ≠ ' ' then none
    let (t, cs) ← time cs
    match offset cs with
    | some (o, cs) => return ((t, some o), cs)
    | none => return ((t, none), cs)
  | [] => none

def moment : Reader Moment := fun cs =>
  match date cs with
  | some (d, cs) =>
    match timeOfDate cs with
    | some ((t, o), cs) => some (.both d t o, cs)
    | none => some (.date d, cs)
  | none => (time cs).map fun (t, cs) => (.time t, cs)

/-! ## Writing -/

/-- In so many columns at least, filled up with zeros. -/
def padded (columns n : Nat) : String :=
  let digits := toString n
  String.ofList (List.replicate (columns - digits.length) '0') ++ digits

def Date.text (d : Date) : String :=
  padded 4 d.year ++ "-" ++ padded 2 d.month ++ "-" ++ padded 2 d.day

def Time.text (t : Time) : String :=
  let whole := padded 2 t.hour ++ ":" ++ padded 2 t.minute ++ ":" ++ padded 2 t.second
  if t.nanosecond = 0 then whole
  else
    let digits := (padded 9 t.nanosecond).toList.reverse.dropWhile (· = '0')
    whole ++ "." ++ String.ofList digits.reverse

def Offset.text : Offset → String
  | universal => "Z"
  | minutes ahead =>
    (if ahead < 0 then "-" else "+") ++ padded 2 (ahead.natAbs / 60) ++ ":" ++
      padded 2 (ahead.natAbs % 60)

def Moment.text : Moment → String
  | date d => d.text
  | time t => t.text
  | both d t offset => d.text ++ "T" ++ t.text ++ (offset.map Offset.text).getD ""

end MarkupTrace.Settings.Toml
