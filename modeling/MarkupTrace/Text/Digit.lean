/-!
# Digits

The value of a digit in a radix of at most sixteen, in either case.
-/

namespace MarkupTrace.Text

def digitValue? (c : Char) : Option Nat :=
  if '0' ≤ c ∧ c ≤ '9' then some (c.toNat - '0'.toNat)
  else if 'a' ≤ c ∧ c ≤ 'f' then some (c.toNat - 'a'.toNat + 10)
  else if 'A' ≤ c ∧ c ≤ 'F' then some (c.toNat - 'A'.toNat + 10)
  else none

/-- The value of digits in a radix; `none` without any, or with one that is not below the radix. -/
def natOfDigits? (radix : Nat) (cs : List Char) : Option Nat :=
  if cs.isEmpty then none
  else cs.foldlM (fun n c => do
    let v ← digitValue? c
    if v < radix then some (n * radix + v) else none) 0

end MarkupTrace.Text
