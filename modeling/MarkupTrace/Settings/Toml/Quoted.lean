import MarkupTrace.Settings.Toml.Basic

/-!
# Quoted texts of a settings file

Texts stand between quotes, on one line, or on several between three of them. In double quotes a
backslash starts an escape; at the end of a line it joins that line with what comes next.
-/

namespace MarkupTrace.Settings.Toml

/-- The character with a number of so many hexadecimal digits. -/
def codePoint (digits : Nat) (cs : List Char) : Option (Char × List Char) := do
  if cs.length < digits then none
  let n ← Text.natOfDigits? 16 (cs.take digits)
  if n < 0xD800 ∨ (0xDFFF < n ∧ n ≤ 0x10FFFF) then return (Char.ofNat n, cs.drop digits)
  none

/-- The character that stands for an escape, behind the backslash. -/
def escape : Reader Char
  | 'b' :: cs => some ('\x08', cs)
  | 't' :: cs => some ('\t', cs)
  | 'n' :: cs => some ('\n', cs)
  | 'f' :: cs => some ('\x0c', cs)
  | 'r' :: cs => some ('\r', cs)
  | '"' :: cs => some ('"', cs)
  | '\\' :: cs => some ('\\', cs)
  | 'u' :: cs => codePoint 4 cs
  | 'U' :: cs => codePoint 8 cs
  | _ => none

/-- A text up to its quote. In double quotes a backslash starts an escape. -/
def quoted (quote : Char) : Nat → Reader (List Char)
  | 0, _ => none
  | n + 1, cs =>
    match cs with
    | [] => none
    | c :: rest =>
      if c = quote then some ([], rest)
      else if c = '\\' ∧ quote = '"' then do
        let (x, rest) ← escape rest
        let (xs, rest) ← quoted quote n rest
        return (x :: xs, rest)
      else if isPlain c then do
        let (xs, rest) ← quoted quote n rest
        return (c :: xs, rest)
      else none

/-- Behind blanks and line breaks, of which there must be one before anything else. -/
def continueLine (cs : List Char) : Option (List Char) := do
  let rest ← lineBreak? (skipGaps cs)
  return skipBlankLines rest

/-- A text over several lines, up to three quotes; two more may stand before these. -/
def quotedLines (quote : Char) : Nat → Reader (List Char)
  | 0, _ => none
  | n + 1, cs =>
    match cs with
    | [] => none
    | c :: rest =>
      let quotes := (cs.takeWhile (· = quote)).length
      if quotes ≥ 3 then
        if quotes ≤ 5 then some (List.replicate (quotes - 3) quote, cs.drop quotes) else none
      else if c = '\\' ∧ quote = '"' then
        match continueLine rest with
        | some rest => quotedLines quote n rest
        | none => do
          let (x, rest) ← escape rest
          let (xs, rest) ← quotedLines quote n rest
          return (x :: xs, rest)
      else
        match lineBreak? cs with
        | some rest => do
          let (xs, rest) ← quotedLines quote n rest
          return ('\n' :: xs, rest)
        | none =>
          if isPlain c then do
            let (xs, rest) ← quotedLines quote n rest
            return (c :: xs, rest)
          else none

/-- A text in the given quotes. A line break right behind three of them does not count. -/
def textIn (quote : Char) (cs : List Char) : Option (String × List Char) := do
  let (xs, rest) ← match expect (String.ofList [quote, quote, quote]) cs with
    | some rest => quotedLines quote (cs.length + 1) ((lineBreak? rest).getD rest)
    | none => quoted quote (cs.length + 1) (cs.drop 1)
  return (String.ofList xs, rest)

end MarkupTrace.Settings.Toml
