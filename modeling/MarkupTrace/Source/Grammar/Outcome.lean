import MarkupTrace.Source.Token

/-!
# Parsers that remember the furthest failure

A parser reads the first of the tokens that are left. When it fails it says where and over which
token; when it succeeds it may still carry an alternative, the furthest failure of something it
tried on the way. The rules by which failures are weighed against each other decide which one is
reported at the end, so every combinator states its own.

How far a parser got is measured by the number of tokens left: the fewer, the further.
-/

namespace MarkupTrace.Source.Grammar

/-- The tokens that are left, with their number. -/
structure Input where
  tokens : List Token
  left : Nat
  left_eq : left = tokens.length

namespace Input

def ofTokens (tokens : List Token) : Input := ⟨tokens, tokens.length, rfl⟩

/-- The first token and what is left behind it. -/
def next? (input : Input) : Option (Token × Input) :=
  match input with
  | ⟨[], _, _⟩ => none
  | ⟨t :: rest, left, h⟩ => some (t, ⟨rest, left - 1, by simp [h]⟩)

theorem left_lt_of_next? {input rest : Input} {t : Token} (h : input.next? = some (t, rest)) :
    rest.left < input.left := by
  obtain ⟨tokens, left, hl⟩ := input
  cases tokens with
  | nil => simp [next?] at h
  | cons u us =>
    simp only [next?, Option.some.injEq, Prod.mk.injEq] at h
    obtain ⟨-, rfl⟩ := h
    simp only [List.length_cons] at hl
    show left - 1 < left
    omega

end Input

/-- The construct that a failure is charged to. -/
inductive Charge
  | none
  | one (name : String)
  | several
  deriving DecidableEq, Repr

namespace Charge

def merge : Charge → Charge → Charge
  | .none, c => c
  | c, .none => c
  | .one a, .one b => if a = b then .one a else .several
  | _, _ => .several

/-- A single charge stays; anything else becomes the given one. -/
def settle (name : String) : Charge → Charge
  | .one a => .one a
  | _ => .one name

end Charge

/-- A failure with that many tokens left, over the token `found`. -/
structure Blame where
  left : Nat
  found : Option Token
  charge : Charge
  deriving DecidableEq, Repr

namespace Blame

/-- The failure at the first token that is left. -/
def here (rest : Input) : Blame := ⟨rest.left, rest.tokens.head?, .none⟩

/-- The further of two failures; at the same place the first one's token and both charges. -/
def furthest (a b : Blame) : Blame :=
  if a.left < b.left then a
  else if b.left < a.left then b
  else { a with charge := a.charge.merge b.charge }

def settle (name : String) (b : Blame) : Blame := { b with charge := b.charge.settle name }

/-- An alternative met earlier and one met later. -/
def merge : Option Blame → Option Blame → Option Blame
  | some a, some b => some (furthest b a)
  | some a, none => some a
  | none, b => b

end Blame

inductive Outcome (α : Type) where
  | done (value : α) (rest : Input) (alternative : Option Blame)
  | failed (blame : Blame)

def Parser (α : Type) := Input → Outcome α

namespace Parser

variable {α β γ : Type}

/-- One token that `accept` takes. -/
def single (accept : Token → Option α) : Parser α := fun input =>
  match input.next? with
  | none => .failed (Blame.here input)
  | some (t, rest) =>
    match accept t with
    | some a => .done a rest none
    | none => .failed (Blame.here input)

def satisfy (p : Token → Bool) : Parser Token := single fun t => if p t then some t else none

def map (p : Parser α) (f : α → β) : Parser β := fun input =>
  match p input with
  | .done a rest alt => .done (f a) rest alt
  | .failed b => .failed b

/-- One after the other. A failure of the second is weighed against the first one's alternative. -/
def both (p : Parser α) (q : Parser β) : Parser (α × β) := fun input =>
  match p input with
  | .failed b => .failed b
  | .done a rest alt =>
    match q rest with
    | .done b rest' alt' => .done (a, b) rest' (Blame.merge alt alt')
    | .failed b =>
      match alt with
      | some earlier => .failed (b.furthest earlier)
      | none => .failed b

/-- Both, keeping the first value. -/
def skip (p : Parser α) (q : Parser β) : Parser α := (p.both q).map (·.1)

/-- Both, keeping the second value. -/
def before (p : Parser α) (q : Parser β) : Parser β := (p.both q).map (·.2)

/-- The first, or else the second from the same place. -/
def orElse (p q : Parser α) : Parser α := fun input =>
  match p input with
  | .done a rest alt => .done a rest alt
  | .failed b =>
    match q input with
    | .done a rest alt => .done a rest alt
    | .failed c => .failed (b.furthest c)

/-- The first of a list that succeeds, after `alt` was met. Only when none does are the failures
merged. -/
def firstAfter (alt : Option Blame) : List (Parser α) → Parser α
  | [], input => .failed (alt.getD (Blame.here input))
  | p :: ps, input =>
    match p input with
    | .done a rest alt' => .done a rest alt'
    | .failed b => firstAfter (Blame.merge alt (some b)) ps input

def firstOf (ps : List (Parser α)) : Parser α := firstAfter none ps

/-- Reads nothing where the parser fails, and keeps the failure as the alternative. -/
def optional (p : Parser α) : Parser (Option α) := fun input =>
  match p input with
  | .done a rest alt => .done (some a) rest alt
  | .failed b => .done none input (some b)

/-- As many as there are, after `alt` was met. A success that reads nothing ends the repetition. -/
def manyAfter (p : Parser α) (alt : Option Blame) (input : Input) : Outcome (List α) :=
  match p input with
  | .failed b => .done [] input (Blame.merge alt (some b))
  | .done a rest alt' =>
    let alt := Blame.merge alt alt'
    if rest.left < input.left then
      match manyAfter p alt rest with
      | .done as rest' alt => .done (a :: as) rest' alt
      | .failed b => .failed b
    else .done [a] rest alt
termination_by input.left

def many (p : Parser α) : Parser (List α) := manyAfter p none

/-- At least one. -/
def many1 (p : Parser α) : Parser (List α) := fun input =>
  match p input with
  | .failed b => .failed b
  | .done a rest alt =>
    match manyAfter p alt rest with
    | .done as rest' alt => .done (a :: as) rest' alt
    | .failed b => .failed b

/-- Further items, each behind a separator. Gives also the failure that ended them. -/
def itemsAfter (p : Parser α) (separator : Parser β) (alt : Option Blame) (input : Input) :
    List α × Input × Option Blame × Option Blame :=
  match separator input with
  | .failed b => ([], input, alt, some b)
  | .done _ rest alt₁ =>
    let alt := Blame.merge alt alt₁
    match p rest with
    | .failed b => ([], input, alt, some b)
    | .done a rest' alt₂ =>
      let alt := Blame.merge alt alt₂
      if rest'.left < input.left then
        let (as, rest'', alt, ended) := itemsAfter p separator alt rest'
        (a :: as, rest'', alt, ended)
      else ([a], rest', alt, none)
termination_by input.left

/-- Items with separators between them and perhaps one more after the last. It never fails. -/
def separated (p : Parser α) (separator : Parser β) : Parser (List α) := fun input =>
  match p input with
  | .failed b => .done [] input (some b)
  | .done a rest alt =>
    let (as, rest, alt, ended) := itemsAfter p separator alt rest
    match separator rest with
    | .done _ rest' alt' => .done (a :: as) rest' (Blame.merge (Blame.merge alt alt') ended)
    | .failed b => .done (a :: as) rest (Blame.merge (Blame.merge alt (some b)) ended)

/-- Tokens up to and with the first place where `p` succeeds, after `alt` was met. -/
def throughAfter (p : Parser α) (alt : Option Blame) (input : Input) : Outcome α :=
  match p input with
  | .done a rest alt' => .done a rest (Blame.merge alt alt')
  | .failed b =>
    match _h : input.next? with
    | none => .failed b
    | some (_, rest) => throughAfter p (Blame.merge alt (some b)) rest
termination_by input.left
decreasing_by exact Input.left_lt_of_next? ‹_›

def through (p : Parser α) : Parser α := throughAfter p none

/-- A value that `f` refuses is a failure behind what was read, over no token. -/
def refine (p : Parser α) (f : α → Option β) : Parser β := fun input =>
  match p input with
  | .failed b => .failed b
  | .done a rest alt =>
    match f a with
    | some b => .done b rest alt
    | none => .failed ⟨rest.left, none, .none⟩

/-- Failures inside are charged to a construct. -/
def charged (p : Parser α) (name : String) : Parser α := fun input =>
  match p input with
  | .done a rest alt => .done a rest (alt.map (Blame.settle name))
  | .failed b => .failed (b.settle name)

/-- No token is left. -/
def atEnd : Parser Unit := fun input =>
  match input.next? with
  | none => .done () input none
  | some _ => .failed (Blame.here input)

/-- A parser defined through itself, usable inside itself only where fewer tokens are left. -/
def recursive (body : Parser α → Parser α) (input : Input) : Outcome α :=
  body (fun rest =>
    if rest.left < input.left then recursive body rest else .failed (Blame.here rest)) input
termination_by input.left

end Parser

end MarkupTrace.Source.Grammar
