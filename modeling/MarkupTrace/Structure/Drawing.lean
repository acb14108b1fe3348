import MarkupTrace.Structure.Entry

/-!
# Drawn structures

A structure is drawn with one line per entry, below a line with the number of its roots. Box
characters in front of an entry show its depth and whether it is the last of its siblings. Behind
them stand the node and then the contributors with their locations.
-/

namespace MarkupTrace.Structure

open Render

/-- At most so many characters; behind a cut stand three dots. -/
def shorten (limit : Nat) (s : String) : String :=
  if s.length > limit then String.ofList (s.toList.take limit) ++ "..." else s

/-- The longest label of a node. -/
def labelLimit : Nat := 30

/-- The mark of an entry without a node. -/
def noNode : String := "∅"

def Contributor.display (c : Contributor) : String := c.component.display ++ " " ++ c.location.text

def Entry.label (document : Document) (e : Entry) : String :=
  let node := match e.node with
    | some id => shorten labelLimit (document.describe id)
    | none => noNode
  if e.contributors.isEmpty then node
  else node ++ " ← " ++ ", ".intercalate (e.contributors.map Contributor.display)

/-- What stands before a label. -/
def connector (isLast : Bool) : String := if isLast then "└─ " else "├─ "

/-- What stands in the lines below an entry. -/
def cell (isLast : Bool) : String := if isLast then "  " else "│ "

mutual

/-- The line of an entry and those below it, all behind `margin`. -/
def drawEntry (document : Document) (margin : String) (isLast : Bool) : Entry → String
  | .mk node contributors children =>
    margin ++ connector isLast ++ Entry.label document (.mk node contributors children) ++ "\n" ++
      drawEntries document (margin ++ cell isLast) children

def drawEntries (document : Document) (margin : String) : List Entry → String
  | [] => ""
  | e :: es => drawEntry document margin es.isEmpty e ++ drawEntries document margin es

end

def draw (document : Document) (entries : List Entry) : String :=
  s!"⧉ {entries.length} root(s)\n" ++ drawEntries document "" entries

end MarkupTrace.Structure
