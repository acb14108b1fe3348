import MarkupTrace.Structure.Entry
import MarkupTrace.Structure.ExpressionMap

/-!
# Reconciling children

The children that an element was given are matched with the children recorded for it. Either they
are as a whole the first recorded child, or they are an array whose items are matched in order: a
recorded child is used up by the item it matches, and items that match nothing, or are not truthy,
use up none.

A match is a group of contributors: what the map knows of the value, unless the recorded child is a
text, and then the recorded child itself.
-/

namespace MarkupTrace.Structure

/-- What the map knows of a value; of an array, what it knows of the items. -/
def lookUp (map : ExpressionMap) (value : Value) : List Contributor :=
  (leaves value).flatMap fun v =>
    (map.get v).map fun x => .pseudo x.isExpression x.location v

/-- The group of a value and a recorded child; empty if they are not the same. -/
def matchGroup (map : ExpressionMap) (value : Value) (x : Recorded) : List Contributor :=
  if x.value.strictEq value then
    if x.isExpression then lookUp map value ++ [.ofRecorded x] else [.ofRecorded x]
  else []

/-- One group per item. -/
def matchItems (map : ExpressionMap) : List Value → List Recorded → List (List Contributor)
  | [], _ => []
  | _ :: items, [] => [] :: matchItems map items []
  | item :: items, x :: xs =>
    let group := if item.isTruthy then matchGroup map item x else []
    group :: matchItems map items (if group.isEmpty then x :: xs else xs)

/-- The groups of the children by position. -/
def reconcile (children : Value) (recorded : List Recorded) (map : ExpressionMap) :
    List (List Contributor) :=
  match recorded with
  | [] => []
  | first :: _ =>
    if children.isTruthy then
      let whole := matchGroup map children first
      if whole.isEmpty then
        match children with
        | .array _ items => matchItems map items recorded
        | _ => []
      else [whole]
    else []

end MarkupTrace.Structure
