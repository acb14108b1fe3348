import MarkupTrace.Proofs.ReadParts
import Mathlib.Algebra.Group.Basic

/-!
# What is counted

The counts of an annotation are made on the way through a module. They are counts over its elements:
of those whose author wrote no `__source`, of the texts that show and the containers directly inside
of these, and of the attributes that the author wrote.
-/

namespace MarkupTrace.Source

open Annotate

def Part.element? : Part → Option Element
  | .element e => some e
  | .location _ => none

/-- The elements among the parts of a tree. -/
def elementsIn (parts : List Part) : List Element := parts.filterMap Part.element?

/-- The elements of a module, at any depth. -/
def Module.elements (m : Module) : List Element := elementsIn m.parts

@[simp] theorem elementsIn_nil : elementsIn [] = [] := rfl

@[simp] theorem elementsIn_append (xs ys : List Part) :
    elementsIn (xs ++ ys) = elementsIn xs ++ elementsIn ys := List.filterMap_append

@[simp] theorem elementsIn_element (e : Element) (ps : List Part) :
    elementsIn (.element e :: ps) = e :: elementsIn ps := rfl

@[simp] theorem elementsIn_location (l : LocationLiteral) (ps : List Part) :
    elementsIn (.location l :: ps) = elementsIn ps := rfl

def Child.isShownText : Child → Bool
  | .text t => t.isSignificant
  | _ => false

/-- A container with an expression. -/
def Child.isContainer : Child → Bool
  | .container _ _ => true
  | _ => false

theorem Child.isWrappable_eq (c : Child) : c.isWrappable = (c.isShownText || c.isContainer) := by
  cases c with
  | text t => exact (Bool.or_false _).symm
  | container value span => rfl
  | emptyContainer span => rfl
  | element e => rfl

/-- The elements whose author wrote no `__source`. -/
def unplaced (es : List Element) : List Element :=
  es.filter fun e => !e.hasAttribute sourceAttribute

/-- What stands directly inside of elements. -/
def childrenOf (es : List Element) : List Child := es.flatMap fun e => e.content.toList

end MarkupTrace.Source

namespace MarkupTrace.Annotate

open Source

/-! ## Counts over elements -/

theorem source_of_recordsChildren {e : Element} (h : recordsChildren e = true) :
    e.hasAttribute sourceAttribute = false := by
  rw [recordsChildren, Bool.and_eq_true, Bool.not_eq_true'] at h
  exact h.1

theorem recordsChildren_of_source {e : Element} (h : e.hasAttribute sourceAttribute = true) :
    recordsChildren e = false := by
  rw [recordsChildren, h]
  rfl

theorem ofChild_unrecorded (c : Child) : Tally.ofChild false c = .none := by
  cases c <;> rfl

namespace Tally

instance : AddCommSemigroup Tally where
  add_assoc a b c := by
    show add (add a b) c = add a (add b c)
    simp only [add, Nat.add_assoc]
  add_comm a b := by
    show add a b = add b a
    simp only [add, Nat.add_comm]

/-- The counts over some elements. -/
def counting (es : List Element) : Tally where
  annotated := (unplaced es).length
  texts := (childrenOf (unplaced es)).countP Child.isShownText
  expressions := (childrenOf (unplaced es)).countP Child.isContainer
  kept := es.countP (·.hasAttribute selfAttribute) + es.countP (·.hasAttribute sourceAttribute)

theorem counting_append (xs ys : List Element) :
    counting (xs ++ ys) = counting xs + counting ys := by
  show counting (xs ++ ys) = add (counting xs) (counting ys)
  simp only [counting, unplaced, childrenOf, List.filter_append, List.flatMap_append,
    List.length_append, List.countP_append, add, Nat.add_add_add_comm]

/-- What is done in place to the children of an element. -/
def ofChildren (records : Bool) (cs : List Child) : Tally :=
  if records then ⟨0, cs.countP Child.isShownText, cs.countP Child.isContainer, 0⟩ else none

theorem ofChildren_cons (records : Bool) (c : Child) (cs : List Child) :
    ofChildren records (c :: cs) = ofChild records c + ofChildren records cs := by
  show _ = add (ofChild records c) (ofChildren records cs)
  cases records with
  | false => simp [ofChildren, ofChild_unrecorded, add, none]
  | true =>
    simp only [ofChildren, if_true, List.countP_cons]
    cases c with
    | text t =>
      cases ht : t.isSignificant <;>
        simp [ofChild, add, none, Child.isShownText, Child.isContainer, ht, Nat.add_comm]
    | container value span =>
      simp [ofChild, add, Child.isShownText, Child.isContainer, Nat.add_comm]
    | emptyContainer span => simp [ofChild, add, none, Child.isShownText, Child.isContainer]
    | element e => simp [ofChild, add, none, Child.isShownText, Child.isContainer]

/-- Where none can be recorded, no child is counted. -/
theorem ofChildren_of_unwrappable {cs : List Child} (h : cs.any Child.isWrappable = false)
    (records : Bool) : ofChildren records cs = none := by
  rw [List.any_eq_false] at h
  have hshown : cs.countP Child.isShownText = 0 := by
    refine List.countP_eq_zero.mpr fun c hc hshown => h c hc ?_
    rw [c.isWrappable_eq, hshown, Bool.true_or]
  have hcontainer : cs.countP Child.isContainer = 0 := by
    refine List.countP_eq_zero.mpr fun c hc hcontainer => h c hc ?_
    rw [c.isWrappable_eq, hcontainer, Bool.or_true]
  rw [ofChildren, hshown, hcontainer]
  exact ite_self _

/-- An element and its children, if they are recorded. -/
theorem counting_singleton (e : Element) :
    counting [e] = ofElement e + ofChildren (recordsChildren e) e.content.toList := by
  have hchildren : ofChildren (recordsChildren e) e.content.toList =
      ofChildren (!e.hasAttribute sourceAttribute) e.content.toList := by
    cases hany : e.content.toList.any Child.isWrappable with
    | false => rw [ofChildren_of_unwrappable hany, ofChildren_of_unwrappable hany]
    | true => rw [recordsChildren, hany, Bool.and_true]
  rw [hchildren]
  show counting [e] = add _ _
  cases hself : e.hasAttribute selfAttribute <;> cases hsource : e.hasAttribute sourceAttribute <;>
    simp [counting, unplaced, childrenOf, ofElement, ofChildren, add, none, hself, hsource]

end Tally

/-! ## Counts of an annotation -/

mutual

theorem tallyExpr_eq : (e : Expr) → tallyExpr e = .counting (elementsIn e.parts)
  | .text _ | .number _ | .bool _ | .null | .this | .name _ | .location _ | .helper _ => by
    rw [tallyExpr, Expr.parts]
    rfl
  | .member object _ => by rw [tallyExpr, Expr.parts, tallyExpr_eq object]
  | .call callee arguments => by
    rw [tallyExpr, Expr.parts, elementsIn_append, Tally.counting_append, tallyExpr_eq callee,
      tallyExprs_eq arguments]
  | .arrow _ b => by rw [tallyExpr, Expr.parts, tallyBody_eq b]
  | .object ps => by rw [tallyExpr, Expr.parts, tallyProperties_eq ps]
  | .array items => by rw [tallyExpr, Expr.parts, tallyExprs_eq items]
  | .paren inner => by
    have h := tallyExpr_eq inner
    rwa [tallyExpr, Expr.parts]
  | .markup e => by rw [tallyExpr, Expr.parts, tallyElement_eq e]

theorem tallyExprs_eq : (es : List Expr) → tallyExprs es = .counting (elementsIn (partsOfItems es))
  | [] => by
    rw [tallyExprs, partsOfItems]
    rfl
  | e :: es => by
    rw [tallyExprs, partsOfItems, elementsIn_append, Tally.counting_append, tallyExpr_eq e,
      tallyExprs_eq es]

theorem tallyBody_eq : (b : Body) → tallyBody b = .counting (elementsIn b.parts)
  | .result value => by rw [tallyBody, Body.parts, tallyExpr_eq value]
  | .block ss => by rw [tallyBody, Body.parts, tallyStatements_eq ss]

theorem tallyProperty_eq : (p : Property) → tallyProperty p = .counting (elementsIn p.parts)
  | .entry _ value => by rw [tallyProperty, Property.parts, tallyExpr_eq value]
  | .shorthand _ => by
    rw [tallyProperty, Property.parts]
    rfl
  | .spread value => by rw [tallyProperty, Property.parts, tallyExpr_eq value]

theorem tallyProperties_eq : (ps : List Property) →
    tallyProperties ps = .counting (elementsIn (partsOfProperties ps))
  | [] => by
    rw [tallyProperties, partsOfProperties]
    rfl
  | p :: ps => by
    rw [tallyProperties, partsOfProperties, elementsIn_append, Tally.counting_append,
      tallyProperty_eq p, tallyProperties_eq ps]

theorem tallyElement_eq : (e : Element) → tallyElement e = .counting (elementsIn e.parts)
  | .mk name as c span => by
    have hcontent := tallyContent_eq (recordsChildren (.mk name as c span)) c
    rw [tallyElement, Element.parts, elementsIn_element, elementsIn_append,
      ← List.singleton_append, Tally.counting_append, Tally.counting_append,
      Tally.counting_singleton, tallyAttrs_eq as, hcontent]
    show _ + (_ + _) + _ = Tally.ofElement _ + Tally.ofChildren _ c.toList + (_ + _)
    ac_rfl

theorem tallyAttr_eq : (a : Attribute) → tallyAttr a = .counting (elementsIn a.parts)
  | .bare _ | .text _ _ => by
    rw [tallyAttr, Attribute.parts]
    rfl
  | .value _ value => by rw [tallyAttr, Attribute.parts, tallyExpr_eq value]
  | .spread value => by rw [tallyAttr, Attribute.parts, tallyExpr_eq value]

theorem tallyAttrs_eq : (as : List Attribute) →
    tallyAttrs as = .counting (elementsIn (partsOfAttributes as))
  | [] => by
    rw [tallyAttrs, partsOfAttributes]
    rfl
  | a :: as => by
    rw [tallyAttrs, partsOfAttributes, elementsIn_append, Tally.counting_append, tallyAttr_eq a,
      tallyAttrs_eq as]

theorem tallyContent_eq (records : Bool) : (c : Content) →
    tallyContent records c = Tally.ofChildren records c.toList + .counting (elementsIn c.parts)
  | .selfClosing => by
    rw [tallyContent, Content.parts]
    cases records <;> rfl
  | .children cs => by
    rw [tallyContent, Content.parts, tallyChildren_eq records cs]
    rfl

theorem tallyChildren_eq (records : Bool) : (cs : List Child) → tallyChildren records cs =
    Tally.ofChildren records cs + .counting (elementsIn (partsOfChildren cs))
  | [] => by
    rw [tallyChildren, partsOfChildren]
    cases records <;> rfl
  | c :: cs => by
    rw [tallyChildren, partsOfChildren, elementsIn_append, Tally.counting_append,
      Tally.ofChildren_cons, tallyChild_eq c, tallyChildren_eq records cs]
    ac_rfl

theorem tallyChild_eq : (c : Child) → tallyChild c = .counting (elementsIn c.parts)
  | .text _ | .emptyContainer _ => by
    rw [tallyChild, Child.parts]
    rfl
  | .container value _ => by rw [tallyChild, Child.parts, tallyExpr_eq value]
  | .element e => by rw [tallyChild, Child.parts, tallyElement_eq e]

theorem tallyStatement_eq : (x : Statement) → tallyStatement x = .counting (elementsIn x.parts)
  | .imports _ | .returnsNothing => by
    rw [tallyStatement, Statement.parts]
    rfl
  | .const _ _ value => by rw [tallyStatement, Statement.parts, tallyExpr_eq value]
  | .returns value => by rw [tallyStatement, Statement.parts, tallyExpr_eq value]
  | .expr value => by rw [tallyStatement, Statement.parts, tallyExpr_eq value]

theorem tallyStatements_eq : (xs : List Statement) →
    tallyStatements xs = .counting (elementsIn (partsOfStatements xs))
  | [] => by
    rw [tallyStatements, partsOfStatements]
    rfl
  | x :: xs => by
    rw [tallyStatements, partsOfStatements, elementsIn_append, Tally.counting_append,
      tallyStatement_eq x, tallyStatements_eq xs]

end

/-- What an annotation counts are counts over the elements of the module. -/
theorem tally_annotate (m : Module) (source fileName : String) (o : Options) :
    (annotate m source fileName o).report.tally = .counting m.elements := tallyStatements_eq m.body

/-! ## What was done at all -/

theorem annotated_counting_pos {es : List Element} : 0 < (Tally.counting es).annotated ↔
    ∃ e ∈ es, e.hasAttribute sourceAttribute = false := by
  simp [Tally.counting, unplaced, List.length_pos_iff_exists_mem]

theorem wrapped_counting_pos {es : List Element} : 0 < (Tally.counting es).wrapped ↔
    ∃ e ∈ es, recordsChildren e = true := by
  simp only [Tally.wrapped, Tally.counting, Nat.add_pos_iff_pos_or_pos, List.countP_pos_iff,
    ← exists_or, ← and_or_left, ← Bool.or_eq_true, ← Child.isWrappable_eq, childrenOf, unplaced,
    List.mem_flatMap, List.mem_filter, recordsChildren, Bool.and_eq_true, List.any_eq_true]
  constructor
  · rintro ⟨c, ⟨e, ⟨he, hsource⟩, hc⟩, hwrappable⟩
    exact ⟨e, he, hsource, c, hc, hwrappable⟩
  · rintro ⟨e, he, hsource, c, hc, hwrappable⟩
    exact ⟨c, ⟨e, ⟨he, hsource⟩, hc⟩, hwrappable⟩

end MarkupTrace.Annotate
