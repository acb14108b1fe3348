import MarkupTrace.Proofs.Recasting
import MarkupTrace.Source.Printer
import Mathlib.Data.List.Forall2

/-!
# Trees that print the same

Two trees resemble each other if they are the same up to parentheses and ranges and print the same at
any depth. Resemblance is kept by every construct, and also where printing puts parentheses: around a
function that is called and around an object that is the result of an arrow function.
-/

namespace MarkupTrace.Source

/-- No parentheses, and all ranges the same. -/
def withoutParens : Recasting := ⟨fun _ => ⟨0, 0⟩, id, id⟩

structure Expr.Resembles (e' e : Expr) : Prop where
  tree : e'.recast withoutParens = e.recast withoutParens
  print : ∀ depth, e'.printAt depth = e.printAt depth
  arrow : e'.isArrow = e.isArrow
  object : e'.isObject = e.isObject

structure Body.Resembles (b' b : Body) : Prop where
  tree : b'.recast withoutParens = b.recast withoutParens
  print : ∀ depth, b'.printAt depth = b.printAt depth

structure Property.Resembles (p' p : Property) : Prop where
  tree : p'.recast withoutParens = p.recast withoutParens
  print : ∀ depth, p'.printAt depth = p.printAt depth

structure Element.Resembles (e' e : Element) : Prop where
  tree : e'.recast withoutParens = e.recast withoutParens
  print : ∀ depth, e'.printAt depth = e.printAt depth

structure Attribute.Resembles (a' a : Attribute) : Prop where
  tree : a'.recast withoutParens = a.recast withoutParens
  print : ∀ depth, a'.printAt depth = a.printAt depth

structure Content.Resembles (c' c : Content) : Prop where
  tree : c'.recast withoutParens = c.recast withoutParens
  print : ∀ depth name, c'.printAt depth name = c.printAt depth name

structure Child.Resembles (c' c : Child) : Prop where
  tree : c'.recast withoutParens = c.recast withoutParens
  print : ∀ depth, c'.printAt depth = c.printAt depth

structure Statement.Resembles (s' s : Statement) : Prop where
  tree : s'.recast withoutParens = s.recast withoutParens
  print : ∀ depth, s'.printAt depth = s.printAt depth

/-! ## Lists -/

theorem printItems_cons (depth : Nat) (e f : Expr) (es : List Expr) :
    printItems depth (e :: f :: es) = e.printAt depth ++ ", " ++ printItems depth (f :: es) := by
  rw [printItems]
  exact nofun

theorem printProperties_cons (depth : Nat) (p q : Property) (ps : List Property) :
    printProperties depth (p :: q :: ps) =
      p.printAt depth ++ ", " ++ printProperties depth (q :: ps) := by
  rw [printProperties]
  exact nofun

/-- Lists of resembling items are recast and printed alike. -/
theorem Expr.Resembles.items {es' es : List Expr} (h : List.Forall₂ Expr.Resembles es' es) :
    recastItems withoutParens es' = recastItems withoutParens es ∧
      ∀ depth, printItems depth es' = printItems depth es := by
  induction h with
  | nil => exact ⟨rfl, fun _ => rfl⟩
  | cons h hs ih =>
    refine ⟨by rw [recastItems, recastItems, h.tree, ih.1], fun depth => ?_⟩
    cases hs with
    | nil => exact h.print depth
    | cons => rw [printItems_cons, printItems_cons, h.print, ih.2]

theorem Property.Resembles.properties {ps' ps : List Property}
    (h : List.Forall₂ Property.Resembles ps' ps) :
    recastProperties withoutParens ps' = recastProperties withoutParens ps ∧
      ∀ depth, printProperties depth ps' = printProperties depth ps := by
  induction h with
  | nil => exact ⟨rfl, fun _ => rfl⟩
  | cons h hs ih =>
    refine ⟨by rw [recastProperties, recastProperties, h.tree, ih.1], fun depth => ?_⟩
    cases hs with
    | nil => exact h.print depth
    | cons => rw [printProperties_cons, printProperties_cons, h.print, ih.2]

theorem Attribute.Resembles.attributes {as' as : List Attribute}
    (h : List.Forall₂ Attribute.Resembles as' as) :
    recastAttributes withoutParens as' = recastAttributes withoutParens as ∧
      ∀ depth, printAttributes depth as' = printAttributes depth as := by
  induction h with
  | nil => exact ⟨rfl, fun _ => rfl⟩
  | cons h hs ih =>
    refine ⟨by rw [recastAttributes, recastAttributes, h.tree, ih.1], fun depth => ?_⟩
    rw [printAttributes, printAttributes, h.print, ih.2]

theorem Child.Resembles.children {cs' cs : List Child} (h : List.Forall₂ Child.Resembles cs' cs) :
    recastChildren withoutParens cs' = recastChildren withoutParens cs ∧
      ∀ depth, printChildren depth cs' = printChildren depth cs := by
  induction h with
  | nil => exact ⟨rfl, fun _ => rfl⟩
  | cons h hs ih =>
    refine ⟨by rw [recastChildren, recastChildren, h.tree, ih.1], fun depth => ?_⟩
    rw [printChildren, printChildren, h.print, ih.2]

theorem Statement.Resembles.statements {ss' ss : List Statement}
    (h : List.Forall₂ Statement.Resembles ss' ss) :
    recastStatements withoutParens ss' = recastStatements withoutParens ss ∧
      ∀ depth, printStatements depth ss' = printStatements depth ss := by
  induction h with
  | nil => exact ⟨rfl, fun _ => rfl⟩
  | cons h hs ih =>
    refine ⟨by rw [recastStatements, recastStatements, h.tree, ih.1], fun depth => ?_⟩
    rw [printStatements, printStatements, h.print, ih.2]

/-! ## Expressions -/

namespace Expr.Resembles

variable {e' e : Expr} {es' es : List Expr}

theorem refl (e : Expr) : e.Resembles e := ⟨rfl, fun _ => rfl, rfl, rfl⟩

theorem member (h : e'.Resembles e) (p : String) : (Expr.member e' p).Resembles (.member e p) where
  tree := congrArg (Expr.member · p) h.tree
  print depth := congrArg (· ++ "." ++ p) (h.print depth)
  arrow := rfl
  object := rfl

theorem paren (h : e'.Resembles e) : (Expr.paren e').Resembles (.paren e) where
  tree := h.tree
  print depth := congrArg ("(" ++ · ++ ")") (h.print depth)
  arrow := rfl
  object := rfl

theorem call (h : e'.Resembles e) (hs : List.Forall₂ Resembles es' es) :
    (Expr.call e' es').Resembles (.call e es) where
  tree := by rw [Expr.recast, Expr.recast, h.tree, (items hs).1]
  print depth := by rw [Expr.printAt, Expr.printAt, h.arrow, h.print, (items hs).2]
  arrow := rfl
  object := rfl

/-- A function that is called stands in parentheses. -/
theorem call_paren (he : e.isArrow = true) (h : e'.Resembles e) (hs : List.Forall₂ Resembles es' es) :
    (Expr.call (.paren e') es').Resembles (.call e es) where
  tree := by
    rw [Expr.recast, Expr.recast, Expr.recast, (items hs).1]
    exact congrArg (Expr.call · _) h.tree
  print depth := by
    have hparen : (Expr.paren e').isArrow = false := rfl
    rw [Expr.printAt, Expr.printAt, Expr.printAt, he, hparen, parenthesize, parenthesize,
      if_neg Bool.false_ne_true, if_pos rfl, h.print, (items hs).2]
  arrow := rfl
  object := rfl

theorem arrow_body (ps : List Param) {b' b : Body} (h : b'.Resembles b) :
    (Expr.arrow ps b').Resembles (.arrow ps b) where
  tree := congrArg (Expr.arrow ps) h.tree
  print depth := congrArg (printParams ps ++ " => " ++ ·) (h.print depth)
  arrow := rfl
  object := rfl

theorem object_properties {ps' ps : List Property} (h : List.Forall₂ Property.Resembles ps' ps) :
    (Expr.object ps').Resembles (.object ps) where
  tree := by rw [Expr.recast, Expr.recast, (Property.Resembles.properties h).1]
  print depth := by
    cases h with
    | nil => rfl
    | cons h hs =>
      rw [Expr.printAt, Expr.printAt, (Property.Resembles.properties (.cons h hs)).2]
  arrow := rfl
  object := rfl

theorem array (h : List.Forall₂ Resembles es' es) : (Expr.array es').Resembles (.array es) where
  tree := congrArg Expr.array (items h).1
  print depth := congrArg ("[" ++ · ++ "]") ((items h).2 depth)
  arrow := rfl
  object := rfl

theorem markup {x' x : Element} (h : x'.Resembles x) : (Expr.markup x').Resembles (.markup x) where
  tree := congrArg Expr.markup h.tree
  print := h.print
  arrow := rfl
  object := rfl

end Expr.Resembles

/-! ## Bodies, properties and statements -/

namespace Body.Resembles

theorem result {e' e : Expr} (h : e'.Resembles e) : (Body.result e').Resembles (.result e) where
  tree := by rw [Body.recast, Body.recast, h.tree]
  print depth := by rw [Body.printAt, Body.printAt, h.object, h.print]

/-- An object that is a result stands in parentheses. -/
theorem result_paren {e' e : Expr} (he : e.isObject = true) (h : e'.Resembles e) :
    (Body.result (.paren e')).Resembles (.result e) where
  tree := by
    rw [Body.recast, Body.recast, Expr.recast]
    exact congrArg Body.result h.tree
  print depth := by
    have hparen : (Expr.paren e').isObject = false := rfl
    rw [Body.printAt, Body.printAt, Expr.printAt, he, hparen, parenthesize, parenthesize,
      if_neg Bool.false_ne_true, if_pos rfl, h.print]

theorem block {ss' ss : List Statement} (h : List.Forall₂ Statement.Resembles ss' ss) :
    (Body.block ss').Resembles (.block ss) where
  tree := congrArg Body.block (Statement.Resembles.statements h).1
  print depth := congrArg ("\x7b\n" ++ · ++ indentation depth ++ "\x7d")
    ((Statement.Resembles.statements h).2 (depth + 1))

end Body.Resembles

namespace Property.Resembles

variable {e' e : Expr}

theorem refl (p : Property) : p.Resembles p := ⟨rfl, fun _ => rfl⟩

theorem entry (key : String) (h : e'.Resembles e) :
    (Property.entry key e').Resembles (.entry key e) where
  tree := congrArg (Property.entry key) h.tree
  print depth := congrArg (key ++ ": " ++ ·) (h.print depth)

theorem spread (h : e'.Resembles e) : (Property.spread e').Resembles (.spread e) where
  tree := congrArg Property.spread h.tree
  print depth := congrArg ("..." ++ ·) (h.print depth)

end Property.Resembles

namespace Statement.Resembles

variable {e' e : Expr}

theorem imports {decl' decl : Import} (h : decl'.specifier = decl.specifier)
    (h' : decl'.bindings = decl.bindings) : (Statement.imports decl').Resembles (.imports decl) := by
  obtain ⟨specifier, bindings, span⟩ := decl
  obtain ⟨specifier', bindings', span'⟩ := decl'
  cases h
  cases h'
  exact ⟨rfl, fun _ => rfl⟩

theorem const (exported : Bool) (name : String) (h : e'.Resembles e) :
    (Statement.const exported name e').Resembles (.const exported name e) where
  tree := congrArg (Statement.const exported name) h.tree
  print depth := by rw [Statement.printAt, Statement.printAt, h.print]

theorem returns (h : e'.Resembles e) : (Statement.returns e').Resembles (.returns e) where
  tree := congrArg Statement.returns h.tree
  print depth := congrArg (indentation depth ++ "return " ++ · ++ ";\n") (h.print depth)

theorem returnsNothing : Statement.returnsNothing.Resembles .returnsNothing := ⟨rfl, fun _ => rfl⟩

theorem expr (h : e'.Resembles e) : (Statement.expr e').Resembles (.expr e) where
  tree := congrArg Statement.expr h.tree
  print depth := congrArg (indentation depth ++ · ++ ";\n") (h.print depth)

end Statement.Resembles

/-! ## Elements -/

namespace Attribute.Resembles

variable {e' e : Expr}

theorem refl (a : Attribute) : a.Resembles a := ⟨rfl, fun _ => rfl⟩

theorem value (name : String) (h : e'.Resembles e) :
    (Attribute.value name e').Resembles (.value name e) where
  tree := congrArg (Attribute.value name) h.tree
  print depth := congrArg (name ++ "=\x7b" ++ · ++ "\x7d") (h.print depth)

theorem spread (h : e'.Resembles e) : (Attribute.spread e').Resembles (.spread e) where
  tree := congrArg Attribute.spread h.tree
  print depth := congrArg ("\x7b..." ++ · ++ "\x7d") (h.print depth)

end Attribute.Resembles

namespace Child.Resembles

theorem text {t' t : MarkupText} (h : t'.raw = t.raw) : (Child.text t').Resembles (.text t) := by
  obtain ⟨raw, span⟩ := t
  obtain ⟨raw', span'⟩ := t'
  cases h
  exact ⟨rfl, fun _ => rfl⟩

theorem container {e' e : Expr} (h : e'.Resembles e) (span' span : Text.Span) :
    (Child.container e' span').Resembles (.container e span) where
  tree := congrArg (Child.container · ⟨0, 0⟩) h.tree
  print depth := congrArg ("\x7b" ++ · ++ "\x7d") (h.print depth)

theorem emptyContainer (span' span : Text.Span) :
    (Child.emptyContainer span').Resembles (.emptyContainer span) := ⟨rfl, fun _ => rfl⟩

theorem element {x' x : Element} (h : x'.Resembles x) :
    (Child.element x').Resembles (.element x) where
  tree := congrArg Child.element h.tree
  print := h.print

end Child.Resembles

namespace Content.Resembles

theorem refl (c : Content) : c.Resembles c := ⟨rfl, fun _ _ => rfl⟩

theorem children {cs' cs : List Child} (h : List.Forall₂ Child.Resembles cs' cs) :
    (Content.children cs').Resembles (.children cs) where
  tree := congrArg Content.children (Child.Resembles.children h).1
  print depth name := congrArg (">" ++ · ++ "</" ++ name ++ ">") ((Child.Resembles.children h).2 depth)

end Content.Resembles

theorem Element.Resembles.mk_of {as' as : List Attribute} {c' c : Content} (name : String)
    (hs : List.Forall₂ Attribute.Resembles as' as) (h : c'.Resembles c) (span' span : Text.Span) :
    (Element.mk name as' c' span').Resembles (.mk name as c span) where
  tree := by
    rw [Element.recast, Element.recast, (Attribute.Resembles.attributes hs).1, h.tree]
    rfl
  print depth := by
    rw [Element.printAt, Element.printAt, (Attribute.Resembles.attributes hs).2, h.print]

theorem Module.resembles {ss' ss : List Statement} (h : List.Forall₂ Statement.Resembles ss' ss) :
    (Module.mk ss').recast withoutParens = (Module.mk ss).recast withoutParens ∧
      (Module.mk ss').print = (Module.mk ss).print := by
  obtain ⟨htree, hprint⟩ := Statement.Resembles.statements h
  exact ⟨congrArg Module.mk htree, hprint 0⟩

end MarkupTrace.Source
