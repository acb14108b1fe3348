import MarkupTrace.Proofs.CountedElements
import MarkupTrace.Proofs.Origins

/-!
# What annotation changes

An annotated tree is the tree it was made from, constructor by constructor and with the same
contents, except for two things. An element gets the attributes that its author left out, behind its
own ones. And where the author left out `__source`, text that shows and containers with an expression
become containers with a call of the recording helper.

The relations below say so without the traversal: which children an element records, and whether it
pushes its location, are read off the element as it was written.
-/

namespace MarkupTrace.Source

open Annotate

/-- The value of the `__source` attribute that an element is given: its location, pushed onto the
stack if one of its children is recorded. -/
def Element.place (s : Site) (e : Element) : Expr :=
  if e.content.toList.any Child.isWrappable then
    .call (.name s.names.recordParent) [.location (s.location e.span)]
  else .location (s.location e.span)

mutual

/-- An expression and its annotated form. -/
inductive Expr.Becomes (s : Site) : Expr → Expr → Prop
  | text (v : String) : Expr.Becomes s (.text v) (.text v)
  | number (n : Double) : Expr.Becomes s (.number n) (.number n)
  | bool (b : Bool) : Expr.Becomes s (.bool b) (.bool b)
  | null : Expr.Becomes s .null .null
  | this : Expr.Becomes s .this .this
  | name (n : String) : Expr.Becomes s (.name n) (.name n)
  | member {object object' : Expr} (property : String) (h : Expr.Becomes s object object') :
    Expr.Becomes s (.member object property) (.member object' property)
  | call {callee callee' : Expr} {arguments arguments' : List Expr}
    (hcallee : Expr.Becomes s callee callee')
    (harguments : List.Forall₂ (Expr.Becomes s) arguments arguments') :
    Expr.Becomes s (.call callee arguments) (.call callee' arguments')
  | arrow (ps : List Param) {b b' : Body} (h : Body.Becomes s b b') :
    Expr.Becomes s (.arrow ps b) (.arrow ps b')
  | object {ps ps' : List Property} (h : List.Forall₂ (Property.Becomes s) ps ps') :
    Expr.Becomes s (.object ps) (.object ps')
  | array {items items' : List Expr} (h : List.Forall₂ (Expr.Becomes s) items items') :
    Expr.Becomes s (.array items) (.array items')
  | paren {inner inner' : Expr} (h : Expr.Becomes s inner inner') :
    Expr.Becomes s (.paren inner) (.paren inner')
  | markup {e e' : Element} (h : Element.Becomes s e e') :
    Expr.Becomes s (.markup e) (.markup e')
  | location (l : LocationLiteral) : Expr.Becomes s (.location l) (.location l)
  | helper (h : Helper) : Expr.Becomes s (.helper h) (.helper h)

inductive Body.Becomes (s : Site) : Body → Body → Prop
  | result {value value' : Expr} (h : Expr.Becomes s value value') :
    Body.Becomes s (.result value) (.result value')
  | block {xs xs' : List Statement} (h : List.Forall₂ (Statement.Becomes s) xs xs') :
    Body.Becomes s (.block xs) (.block xs')

inductive Property.Becomes (s : Site) : Property → Property → Prop
  | entry (key : String) {value value' : Expr} (h : Expr.Becomes s value value') :
    Property.Becomes s (.entry key value) (.entry key value')
  | shorthand (name : String) : Property.Becomes s (.shorthand name) (.shorthand name)
  | spread {value value' : Expr} (h : Expr.Becomes s value value') :
    Property.Becomes s (.spread value) (.spread value')

/-- The element's own attributes come first, then the ones its author left out. -/
inductive Element.Becomes (s : Site) : Element → Element → Prop
  | mk {e : Element} {attributes : List Attribute} {content : Content}
    (hattributes : List.Forall₂ (Attribute.Becomes s) e.attributes attributes)
    (hcontent : Content.Becomes s (!e.hasAttribute sourceAttribute) e.content content) :
    Element.Becomes s e (.mk e.name
      (attributes ++
        ((if e.hasAttribute selfAttribute then [] else [.value selfAttribute .this]) ++
          if e.hasAttribute sourceAttribute then [] else [.value sourceAttribute (e.place s)]))
      content e.span)

inductive Attribute.Becomes (s : Site) : Attribute → Attribute → Prop
  | bare (name : String) : Attribute.Becomes s (.bare name) (.bare name)
  | text (name raw : String) : Attribute.Becomes s (.text name raw) (.text name raw)
  | value (name : String) {value value' : Expr} (h : Expr.Becomes s value value') :
    Attribute.Becomes s (.value name value) (.value name value')
  | spread {value value' : Expr} (h : Expr.Becomes s value value') :
    Attribute.Becomes s (.spread value) (.spread value')

inductive Content.Becomes (s : Site) : (records : Bool) → Content → Content → Prop
  | selfClosing (records : Bool) : Content.Becomes s records .selfClosing .selfClosing
  | children {records : Bool} {cs cs' : List Child} (h : Children.Become s records cs cs') :
    Content.Becomes s records (.children cs) (.children cs')

/-- Children one by one; a child that is recorded is the last one if none that can be recorded
follows. -/
inductive Children.Become (s : Site) : (records : Bool) → List Child → List Child → Prop
  | nil (records : Bool) : Children.Become s records [] []
  | cons {records : Bool} {c c' : Child} {cs cs' : List Child}
    (h : Child.Becomes s records (!cs.any Child.isWrappable) c c')
    (hs : Children.Become s records cs cs') : Children.Become s records (c :: cs) (c' :: cs')

/-- Recorded children are texts that show and containers with an expression. -/
inductive Child.Becomes (s : Site) : (records isLast : Bool) → Child → Child → Prop
  | recordedText {isLast : Bool} {t : MarkupText} (h : t.isSignificant = true) :
    Child.Becomes s true isLast (.text t)
      (.container (.call (.name s.names.recordExpression)
        [.location (s.location t.trimmedSpan), .text t.cooked, .bool false, .bool isLast]) t.span)
  | blankText {records isLast : Bool} {t : MarkupText} (h : t.isSignificant = false) :
    Child.Becomes s records isLast (.text t) (.text t)
  | text {isLast : Bool} (t : MarkupText) : Child.Becomes s false isLast (.text t) (.text t)
  | recordedContainer {isLast : Bool} {value value' : Expr} (span : Text.Span)
    (h : Expr.Becomes s value value') :
    Child.Becomes s true isLast (.container value span)
      (.container (.call (.name s.names.recordExpression)
        [.location (s.location span), value', .bool true, .bool isLast]) span)
  | container {isLast : Bool} {value value' : Expr} (span : Text.Span)
    (h : Expr.Becomes s value value') :
    Child.Becomes s false isLast (.container value span) (.container value' span)
  | emptyContainer {records isLast : Bool} (span : Text.Span) :
    Child.Becomes s records isLast (.emptyContainer span) (.emptyContainer span)
  | element {records isLast : Bool} {e e' : Element} (h : Element.Becomes s e e') :
    Child.Becomes s records isLast (.element e) (.element e')

inductive Statement.Becomes (s : Site) : Statement → Statement → Prop
  | imports (decl : Import) : Statement.Becomes s (.imports decl) (.imports decl)
  | const (exported : Bool) (name : String) {value value' : Expr}
    (h : Expr.Becomes s value value') :
    Statement.Becomes s (.const exported name value) (.const exported name value')
  | returns {value value' : Expr} (h : Expr.Becomes s value value') :
    Statement.Becomes s (.returns value) (.returns value')
  | returnsNothing : Statement.Becomes s .returnsNothing .returnsNothing
  | expr {value value' : Expr} (h : Expr.Becomes s value value') :
    Statement.Becomes s (.expr value) (.expr value')

end

end MarkupTrace.Source

namespace MarkupTrace.Annotate

open Source

/-! ## The traversal -/

/-- Where the author left out `__source`, the children are recorded if there are any to record. -/
theorem source_eq_place (s : Site) {e : Element} (h : e.hasAttribute sourceAttribute = false) :
    s.source e.span (recordsChildren e) = e.place s := by
  rw [recordsChildren, h, Bool.not_false, Bool.true_and]
  rfl

theorem addedAttributes_eq (s : Site) (e : Element) :
    addedAttributes s e =
      (if e.hasAttribute selfAttribute then [] else [.value selfAttribute .this]) ++
        if e.hasAttribute sourceAttribute then [] else [.value sourceAttribute (e.place s)] := by
  unfold addedAttributes
  by_cases h : e.hasAttribute sourceAttribute = true
  · rw [if_pos h, if_pos h]
  · rw [if_neg h, if_neg h, source_eq_place s (Bool.eq_false_iff.mpr h)]

/-- For a child that can be recorded, an element records its children unless the author gave it a
`__source`. -/
theorem recordsChildren_of_wrappable {e : Element} {c : Child} (hc : c ∈ e.content.toList)
    (h : c.isWrappable = true) : recordsChildren e = !e.hasAttribute sourceAttribute := by
  have hany : e.content.toList.any Child.isWrappable = true := List.any_eq_true.mpr ⟨c, hc, h⟩
  rw [recordsChildren, hany, Bool.and_true]

mutual

theorem becomes_expr (s : Site) : (e : Expr) → e.Becomes s (expr s e)
  | .text v => by rw [expr]; exact .text v
  | .number n => by rw [expr]; exact .number n
  | .bool b => by rw [expr]; exact .bool b
  | .null => by rw [expr]; exact .null
  | .this => by rw [expr]; exact .this
  | .name n => by rw [expr]; exact .name n
  | .member object property => by rw [expr]; exact .member property (becomes_expr s object)
  | .call callee arguments => by
    rw [expr]
    exact .call (becomes_expr s callee) (becomes_exprs s arguments)
  | .arrow ps b => by rw [expr]; exact .arrow ps (becomes_body s b)
  | .object ps => by rw [expr]; exact .object (becomes_properties s ps)
  | .array items => by rw [expr]; exact .array (becomes_exprs s items)
  | .paren inner => by rw [expr]; exact .paren (becomes_expr s inner)
  | .markup e => by rw [expr]; exact .markup (becomes_element s e)
  | .location l => by rw [expr]; exact .location l
  | .helper h => by rw [expr]; exact .helper h

theorem becomes_exprs (s : Site) : (es : List Expr) →
    List.Forall₂ (Expr.Becomes s) es (exprs s es)
  | [] => by rw [exprs]; exact .nil
  | e :: es => by rw [exprs]; exact .cons (becomes_expr s e) (becomes_exprs s es)

theorem becomes_body (s : Site) : (b : Body) → b.Becomes s (body s b)
  | .result value => by rw [body]; exact .result (becomes_expr s value)
  | .block xs => by rw [body]; exact .block (becomes_statements s xs)

theorem becomes_property (s : Site) : (p : Property) → p.Becomes s (property s p)
  | .entry key value => by rw [property]; exact .entry key (becomes_expr s value)
  | .shorthand name => by rw [property]; exact .shorthand name
  | .spread value => by rw [property]; exact .spread (becomes_expr s value)

theorem becomes_properties (s : Site) : (ps : List Property) →
    List.Forall₂ (Property.Becomes s) ps (properties s ps)
  | [] => by rw [properties]; exact .nil
  | p :: ps => by rw [properties]; exact .cons (becomes_property s p) (becomes_properties s ps)

theorem becomes_element (s : Site) : (e : Element) → e.Becomes s (element s e)
  | .mk name as c span => by
    rw [element, addedAttributes_eq]
    exact .mk (becomes_attrs s as) (becomes_content s c fun _ hx h =>
      recordsChildren_of_wrappable hx h)

theorem becomes_attr (s : Site) : (a : Attribute) → a.Becomes s (attr s a)
  | .bare name => by rw [attr]; exact .bare name
  | .text name raw => by rw [attr]; exact .text name raw
  | .value name value => by rw [attr]; exact .value name (becomes_expr s value)
  | .spread value => by rw [attr]; exact .spread (becomes_expr s value)

theorem becomes_attrs (s : Site) : (as : List Attribute) →
    List.Forall₂ (Attribute.Becomes s) as (attrs s as)
  | [] => by rw [attrs]; exact .nil
  | a :: as => by rw [attrs]; exact .cons (becomes_attr s a) (becomes_attrs s as)

/-- The traversal is told whether any child is recorded at all; for the children that can be, this
is whether the author left out `__source`. -/
theorem becomes_content (s : Site) {records records' : Bool} : (c : Content) →
    (∀ x ∈ c.toList, x.isWrappable = true → records = records') →
    c.Becomes s records' (content s records c)
  | .selfClosing, _ => by rw [content]; exact .selfClosing _
  | .children cs, h => by rw [content]; exact .children (becomes_children s cs h)

theorem becomes_children (s : Site) {records records' : Bool} : (cs : List Child) →
    (∀ x ∈ cs, x.isWrappable = true → records = records') →
    Children.Become s records' cs (children s records cs)
  | [], _ => by rw [children]; exact .nil _
  | c :: cs, h => by
    rw [children]
    exact .cons (becomes_child s _ c (h c List.mem_cons_self))
      (becomes_children s cs fun x hx => h x (List.mem_cons_of_mem _ hx))

theorem becomes_child (s : Site) {records records' : Bool} (isLast : Bool) : (c : Child) →
    (c.isWrappable = true → records = records') →
    c.Becomes s records' isLast (child s records isLast c)
  | .text t, h => by
    rw [child]
    cases hshown : t.isSignificant with
    | false =>
      rw [Bool.and_false]
      exact .blankText hshown
    | true =>
      cases h hshown
      cases records with
      | true => exact .recordedText hshown
      | false => exact .text t
  | .container value span, h => by
    rw [child]
    cases h rfl
    cases records with
    | true => exact .recordedContainer span (becomes_expr s value)
    | false => exact .container span (becomes_expr s value)
  | .emptyContainer span, _ => by rw [child]; exact .emptyContainer span
  | .element e, _ => by rw [child]; exact .element (becomes_element s e)

theorem becomes_statement (s : Site) : (x : Statement) → x.Becomes s (statement s x)
  | .imports decl => by rw [statement]; exact .imports decl
  | .const exported name value => by
    rw [statement]
    exact .const exported name (becomes_expr s value)
  | .returns value => by rw [statement]; exact .returns (becomes_expr s value)
  | .returnsNothing => by rw [statement]; exact .returnsNothing
  | .expr value => by rw [statement]; exact .expr (becomes_expr s value)

theorem becomes_statements (s : Site) : (xs : List Statement) →
    List.Forall₂ (Statement.Becomes s) xs (statements s xs)
  | [] => by rw [statements]; exact .nil
  | x :: xs => by rw [statements]; exact .cons (becomes_statement s x) (becomes_statements s xs)

end

/-! ## The declarations -/

/-- Recorded children are those of an element that is annotated. -/
def Tally.Backed (t : Tally) : Prop := 0 < t.wrapped → 0 < t.annotated

theorem backed_statements (xs : List Statement) : (tallyStatements xs).Backed := by
  intro h
  rw [tallyStatements_eq] at h ⊢
  obtain ⟨e, he, hrecords⟩ := wrapped_counting_pos.mp h
  exact annotated_counting_pos.mpr ⟨e, he, source_of_recordsChildren hrecords⟩

/-- The declaration of the constant that holds the file name. -/
def fileConstant (names : Names) (fileName : String) : Statement :=
  .const false names.fileName (.text fileName)

/-- The declarations of the stack and of the helpers, in order. -/
def helperDeclarations (names : Names) : List Statement :=
  [.const false names.stack (.helper .newStack),
    .const false names.recordParent (.helper (.recordParent names.stack)),
    .const false names.recordExpression (.helper (.recordExpression names.stack))]

theorem declarations_cases (names : Names) (fileName : String) {t : Tally} (h : t.Backed) :
    t.annotated = 0 ∧ t.wrapped = 0 ∧ declarations names fileName t = [] ∨
      0 < t.annotated ∧ t.wrapped = 0 ∧
        declarations names fileName t = [fileConstant names fileName] ∨
      0 < t.annotated ∧ 0 < t.wrapped ∧
        declarations names fileName t = fileConstant names fileName :: helperDeclarations names := by
  rcases Nat.eq_zero_or_pos t.wrapped with hwrapped | hwrapped
  · rcases Nat.eq_zero_or_pos t.annotated with hannotated | hannotated
    · refine .inl ⟨hannotated, hwrapped, ?_⟩
      rw [declarations, hannotated, hwrapped]
      rfl
    · refine .inr (.inl ⟨hannotated, hwrapped, ?_⟩)
      rw [declarations, if_pos hannotated, hwrapped]
      rfl
  · have hannotated := h hwrapped
    refine .inr (.inr ⟨hannotated, hwrapped, ?_⟩)
    rw [declarations, if_pos hannotated, if_pos hwrapped]
    rfl

/-- An annotated module has the leading imports of the module, then the declarations that its
annotations need, and then the remaining statements, each of which is the statement it was, node by
node, except for the attributes of its elements and their recorded children. -/
theorem annotate_changes_nothing_else (m : Module) (source fileName : String) (o : Options) :
    let a := annotate m source fileName o
    let site : Site := ⟨Text.LineIndex.ofText source, o.normalizeLineEndings, a.names⟩
    ∃ imports rest declared rest', m.body = imports ++ rest ∧
      (∀ x ∈ imports, x.isImport = true) ∧ (∀ x ∈ rest.head?, x.isImport = false) ∧
      a.module.body = imports ++ (declared ++ rest') ∧
      List.Forall₂ (Statement.Becomes site) rest rest' ∧
      (a.report.tally.annotated = 0 ∧ a.report.tally.wrapped = 0 ∧ declared = [] ∨
        0 < a.report.tally.annotated ∧ a.report.tally.wrapped = 0 ∧
          declared = [fileConstant a.names fileName] ∨
        0 < a.report.tally.annotated ∧ 0 < a.report.tally.wrapped ∧
          declared = fileConstant a.names fileName :: helperDeclarations a.names) := by
  intro a site
  have hdrop : m.body.drop m.leadingImports = m.body.dropWhile Statement.isImport := by
    have hsplit := List.takeWhile_append_dropWhile (p := Statement.isImport) (l := m.body)
    exact (congrArg (List.drop m.leadingImports) hsplit.symm).trans List.drop_left
  refine ⟨m.body.take m.leadingImports, m.body.drop m.leadingImports,
    declarations a.names fileName a.report.tally, statements site (m.body.drop m.leadingImports),
    (List.take_append_drop _ _).symm, isImport_of_mem_take m, ?_,
    annotate_body m source fileName o, becomes_statements site _,
    declarations_cases a.names fileName (backed_statements m.body)⟩
  intro x hx
  have hhead := List.head?_dropWhile_not Statement.isImport m.body
  rw [hdrop] at hx
  rw [Option.mem_def.mp hx] at hhead
  exact hhead

end MarkupTrace.Annotate
