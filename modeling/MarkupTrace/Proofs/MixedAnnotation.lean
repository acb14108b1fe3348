import MarkupTrace.Proofs.MixedTexts
import MarkupTrace.Proofs.MovedGrammar

/-!
# Annotation and line endings

A module with carriage returns before some line feeds is annotated as the one without: with the same
names, the same report, the same locations and strings.
-/

namespace MarkupTrace

namespace Source

open Text

variable (n : Nat → Nat)

/-! ## What annotation sees of a tree -/

mutual

theorem Expr.names_recast : (e : Expr) → (e.recast (relined n)).names = e.names
  | .text _ | .number _ | .bool _ | .null | .this | .helper _ | .name _ | .location _ => by
    rw [Expr.recast]
  | .member object _ => by rw [Expr.recast, Expr.names, Expr.names, object.names_recast]
  | .call callee arguments => by
    rw [Expr.recast, Expr.names, Expr.names, callee.names_recast, namesOfItems_recast arguments]
  | .arrow _ b => by rw [Expr.recast, Expr.names, Expr.names, b.names_recast]
  | .object ps => by rw [Expr.recast, Expr.names, Expr.names, namesOfProperties_recast ps]
  | .array items => by rw [Expr.recast, Expr.names, Expr.names, namesOfItems_recast items]
  | .paren inner => by
    rw [Expr.recast, Expr.names, ← inner.names_recast]
    exact Expr.names.eq_def _
  | .markup e => by rw [Expr.recast, Expr.names, Expr.names, e.names_recast]

theorem namesOfItems_recast : (es : List Expr) →
    namesOfItems (recastItems (relined n) es) = namesOfItems es
  | [] => by rw [recastItems]
  | e :: es => by
    rw [recastItems, namesOfItems, namesOfItems, e.names_recast, namesOfItems_recast es]

theorem Body.names_recast : (b : Body) → (b.recast (relined n)).names = b.names
  | .result value => by rw [Body.recast, Body.names, Body.names, value.names_recast]
  | .block ss => by rw [Body.recast, Body.names, Body.names, namesOfStatements_recast ss]

theorem Property.names_recast : (p : Property) → (p.recast (relined n)).names = p.names
  | .entry _ value => by rw [Property.recast, Property.names, Property.names, value.names_recast]
  | .shorthand _ => by rw [Property.recast]
  | .spread value => by rw [Property.recast, Property.names, Property.names, value.names_recast]

theorem namesOfProperties_recast : (ps : List Property) →
    namesOfProperties (recastProperties (relined n) ps) = namesOfProperties ps
  | [] => by rw [recastProperties]
  | p :: ps => by
    rw [recastProperties, namesOfProperties, namesOfProperties, p.names_recast,
      namesOfProperties_recast ps]

theorem Element.names_recast : (e : Element) → (e.recast (relined n)).names = e.names
  | .mk _ attributes content _ => by
    rw [Element.recast, Element.names, Element.names, namesOfAttributes_recast attributes,
      content.names_recast]

theorem Attribute.names_recast : (a : Attribute) → (a.recast (relined n)).names = a.names
  | .bare _ => by rw [Attribute.recast]
  | .text _ _ => by rw [Attribute.recast, Attribute.names, Attribute.names]
  | .value _ value => by rw [Attribute.recast, Attribute.names, Attribute.names, value.names_recast]
  | .spread value => by rw [Attribute.recast, Attribute.names, Attribute.names, value.names_recast]

theorem namesOfAttributes_recast : (as : List Attribute) →
    namesOfAttributes (recastAttributes (relined n) as) = namesOfAttributes as
  | [] => by rw [recastAttributes]
  | a :: as => by
    rw [recastAttributes, namesOfAttributes, namesOfAttributes, a.names_recast,
      namesOfAttributes_recast as]

theorem Content.names_recast : (c : Content) → (c.recast (relined n)).names = c.names
  | .selfClosing => by rw [Content.recast]
  | .children cs => by rw [Content.recast, Content.names, Content.names, namesOfChildren_recast cs]

theorem Child.names_recast : (c : Child) → (c.recast (relined n)).names = c.names
  | .text _ => by rw [Child.recast, Child.names, Child.names]
  | .emptyContainer _ => by rw [Child.recast, Child.names, Child.names]
  | .container value _ => by rw [Child.recast, Child.names, Child.names, value.names_recast]
  | .element e => by rw [Child.recast, Child.names, Child.names, e.names_recast]

theorem namesOfChildren_recast : (cs : List Child) →
    namesOfChildren (recastChildren (relined n) cs) = namesOfChildren cs
  | [] => by rw [recastChildren]
  | c :: cs => by
    rw [recastChildren, namesOfChildren, namesOfChildren, c.names_recast, namesOfChildren_recast cs]

theorem Statement.names_recast : (s : Statement) → (s.recast (relined n)).names = s.names
  | .imports _ => by rw [Statement.recast, Statement.names, Statement.names]; rfl
  | .const _ _ value => by
    rw [Statement.recast, Statement.names, Statement.names, value.names_recast]
  | .returns value => by rw [Statement.recast, Statement.names, Statement.names, value.names_recast]
  | .returnsNothing => by rw [Statement.recast]
  | .expr value => by rw [Statement.recast, Statement.names, Statement.names, value.names_recast]

theorem namesOfStatements_recast : (ss : List Statement) →
    namesOfStatements (recastStatements (relined n) ss) = namesOfStatements ss
  | [] => by rw [recastStatements]
  | s :: ss => by
    rw [recastStatements, namesOfStatements, namesOfStatements, s.names_recast,
      namesOfStatements_recast ss]

end

theorem Module.names_recast (m : Module) : (m.recast (relined n)).names = m.names :=
  namesOfStatements_recast n m.body

theorem Element.hasAttribute_recast (e : Element) (name : String) :
    (e.recast (relined n)).hasAttribute name = e.hasAttribute name := by
  obtain ⟨tag, attributes, content, span⟩ := e
  rw [Element.recast, recastAttributes_eq]
  unfold Element.hasAttribute Element.attributes
  rw [List.any_map]
  congr 1
  funext a
  cases a <;> simp [Attribute.recast, Attribute.name?]

theorem Child.isWrappable_recast (c : Child) :
    (c.recast (relined n)).isWrappable = c.isWrappable := by
  cases c with
  | text t =>
    rw [Child.recast]
    exact MarkupText.isSignificant_withLineFeeds t.raw _ _
  | container value span => rw [Child.recast, Child.isWrappable, Child.isWrappable]
  | emptyContainer span => rw [Child.recast, Child.isWrappable, Child.isWrappable]
  | element e => rw [Child.recast, Child.isWrappable, Child.isWrappable]

theorem any_isWrappable_recast (cs : List Child) :
    (recastChildren (relined n) cs).any Child.isWrappable = cs.any Child.isWrappable := by
  rw [recastChildren_eq, List.any_map]
  congr 1
  funext c
  exact c.isWrappable_recast n

end Source

namespace Annotate

open Source Text

theorem recordsChildren_recast (n : Nat → Nat) (e : Element) :
    recordsChildren (e.recast (relined n)) = recordsChildren e := by
  have hcontent : (e.recast (relined n)).content.toList.any Child.isWrappable =
      e.content.toList.any Child.isWrappable := by
    obtain ⟨tag, attributes, content, span⟩ := e
    rw [Element.recast]
    cases content with
    | selfClosing => rw [Element.content, Element.content, Content.recast]
    | children cs =>
      rw [Element.content, Element.content, Content.recast, Content.toList, Content.toList,
        any_isWrappable_recast]
  unfold recordsChildren
  rw [Element.hasAttribute_recast, hcontent]

/-! ## The report -/

section

variable (n : Nat → Nat)

mutual

theorem tallyExpr_recast : (e : Expr) → tallyExpr (e.recast (relined n)) = tallyExpr e
  | .text _ | .number _ | .bool _ | .null | .this | .helper _ | .name _ | .location _ => by
    rw [Expr.recast]
  | .member object _ => by rw [Expr.recast, tallyExpr, tallyExpr, tallyExpr_recast object]
  | .call callee arguments => by
    rw [Expr.recast, tallyExpr, tallyExpr, tallyExpr_recast callee, tallyExprs_recast arguments]
  | .arrow _ b => by rw [Expr.recast, tallyExpr, tallyExpr, tallyBody_recast b]
  | .object ps => by rw [Expr.recast, tallyExpr, tallyExpr, tallyProperties_recast ps]
  | .array items => by rw [Expr.recast, tallyExpr, tallyExpr, tallyExprs_recast items]
  | .paren inner => by
    rw [Expr.recast, tallyExpr, ← tallyExpr_recast inner]
    exact tallyExpr.eq_def _
  | .markup e => by rw [Expr.recast, tallyExpr, tallyExpr, tallyElement_recast e]

theorem tallyExprs_recast : (es : List Expr) →
    tallyExprs (recastItems (relined n) es) = tallyExprs es
  | [] => by rw [recastItems]
  | e :: es => by
    rw [recastItems, tallyExprs, tallyExprs, tallyExpr_recast e, tallyExprs_recast es]

theorem tallyBody_recast : (b : Body) → tallyBody (b.recast (relined n)) = tallyBody b
  | .result value => by rw [Body.recast, tallyBody, tallyBody, tallyExpr_recast value]
  | .block ss => by rw [Body.recast, tallyBody, tallyBody, tallyStatements_recast ss]

theorem tallyProperty_recast : (p : Property) →
    tallyProperty (p.recast (relined n)) = tallyProperty p
  | .entry _ value => by
    rw [Property.recast, tallyProperty, tallyProperty, tallyExpr_recast value]
  | .shorthand _ => by rw [Property.recast]
  | .spread value => by
    rw [Property.recast, tallyProperty, tallyProperty, tallyExpr_recast value]

theorem tallyProperties_recast : (ps : List Property) →
    tallyProperties (recastProperties (relined n) ps) = tallyProperties ps
  | [] => by rw [recastProperties]
  | p :: ps => by
    rw [recastProperties, tallyProperties, tallyProperties, tallyProperty_recast p,
      tallyProperties_recast ps]

theorem tallyElement_recast : (e : Element) → tallyElement (e.recast (relined n)) = tallyElement e
  | .mk name as c span => by
    have hrecords := recordsChildren_recast n (.mk name as c span)
    have hself := Element.hasAttribute_recast n (.mk name as c span)
    rw [Element.recast] at hrecords hself ⊢
    rw [tallyElement, tallyElement, tallyAttrs_recast as, hrecords, tallyContent_recast _ c, Tally.ofElement, Tally.ofElement, hself, hself]

theorem tallyAttr_recast : (a : Attribute) → tallyAttr (a.recast (relined n)) = tallyAttr a
  | .bare _ => by rw [Attribute.recast]
  | .text _ _ => by rw [Attribute.recast, tallyAttr, tallyAttr]
  | .value _ value => by rw [Attribute.recast, tallyAttr, tallyAttr, tallyExpr_recast value]
  | .spread value => by rw [Attribute.recast, tallyAttr, tallyAttr, tallyExpr_recast value]

theorem tallyAttrs_recast : (as : List Attribute) →
    tallyAttrs (recastAttributes (relined n) as) = tallyAttrs as
  | [] => by rw [recastAttributes]
  | a :: as => by
    rw [recastAttributes, tallyAttrs, tallyAttrs, tallyAttr_recast a, tallyAttrs_recast as]

theorem tallyContent_recast (records : Bool) : (c : Content) →
    tallyContent records (c.recast (relined n)) = tallyContent records c
  | .selfClosing => by rw [Content.recast]
  | .children cs => by
    rw [Content.recast, tallyContent, tallyContent, tallyChildren_recast records cs]

theorem tallyChildren_recast (records : Bool) : (cs : List Child) →
    tallyChildren records (recastChildren (relined n) cs) = tallyChildren records cs
  | [] => by rw [recastChildren]
  | c :: cs => by
    have hplace : Tally.ofChild records (c.recast (relined n)) = Tally.ofChild records c := by
      have hwrappable := c.isWrappable_recast n
      cases c <;> rw [Child.recast] at hwrappable ⊢ <;>
        simp_all only [Tally.ofChild, Child.isWrappable]
    rw [recastChildren, tallyChildren, tallyChildren, hplace, tallyChild_recast c,
      tallyChildren_recast records cs]

theorem tallyChild_recast : (c : Child) → tallyChild (c.recast (relined n)) = tallyChild c
  | .text _ => by rw [Child.recast, tallyChild, tallyChild]
  | .emptyContainer _ => by rw [Child.recast, tallyChild, tallyChild]
  | .container value _ => by rw [Child.recast, tallyChild, tallyChild, tallyExpr_recast value]
  | .element e => by rw [Child.recast, tallyChild, tallyChild, tallyElement_recast e]

theorem tallyStatement_recast : (s : Statement) →
    tallyStatement (s.recast (relined n)) = tallyStatement s
  | .imports _ => by rw [Statement.recast, tallyStatement, tallyStatement]
  | .const _ _ value => by
    rw [Statement.recast, tallyStatement, tallyStatement, tallyExpr_recast value]
  | .returns value => by
    rw [Statement.recast, tallyStatement, tallyStatement, tallyExpr_recast value]
  | .returnsNothing => by rw [Statement.recast]
  | .expr value => by
    rw [Statement.recast, tallyStatement, tallyStatement, tallyExpr_recast value]

theorem tallyStatements_recast : (ss : List Statement) →
    tallyStatements (recastStatements (relined n) ss) = tallyStatements ss
  | [] => by rw [recastStatements]
  | s :: ss => by
    rw [recastStatements, tallyStatements, tallyStatements, tallyStatement_recast s,
      tallyStatements_recast ss]

end

end

/-! ## The annotated module -/

/-- The same names in a text with other lines. -/
def Site.over (s : Site) (index : LineIndex) : Site := { s with index := index }

/-- Where the element is in one of the texts it has the location that it has in the other one, and so
have its children. -/
def Fits (n : Nat → Nat) (index : LineIndex) (s : Site) : Part → Prop
  | .element e => (s.over index).location (moveSpan n e.span) = s.location e.span ∧
    ∀ c ∈ e.content.toList, (s.over index).location (c.recast (relined n)).place = s.location c.place
  | .location _ => True

section

variable {n : Nat → Nat} {index : LineIndex} {s : Site}

theorem recastAttributes_append (c : Recasting) (as bs : List Attribute) :
    recastAttributes c (as ++ bs) = recastAttributes c as ++ recastAttributes c bs := by
  rw [recastAttributes_eq, recastAttributes_eq, recastAttributes_eq, List.map_append]

theorem addedAttributes_recast {e : Element}
    (hspan : (s.over index).location (moveSpan n e.span) = s.location e.span) :
    addedAttributes (s.over index) (e.recast (relined n)) =
      recastAttributes (relined n) (addedAttributes s e) := by
  have hspan' : (e.recast (relined n)).span = moveSpan n e.span := by
    obtain ⟨tag, attributes, content, span⟩ := e
    rw [Element.recast]
    rfl
  have hsource : ∀ records, (s.over index).source (moveSpan n e.span) records =
      (s.source e.span records).recast (relined n) := by
    intro records
    unfold Site.source
    rw [hspan]
    cases records <;> simp [Site.over, Expr.recast, recastItems]
  unfold addedAttributes
  rw [Element.hasAttribute_recast, Element.hasAttribute_recast, recordsChildren_recast, hspan',
    hsource, recastAttributes_append]
  cases e.hasAttribute selfAttribute <;> cases e.hasAttribute sourceAttribute <;>
    simp [recastAttributes, Attribute.recast, Expr.recast]

theorem record_recast {span span' : Span} (hspan : (s.over index).location span = s.location span')
    {value value' : Expr} (hvalue : value = value'.recast (relined n)) (isExpression isLast : Bool) :
    (s.over index).record span value isExpression isLast =
      (s.record span' value' isExpression isLast).recast (relined n) := by
  unfold Site.record
  rw [hspan, hvalue]
  simp [Site.over, Expr.recast, recastItems]

mutual

theorem expr_recast : (e : Expr) → (∀ x ∈ e.parts, Fits n index s x) →
    expr (s.over index) (e.recast (relined n)) = (expr s e).recast (relined n)
  | .text _, _ | .number _, _ | .bool _, _ | .null, _ | .this, _ | .helper _, _ | .name _, _
  | .location _, _ => by
    simp only [Expr.recast, expr]
  | .member object _, h => by
    rw [Expr.parts] at h
    rw [Expr.recast, expr, expr, Expr.recast, expr_recast object h]
  | .call callee arguments, h => by
    rw [Expr.parts, List.forall_mem_append] at h
    rw [Expr.recast, expr, expr, Expr.recast, expr_recast callee h.1, exprs_recast arguments h.2]
  | .arrow _ b, h => by
    rw [Expr.parts] at h
    rw [Expr.recast, expr, expr, Expr.recast, body_recast b h]
  | .object ps, h => by
    rw [Expr.parts] at h
    rw [Expr.recast, expr, expr, Expr.recast, properties_recast ps h]
  | .array items, h => by
    rw [Expr.parts] at h
    rw [Expr.recast, expr, expr, Expr.recast, exprs_recast items h]
  | .paren inner, h => by
    rw [Expr.parts] at h
    rw [Expr.recast, expr, Expr.recast, ← expr_recast inner h]
    exact expr.eq_def _ _
  | .markup e, h => by
    rw [Expr.parts] at h
    rw [Expr.recast, expr, expr, Expr.recast, element_recast e h]

theorem exprs_recast : (es : List Expr) → (∀ x ∈ partsOfItems es, Fits n index s x) →
    exprs (s.over index) (recastItems (relined n) es) = recastItems (relined n) (exprs s es)
  | [], _ => by rw [recastItems, exprs, exprs, recastItems]
  | e :: es, h => by
    rw [partsOfItems, List.forall_mem_append] at h
    rw [recastItems, exprs, exprs, recastItems, expr_recast e h.1, exprs_recast es h.2]

theorem body_recast : (b : Body) → (∀ x ∈ b.parts, Fits n index s x) →
    body (s.over index) (b.recast (relined n)) = (body s b).recast (relined n)
  | .result value, h => by
    rw [Body.parts] at h
    rw [Body.recast, body, body, Body.recast, expr_recast value h]
  | .block ss, h => by
    rw [Body.parts] at h
    rw [Body.recast, body, body, Body.recast, statements_recast ss h]

theorem property_recast : (p : Property) → (∀ x ∈ p.parts, Fits n index s x) →
    property (s.over index) (p.recast (relined n)) = (property s p).recast (relined n)
  | .entry _ value, h => by
    rw [Property.parts] at h
    rw [Property.recast, property, property, Property.recast, expr_recast value h]
  | .shorthand _, _ => by rw [Property.recast, property, property, Property.recast]
  | .spread value, h => by
    rw [Property.parts] at h
    rw [Property.recast, property, property, Property.recast, expr_recast value h]

theorem properties_recast : (ps : List Property) → (∀ x ∈ partsOfProperties ps, Fits n index s x) →
    properties (s.over index) (recastProperties (relined n) ps) = recastProperties (relined n) (properties s ps)
  | [], _ => by rw [recastProperties, properties, properties, recastProperties]
  | p :: ps, h => by
    rw [partsOfProperties, List.forall_mem_append] at h
    rw [recastProperties, properties, properties, recastProperties, property_recast p h.1,
      properties_recast ps h.2]

theorem element_recast : (e : Element) → (∀ x ∈ e.parts, Fits n index s x) →
    element (s.over index) (e.recast (relined n)) = (element s e).recast (relined n)
  | .mk name as c span, h => by
    rw [Element.parts, List.forall_mem_cons, List.forall_mem_append] at h
    obtain ⟨⟨hspan, hplaces⟩, has, hc⟩ := h
    have hadded := addedAttributes_recast hspan
    have hrecords := recordsChildren_recast n (.mk name as c span)
    rw [Element.recast] at hadded hrecords ⊢
    rw [element, element, Element.recast, recastAttributes_append, attrs_recast as has, hadded,
      hrecords, content_recast _ c hc hplaces]

theorem attr_recast : (a : Attribute) → (∀ x ∈ a.parts, Fits n index s x) →
    attr (s.over index) (a.recast (relined n)) = (attr s a).recast (relined n)
  | .bare _, _ => by rw [Attribute.recast, attr, attr, Attribute.recast]
  | .text _ _, _ => by rw [Attribute.recast, attr, attr, Attribute.recast]
  | .value _ value, h => by
    rw [Attribute.parts] at h
    rw [Attribute.recast, attr, attr, Attribute.recast, expr_recast value h]
  | .spread value, h => by
    rw [Attribute.parts] at h
    rw [Attribute.recast, attr, attr, Attribute.recast, expr_recast value h]

theorem attrs_recast : (as : List Attribute) → (∀ x ∈ partsOfAttributes as, Fits n index s x) →
    attrs (s.over index) (recastAttributes (relined n) as) = recastAttributes (relined n) (attrs s as)
  | [], _ => by rw [recastAttributes, attrs, attrs, recastAttributes]
  | a :: as, h => by
    rw [partsOfAttributes, List.forall_mem_append] at h
    rw [recastAttributes, attrs, attrs, recastAttributes, attr_recast a h.1, attrs_recast as h.2]

theorem content_recast (records : Bool) : (c : Content) → (∀ x ∈ c.parts, Fits n index s x) →
    (∀ x ∈ c.toList, (s.over index).location (x.recast (relined n)).place = s.location x.place) →
    content (s.over index) records (c.recast (relined n)) = (content s records c).recast (relined n)
  | .selfClosing, _, _ => by rw [Content.recast, content, content, Content.recast]
  | .children cs, h, hplaces => by
    rw [Content.parts] at h
    rw [Content.recast, content, content, Content.recast, children_recast records cs h hplaces]

theorem children_recast (records : Bool) : (cs : List Child) →
    (∀ x ∈ partsOfChildren cs, Fits n index s x) →
    (∀ x ∈ cs, (s.over index).location (x.recast (relined n)).place = s.location x.place) →
    children (s.over index) records (recastChildren (relined n) cs) =
      recastChildren (relined n) (children s records cs)
  | [], _, _ => by rw [recastChildren, children, children, recastChildren]
  | c :: cs, h, hplaces => by
    rw [partsOfChildren, List.forall_mem_append] at h
    rw [List.forall_mem_cons] at hplaces
    rw [recastChildren, children, children, recastChildren, any_isWrappable_recast,
      child_recast records _ c h.1 hplaces.1, children_recast records cs h.2 hplaces.2]

theorem child_recast (records isLast : Bool) : (c : Child) → (∀ x ∈ c.parts, Fits n index s x) →
    (s.over index).location (c.recast (relined n)).place = s.location c.place →
    child (s.over index) records isLast (c.recast (relined n)) = (child s records isLast c).recast (relined n)
  | .text t => by
    intro _ hplace
    have hsignificant : (t.recast (relined n)).isSignificant = t.isSignificant :=
      MarkupText.isSignificant_withLineFeeds t.raw _ _
    have hcooked : (t.recast (relined n)).cooked = t.cooked :=
      MarkupText.cooked_withLineFeeds t.raw _ _
    have hvalue : Expr.text (t.recast (relined n)).cooked =
        (Expr.text t.cooked).recast (relined n) := by rw [Expr.recast, hcooked]
    rw [Child.recast, Child.place, Child.place] at hplace
    rw [Child.recast, child, child, hsignificant]
    split
    · rw [Child.recast, record_recast hplace hvalue]
      rfl
    · rw [Child.recast]
  | .container value span => by
    intro h hplace
    rw [Child.parts] at h
    rw [Child.recast, Child.place, Child.place] at hplace
    rw [Child.recast, child, child]
    split
    · rw [Child.recast, record_recast hplace (expr_recast value h)]
    · rw [Child.recast, expr_recast value h]
  | .emptyContainer _ => by
    intro _ _
    rw [Child.recast, child, child, Child.recast]
  | .element e => by
    intro h _
    rw [Child.parts] at h
    rw [Child.recast, child, child, Child.recast, element_recast e h]

theorem statement_recast : (x : Statement) → (∀ y ∈ x.parts, Fits n index s y) →
    statement (s.over index) (x.recast (relined n)) = (statement s x).recast (relined n)
  | .imports _, _ => by rw [Statement.recast, statement, statement, Statement.recast]
  | .const _ _ value, h => by
    rw [Statement.parts] at h
    rw [Statement.recast, statement, statement, Statement.recast, expr_recast value h]
  | .returns value, h => by
    rw [Statement.parts] at h
    rw [Statement.recast, statement, statement, Statement.recast, expr_recast value h]
  | .returnsNothing, _ => by rw [Statement.recast, statement, statement, Statement.recast]
  | .expr value, h => by
    rw [Statement.parts] at h
    rw [Statement.recast, statement, statement, Statement.recast, expr_recast value h]

theorem statements_recast : (xs : List Statement) → (∀ y ∈ partsOfStatements xs, Fits n index s y) →
    statements (s.over index) (recastStatements (relined n) xs) = recastStatements (relined n) (statements s xs)
  | [], _ => by rw [recastStatements, statements, statements, recastStatements]
  | x :: xs, h => by
    rw [partsOfStatements, List.forall_mem_append] at h
    rw [recastStatements, statements, statements, recastStatements, statement_recast x h.1,
      statements_recast xs h.2]

end

end

end Annotate

end MarkupTrace
