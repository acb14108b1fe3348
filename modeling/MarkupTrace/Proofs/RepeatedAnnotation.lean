import MarkupTrace.Proofs.AnnotatedTrees

/-!
# Annotating again

An annotated module has as many elements as the module that was annotated, and every one of them has
both attributes. There is nothing left to do for an element that has both: its children are not
recorded and no attribute is added. So annotating an annotated module changes nothing, whatever text,
file name and options come with it, and all that is counted are two kept attributes for each element.
-/

namespace MarkupTrace.Source

theorem partsOfStatements_append (xs ys : List Statement) :
    partsOfStatements (xs ++ ys) = partsOfStatements xs ++ partsOfStatements ys := by
  rw [partsOfStatements_eq, partsOfStatements_eq, partsOfStatements_eq, List.flatMap_append]

end MarkupTrace.Source

namespace MarkupTrace.Annotate

open Source

/-! ## The elements of annotated code -/

theorem parts_record (s : Site) (span : Text.Span) (value : Expr) (isExpression isLast : Bool) :
    (s.record span value isExpression isLast).parts =
      .location (s.location span) :: value.parts := by
  simp only [Site.record, Expr.parts, partsOfItems, List.append_nil, List.nil_append,
    List.singleton_append]

theorem elements_addedAttributes (s : Site) (e : Element) :
    elementsIn (partsOfAttributes (addedAttributes s e)) = [] := by
  unfold addedAttributes Site.source
  split <;> split <;> try split
  all_goals simp [partsOfAttributes, Attribute.parts, Expr.parts, partsOfItems]

mutual

/-- Annotation keeps the elements and their order. -/
theorem elements_expr (s : Site) : (e : Expr) →
    elementsIn (expr s e).parts = (elementsIn e.parts).map (element s)
  | .text _ | .number _ | .bool _ | .null | .this | .name _ | .location _ | .helper _ => by
    simp [expr, Expr.parts]
  | .member object _ => by simpa only [expr, Expr.parts] using elements_expr s object
  | .call callee arguments => by
    simp only [expr, Expr.parts, elementsIn_append, List.map_append, elements_expr s callee,
      elements_exprs s arguments]
  | .arrow _ b => by simpa only [expr, Expr.parts] using elements_body s b
  | .object ps => by simpa only [expr, Expr.parts] using elements_properties s ps
  | .array items => by simpa only [expr, Expr.parts] using elements_exprs s items
  | .paren inner => by simpa only [expr, Expr.parts] using elements_expr s inner
  | .markup e => by simpa only [expr, Expr.parts] using elements_element s e

theorem elements_exprs (s : Site) : (es : List Expr) →
    elementsIn (partsOfItems (exprs s es)) = (elementsIn (partsOfItems es)).map (element s)
  | [] => by simp only [exprs, partsOfItems, elementsIn_nil, List.map_nil]
  | e :: es => by
    simp only [exprs, partsOfItems, elementsIn_append, List.map_append, elements_expr s e,
      elements_exprs s es]

theorem elements_body (s : Site) : (b : Body) →
    elementsIn (body s b).parts = (elementsIn b.parts).map (element s)
  | .result value => by simpa only [body, Body.parts] using elements_expr s value
  | .block ss => by simpa only [body, Body.parts] using elements_statements s ss

theorem elements_property (s : Site) : (p : Property) →
    elementsIn (property s p).parts = (elementsIn p.parts).map (element s)
  | .entry _ value => by simpa only [property, Property.parts] using elements_expr s value
  | .shorthand _ => by simp only [property, Property.parts, elementsIn_nil, List.map_nil]
  | .spread value => by simpa only [property, Property.parts] using elements_expr s value

theorem elements_properties (s : Site) : (ps : List Property) →
    elementsIn (partsOfProperties (properties s ps)) =
      (elementsIn (partsOfProperties ps)).map (element s)
  | [] => by simp only [properties, partsOfProperties, elementsIn_nil, List.map_nil]
  | p :: ps => by
    simp only [properties, partsOfProperties, elementsIn_append, List.map_append,
      elements_property s p, elements_properties s ps]

theorem elements_element (s : Site) : (e : Element) →
    elementsIn (element s e).parts = (elementsIn e.parts).map (element s)
  | .mk name as c span => by
    have hadded := elements_addedAttributes s (.mk name as c span)
    have hcontent := elements_content s (recordsChildren (.mk name as c span)) c
    rw [Element.parts, elementsIn_element, List.map_cons, element, Element.parts]
    simp only [elementsIn_element, elementsIn_append, List.map_append, partsOfAttributes_append,
      elements_attrs s as, hadded, hcontent, List.append_nil]

theorem elements_attr (s : Site) : (a : Attribute) →
    elementsIn (attr s a).parts = (elementsIn a.parts).map (element s)
  | .bare _ | .text _ _ => by simp only [attr, Attribute.parts, elementsIn_nil, List.map_nil]
  | .value _ value => by simpa only [attr, Attribute.parts] using elements_expr s value
  | .spread value => by simpa only [attr, Attribute.parts] using elements_expr s value

theorem elements_attrs (s : Site) : (as : List Attribute) →
    elementsIn (partsOfAttributes (attrs s as)) =
      (elementsIn (partsOfAttributes as)).map (element s)
  | [] => by simp only [attrs, partsOfAttributes, elementsIn_nil, List.map_nil]
  | a :: as => by
    simp only [attrs, partsOfAttributes, elementsIn_append, List.map_append, elements_attr s a,
      elements_attrs s as]

theorem elements_content (s : Site) (records : Bool) : (c : Content) →
    elementsIn (content s records c).parts = (elementsIn c.parts).map (element s)
  | .selfClosing => by simp only [content, Content.parts, elementsIn_nil, List.map_nil]
  | .children cs => by
    simpa only [content, Content.parts] using elements_children s records cs

theorem elements_children (s : Site) (records : Bool) : (cs : List Child) →
    elementsIn (partsOfChildren (children s records cs)) =
      (elementsIn (partsOfChildren cs)).map (element s)
  | [] => by simp only [children, partsOfChildren, elementsIn_nil, List.map_nil]
  | c :: cs => by
    simp only [children, partsOfChildren, elementsIn_append, List.map_append,
      elements_child s records (!cs.any Child.isWrappable) c, elements_children s records cs]

theorem elements_child (s : Site) (records isLast : Bool) : (c : Child) →
    elementsIn (child s records isLast c).parts = (elementsIn c.parts).map (element s)
  | .text t => by
    simp only [child, Child.parts, elementsIn_nil, List.map_nil]
    split
    · simp only [Child.parts, parts_record, Expr.parts, elementsIn_location, elementsIn_nil]
    · simp only [Child.parts, elementsIn_nil]
  | .container value span => by
    simp only [child, Child.parts]
    split
    · simp only [Child.parts, parts_record, elementsIn_location, elements_expr s value]
    · simp only [Child.parts, elements_expr s value]
  | .emptyContainer _ => by simp only [child, Child.parts, elementsIn_nil, List.map_nil]
  | .element e => by simpa only [child, Child.parts] using elements_element s e

theorem elements_statement (s : Site) : (x : Statement) →
    elementsIn (statement s x).parts = (elementsIn x.parts).map (element s)
  | .imports _ | .returnsNothing => by
    simp only [statement, Statement.parts, elementsIn_nil, List.map_nil]
  | .const _ _ value => by simpa only [statement, Statement.parts] using elements_expr s value
  | .returns value => by simpa only [statement, Statement.parts] using elements_expr s value
  | .expr value => by simpa only [statement, Statement.parts] using elements_expr s value

theorem elements_statements (s : Site) : (xs : List Statement) →
    elementsIn (partsOfStatements (statements s xs)) =
      (elementsIn (partsOfStatements xs)).map (element s)
  | [] => by simp only [statements, partsOfStatements, elementsIn_nil, List.map_nil]
  | x :: xs => by
    simp only [statements, partsOfStatements, elementsIn_append, List.map_append,
      elements_statement s x, elements_statements s xs]

end

theorem elements_declarations (names : Names) (fileName : String) (t : Tally) :
    elementsIn (partsOfStatements (declarations names fileName t)) = [] := by
  unfold declarations declare
  split <;> split <;> simp [partsOfStatements, Statement.parts, Expr.parts]

theorem elements_insertBehindImports (added : List Statement) (m : Module)
    (h : elementsIn (partsOfStatements added) = []) :
    (insertBehindImports added m).elements = m.elements := by
  have hbody := congrArg partsOfStatements (List.take_append_drop m.leadingImports m.body)
  rw [partsOfStatements_append] at hbody
  simp only [Module.elements, Module.parts, insertBehindImports, partsOfStatements_append,
    elementsIn_append, h, List.append_nil, ← hbody]

/-- The elements of an annotated module are those of the module, annotated, in the same order. -/
theorem elements_annotate (m : Module) (source fileName : String) (o : Options) :
    (annotate m source fileName o).module.elements = m.elements.map
      (element ⟨Text.LineIndex.ofText source, o.normalizeLineEndings, .ofModule m o⟩) := by
  rw [annotate, elements_insertBehindImports _ _ (elements_declarations _ _ _)]
  exact elements_statements _ m.body

/-! ## Elements with both attributes -/

/-- Every element has both attributes. -/
def Marked (es : List Element) : Prop :=
  ∀ e ∈ es, e.hasAttribute selfAttribute = true ∧ e.hasAttribute sourceAttribute = true

namespace Marked

variable {xs ys : List Element} {e : Element}

theorem left (h : Marked (xs ++ ys)) : Marked xs :=
  fun e he => h e (List.mem_append_left _ he)

theorem right (h : Marked (xs ++ ys)) : Marked ys :=
  fun e he => h e (List.mem_append_right _ he)

theorem head (h : Marked (e :: xs)) :
    e.hasAttribute selfAttribute = true ∧ e.hasAttribute sourceAttribute = true :=
  h e List.mem_cons_self

theorem tail (h : Marked (e :: xs)) : Marked xs :=
  fun e he => h e (List.mem_cons_of_mem _ he)

end Marked

theorem attr_name? (s : Site) (a : Attribute) : (attr s a).name? = a.name? := by
  cases a <;> rw [attr] <;> rfl

theorem any_attrs (s : Site) (as : List Attribute) (name : String) :
    ((attrs s as).any fun a => a.name? == some name) = as.any fun a => a.name? == some name := by
  induction as with
  | nil => rw [attrs]
  | cons a as ih => rw [attrs, List.any_cons, List.any_cons, ih, attr_name?]

theorem hasAttribute_element (s : Site) (e : Element) (name : String) :
    (element s e).hasAttribute name =
      (e.hasAttribute name || (addedAttributes s e).any fun a => a.name? == some name) := by
  obtain ⟨tag, as, c, span⟩ := e
  rw [element, Element.hasAttribute, Element.attributes, List.any_append, any_attrs]
  rfl

theorem marked_element (s : Site) (e : Element) : Marked [element s e] := by
  intro e' he'
  rw [List.mem_singleton.mp he', hasAttribute_element, hasAttribute_element]
  unfold addedAttributes
  by_cases hself : e.hasAttribute selfAttribute = true <;>
    by_cases hsource : e.hasAttribute sourceAttribute = true <;>
    simp [hself, hsource, Attribute.name?]

/-! ## Nothing left to do -/

/-- Where every element has both attributes, these are kept, and nothing else is counted. -/
theorem counting_of_marked {es : List Element} (h : Marked es) :
    Tally.counting es = ⟨0, 0, 0, 2 * es.length⟩ := by
  have hunplaced : unplaced es = [] :=
    List.filter_eq_nil_iff.mpr fun e he => by rw [(h e he).2]; exact Bool.false_ne_true
  have hself : es.countP (·.hasAttribute selfAttribute) = es.length :=
    List.countP_eq_length.mpr fun e he => (h e he).1
  have hsource : es.countP (·.hasAttribute sourceAttribute) = es.length :=
    List.countP_eq_length.mpr fun e he => (h e he).2
  rw [Tally.counting, hunplaced, hself, hsource, Nat.two_mul]
  rfl

theorem addedAttributes_of_marked {e : Element} (s : Site)
    (hself : e.hasAttribute selfAttribute = true)
    (hsource : e.hasAttribute sourceAttribute = true) : addedAttributes s e = [] := by
  rw [addedAttributes, if_pos hself, if_pos hsource, List.append_nil]

mutual

/-- Code whose elements have both attributes is left as it is. -/
theorem rests_expr (s : Site) : (e : Expr) → Marked (elementsIn e.parts) → expr s e = e
  | .text _, _ | .number _, _ | .bool _, _ | .null, _ | .this, _ | .name _, _ | .location _, _
  | .helper _, _ => by rw [expr]
  | .member object _, h => by
    rw [Expr.parts] at h
    rw [expr, rests_expr s object h]
  | .call callee arguments, h => by
    rw [Expr.parts, elementsIn_append] at h
    rw [expr, rests_expr s callee h.left, rests_exprs s arguments h.right]
  | .arrow _ b, h => by
    rw [Expr.parts] at h
    rw [expr, rests_body s b h]
  | .object ps, h => by
    rw [Expr.parts] at h
    rw [expr, rests_properties s ps h]
  | .array items, h => by
    rw [Expr.parts] at h
    rw [expr, rests_exprs s items h]
  | .paren inner, h => by
    rw [Expr.parts] at h
    rw [expr, rests_expr s inner h]
  | .markup e, h => by
    rw [Expr.parts] at h
    rw [expr, rests_element s e h]

theorem rests_exprs (s : Site) : (es : List Expr) → Marked (elementsIn (partsOfItems es)) →
    exprs s es = es
  | [], _ => by rw [exprs]
  | e :: es, h => by
    rw [partsOfItems, elementsIn_append] at h
    rw [exprs, rests_expr s e h.left, rests_exprs s es h.right]

theorem rests_body (s : Site) : (b : Body) → Marked (elementsIn b.parts) → body s b = b
  | .result value, h => by
    rw [Body.parts] at h
    rw [body, rests_expr s value h]
  | .block ss, h => by
    rw [Body.parts] at h
    rw [body, rests_statements s ss h]

theorem rests_property (s : Site) : (p : Property) → Marked (elementsIn p.parts) →
    property s p = p
  | .entry _ value, h => by
    rw [Property.parts] at h
    rw [property, rests_expr s value h]
  | .shorthand _, _ => by rw [property]
  | .spread value, h => by
    rw [Property.parts] at h
    rw [property, rests_expr s value h]

theorem rests_properties (s : Site) : (ps : List Property) →
    Marked (elementsIn (partsOfProperties ps)) → properties s ps = ps
  | [], _ => by rw [properties]
  | p :: ps, h => by
    rw [partsOfProperties, elementsIn_append] at h
    rw [properties, rests_property s p h.left, rests_properties s ps h.right]

theorem rests_element (s : Site) : (e : Element) → Marked (elementsIn e.parts) → element s e = e
  | .mk name as c span, h => by
    rw [Element.parts, elementsIn_element, elementsIn_append] at h
    obtain ⟨hself, hsource⟩ := h.head
    rw [element, recordsChildren_of_source hsource, addedAttributes_of_marked s hself hsource,
      rests_attrs s as h.tail.left, rests_content s c h.tail.right, List.append_nil]

theorem rests_attr (s : Site) : (a : Attribute) → Marked (elementsIn a.parts) → attr s a = a
  | .bare _, _ | .text _ _, _ => by rw [attr]
  | .value _ value, h => by
    rw [Attribute.parts] at h
    rw [attr, rests_expr s value h]
  | .spread value, h => by
    rw [Attribute.parts] at h
    rw [attr, rests_expr s value h]

theorem rests_attrs (s : Site) : (as : List Attribute) →
    Marked (elementsIn (partsOfAttributes as)) → attrs s as = as
  | [], _ => by rw [attrs]
  | a :: as, h => by
    rw [partsOfAttributes, elementsIn_append] at h
    rw [attrs, rests_attr s a h.left, rests_attrs s as h.right]

theorem rests_content (s : Site) : (c : Content) → Marked (elementsIn c.parts) →
    content s false c = c
  | .selfClosing, _ => by rw [content]
  | .children cs, h => by
    rw [Content.parts] at h
    rw [content, rests_children s cs h]

theorem rests_children (s : Site) : (cs : List Child) →
    Marked (elementsIn (partsOfChildren cs)) → children s false cs = cs
  | [], _ => by rw [children]
  | c :: cs, h => by
    rw [partsOfChildren, elementsIn_append] at h
    rw [children, rests_child s _ c h.left, rests_children s cs h.right]

theorem rests_child (s : Site) (isLast : Bool) : (c : Child) → Marked (elementsIn c.parts) →
    child s false isLast c = c
  | .text _, _ => by simp [child]
  | .emptyContainer _, _ => by rw [child]
  | .container value _, h => by
    rw [Child.parts] at h
    rw [child, if_neg Bool.false_ne_true, rests_expr s value h]
  | .element e, h => by
    rw [Child.parts] at h
    rw [child, rests_element s e h]

theorem rests_statement (s : Site) : (x : Statement) → Marked (elementsIn x.parts) →
    statement s x = x
  | .imports _, _ | .returnsNothing, _ => by rw [statement]
  | .const _ _ value, h => by
    rw [Statement.parts] at h
    rw [statement, rests_expr s value h]
  | .returns value, h => by
    rw [Statement.parts] at h
    rw [statement, rests_expr s value h]
  | .expr value, h => by
    rw [Statement.parts] at h
    rw [statement, rests_expr s value h]

theorem rests_statements (s : Site) : (xs : List Statement) →
    Marked (elementsIn (partsOfStatements xs)) → statements s xs = xs
  | [], _ => by rw [statements]
  | x :: xs, h => by
    rw [partsOfStatements, elementsIn_append] at h
    rw [statements, rests_statement s x h.left, rests_statements s xs h.right]

end

theorem insertBehindImports_nil (m : Module) : insertBehindImports [] m = m := by
  rw [insertBehindImports, List.append_nil, List.take_append_drop]

/-- A module in which every element has both attributes is not changed. -/
theorem annotate_of_marked {m : Module} (h : Marked m.elements) (source fileName : String)
    (o : Options) :
    (annotate m source fileName o).module = m ∧ (annotate m source fileName o).report =
      ⟨⟨0, 0, 0, 2 * m.elements.length⟩, false, false⟩ := by
  have htally : tallyStatements m.body = ⟨0, 0, 0, 2 * m.elements.length⟩ :=
    (tallyStatements_eq m.body).trans (counting_of_marked h)
  have hdeclarations : declarations (.ofModule m o) fileName (tallyStatements m.body) = [] := by
    rw [htally]
    rfl
  refine ⟨?_, ?_⟩
  · show insertBehindImports (declarations (.ofModule m o) fileName (tallyStatements m.body))
      ⟨statements _ m.body⟩ = m
    rw [hdeclarations, rests_statements _ m.body h, insertBehindImports_nil]
  · show Report.mk (tallyStatements m.body) _ _ = _
    rw [htally]
    rfl

/-- Annotating an annotated module changes nothing and counts two kept attributes for each of its
elements, of which it has as many as before. -/
theorem annotate_annotate (m : Module) (source source' fileName fileName' : String)
    (o o' : Options) :
    let once := annotate m source fileName o
    let twice := annotate once.module source' fileName' o'
    twice.module = once.module ∧
      twice.report = ⟨⟨0, 0, 0, 2 * once.module.elements.length⟩, false, false⟩ ∧
      once.module.elements.length = m.elements.length := by
  intro once twice
  have helements := elements_annotate m source fileName o
  have hmarked : Marked once.module.elements := by
    intro e he
    rw [helements] at he
    obtain ⟨e, -, rfl⟩ := List.mem_map.mp he
    exact (marked_element _ e).head
  obtain ⟨hmodule, hreport⟩ := annotate_of_marked hmarked source' fileName' o'
  refine ⟨hmodule, hreport, ?_⟩
  rw [helements, List.length_map]

end MarkupTrace.Annotate
