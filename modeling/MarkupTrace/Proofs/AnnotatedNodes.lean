import MarkupTrace.Proofs.NestedNodes

/-!
# The nodes of annotated code

Every node of a module leads to some nodes of the annotated module, and together with the
declarations these are all it has. Most nodes lead to their annotated form alone. An element leads to
more: to the attributes it is given, and to what stands between its tags, since it depends on the
element which of its children are recorded and which of them is the last.
-/

namespace MarkupTrace.Source

/-- Locations and helper functions are written by no author. -/
def Node.isGenerated : Node → Bool
  | .expr (.location _) | .expr (.helper _) => true
  | _ => false

end MarkupTrace.Source

namespace MarkupTrace.Annotate

open Source

/-! ## What a node leads to -/

namespace Site

/-- The nodes of a recording call, those of the recorded value aside. -/
def recordNodes (s : Site) (span : Text.Span) (value : Expr) (isExpression isLast : Bool) :
    List Node :=
  [.expr (s.record span value isExpression isLast), .expr (.name s.names.recordExpression),
    .expr (.location (s.location span)), .expr (.bool isExpression), .expr (.bool isLast)]

/-- The call that records a child, if this can be recorded. -/
def recordingNodes (s : Site) (isLast : Bool) : Child → List Node
  | .text t =>
    if t.isSignificant then
      s.recordNodes t.trimmedSpan (.text t.cooked) false isLast ++ [.expr (.text t.cooked)]
    else []
  | .container value span => s.recordNodes span (expr s value) true isLast
  | .emptyContainer _ | .element _ => []

/-- A child in its place, with the call that records it. -/
def childNodes (s : Site) (records isLast : Bool) (c : Child) : List Node :=
  .child (child s records isLast c) :: if records then s.recordingNodes isLast c else []

def childrenNodes (s : Site) (records : Bool) : List Child → List Node
  | [] => []
  | c :: cs => s.childNodes records (!cs.any Child.isWrappable) c ++ s.childrenNodes records cs

def contentNodes (s : Site) (records : Bool) (c : Content) : List Node :=
  .content (content s records c) :: s.childrenNodes records c.toList

/-- The attributes an element is given, and what stands between its tags. -/
def broughtNodes (s : Site) (e : Element) : List Node :=
  nodesOfAttributes (addedAttributes s e) ++ s.contentNodes (recordsChildren e) e.content

/-- The nodes that a node leads to; the content and the children of an element are left to the
element. -/
def outcome (s : Site) : Node → List Node
  | .expr e => [.expr (expr s e)]
  | .body b => [.body (body s b)]
  | .property p => [.property (property s p)]
  | .element e => .element (element s e) :: s.broughtNodes e
  | .attribute a => [.attribute (attr s a)]
  | .content _ | .child _ => []
  | .statement x => [.statement (statement s x)]

theorem mem_nodes_record {s : Site} {span : Text.Span} {value : Expr} {isExpression isLast : Bool}
    {y : Node} : y ∈ (s.record span value isExpression isLast).nodes ↔
      y ∈ s.recordNodes span value isExpression isLast ∨ y ∈ value.nodes := by
  simp only [record, recordNodes, Expr.nodes, nodesOfItems, List.mem_append, List.mem_cons,
    List.not_mem_nil, or_false]
  tauto

end Site

/-! ## Annotated trees -/

/-- The second nodes are those that the first ones lead to, and some more. -/
def Leads (s : Site) (xs ys more : List Node) : Prop :=
  ∀ y, y ∈ ys ↔ (∃ x ∈ xs, y ∈ s.outcome x) ∨ y ∈ more

namespace Leads

variable {s : Site} {x y : Node} {xs xs' ys ys' more more' : List Node}

theorem nil (s : Site) : Leads s [] [] [] := by simp [Leads]

theorem added (s : Site) (ys : List Node) : Leads s [] ys ys := by simp [Leads]

theorem append (h : Leads s xs ys more) (h' : Leads s xs' ys' more') :
    Leads s (xs ++ xs') (ys ++ ys') (more ++ more') := by
  intro y
  simp only [List.mem_append, h y, h' y, or_and_right, exists_or]
  exact or_or_or_comm

theorem append_nil (h : Leads s xs ys []) (h' : Leads s xs' ys' []) :
    Leads s (xs ++ xs') (ys ++ ys') [] := h.append h'

/-- A node that leads to its form and to what is still missing. -/
theorem node (hx : s.outcome x = y :: more) (h : Leads s xs ys more) :
    Leads s (x :: xs) (y :: ys) [] := by
  intro z
  simp only [List.mem_cons, h z, exists_eq_or_imp, hx, List.not_mem_nil, or_false]
  rw [or_assoc, or_comm (a := z ∈ more)]

/-- A node whose form is left to the element around it. -/
theorem left (hx : s.outcome x = []) (y : Node) (h : Leads s xs ys more) :
    Leads s (x :: xs) (y :: ys) (y :: more) := by
  intro z
  simp only [List.mem_cons, h z, exists_eq_or_imp, hx, List.not_mem_nil, false_or]
  exact or_left_comm

/-- A value and the call that records it. -/
theorem recorded {value : Expr} (span : Text.Span) (isExpression isLast : Bool)
    (h : Leads s xs value.nodes more) : Leads s xs (s.record span value isExpression isLast).nodes
      (s.recordNodes span value isExpression isLast ++ more) := by
  intro y
  rw [Site.mem_nodes_record, h y, List.mem_append]
  exact or_left_comm

end Leads

theorem nodesOfAttributes_append (as bs : List Attribute) :
    nodesOfAttributes (as ++ bs) = nodesOfAttributes as ++ nodesOfAttributes bs := by
  rw [nodesOfAttributes_eq, nodesOfAttributes_eq, nodesOfAttributes_eq, List.flatMap_append]

mutual

theorem leads_expr (s : Site) : (e : Expr) → Leads s e.nodes (expr s e).nodes []
  | .text _ | .number _ | .bool _ | .null | .this | .name _ | .location _ | .helper _ => by
    simp only [expr, Expr.nodes]
    exact .node (by rw [Site.outcome, expr]) (.nil s)
  | .member object _ => by
    simp only [expr, Expr.nodes]
    exact .node (by rw [Site.outcome, expr]) (leads_expr s object)
  | .call callee arguments => by
    simp only [expr, Expr.nodes]
    exact .node (by rw [Site.outcome, expr])
      ((leads_expr s callee).append_nil (leads_exprs s arguments))
  | .arrow _ b => by
    simp only [expr, Expr.nodes]
    exact .node (by rw [Site.outcome, expr]) (leads_body s b)
  | .object ps => by
    simp only [expr, Expr.nodes]
    exact .node (by rw [Site.outcome, expr]) (leads_properties s ps)
  | .array items => by
    simp only [expr, Expr.nodes]
    exact .node (by rw [Site.outcome, expr]) (leads_exprs s items)
  | .paren inner => by
    simp only [expr, Expr.nodes]
    exact .node (by rw [Site.outcome, expr]) (leads_expr s inner)
  | .markup e => by
    simp only [expr, Expr.nodes]
    exact .node (by rw [Site.outcome, expr]) (leads_element s e)

theorem leads_exprs (s : Site) : (es : List Expr) →
    Leads s (nodesOfItems es) (nodesOfItems (exprs s es)) []
  | [] => by
    simp only [exprs, nodesOfItems]
    exact .nil s
  | e :: es => by
    simp only [exprs, nodesOfItems]
    exact (leads_expr s e).append_nil (leads_exprs s es)

theorem leads_body (s : Site) : (b : Body) → Leads s b.nodes (body s b).nodes []
  | .result value => by
    simp only [body, Body.nodes]
    exact .node (by rw [Site.outcome, body]) (leads_expr s value)
  | .block ss => by
    simp only [body, Body.nodes]
    exact .node (by rw [Site.outcome, body]) (leads_statements s ss)

theorem leads_property (s : Site) : (p : Property) → Leads s p.nodes (property s p).nodes []
  | .entry _ value => by
    simp only [property, Property.nodes]
    exact .node (by rw [Site.outcome, property]) (leads_expr s value)
  | .shorthand _ => by
    simp only [property, Property.nodes]
    exact .node (by rw [Site.outcome, property]) (.nil s)
  | .spread value => by
    simp only [property, Property.nodes]
    exact .node (by rw [Site.outcome, property]) (leads_expr s value)

theorem leads_properties (s : Site) : (ps : List Property) →
    Leads s (nodesOfProperties ps) (nodesOfProperties (properties s ps)) []
  | [] => by
    simp only [properties, nodesOfProperties]
    exact .nil s
  | p :: ps => by
    simp only [properties, nodesOfProperties]
    exact (leads_property s p).append_nil (leads_properties s ps)

theorem leads_element (s : Site) : (e : Element) → Leads s e.nodes (element s e).nodes []
  | .mk name as c span => by
    have hadded := Leads.added s (nodesOfAttributes (addedAttributes s (.mk name as c span)))
    have hcontent := leads_content s (recordsChildren (.mk name as c span)) c
    simp only [element, Element.nodes, nodesOfAttributes_append, List.append_assoc]
    exact .node (by rw [Site.outcome, element]; rfl) ((leads_attrs s as).append
      (hadded.append hcontent))

theorem leads_attr (s : Site) : (a : Attribute) → Leads s a.nodes (attr s a).nodes []
  | .bare _ | .text _ _ => by
    simp only [attr, Attribute.nodes]
    exact .node (by rw [Site.outcome, attr]) (.nil s)
  | .value _ value => by
    simp only [attr, Attribute.nodes]
    exact .node (by rw [Site.outcome, attr]) (leads_expr s value)
  | .spread value => by
    simp only [attr, Attribute.nodes]
    exact .node (by rw [Site.outcome, attr]) (leads_expr s value)

theorem leads_attrs (s : Site) : (as : List Attribute) →
    Leads s (nodesOfAttributes as) (nodesOfAttributes (attrs s as)) []
  | [] => by
    simp only [attrs, nodesOfAttributes]
    exact .nil s
  | a :: as => by
    simp only [attrs, nodesOfAttributes]
    exact (leads_attr s a).append_nil (leads_attrs s as)

theorem leads_content (s : Site) (records : Bool) : (c : Content) →
    Leads s c.nodes (content s records c).nodes (s.contentNodes records c)
  | .selfClosing => by
    simp only [content, Content.nodes, Site.contentNodes, Content.toList, Site.childrenNodes]
    exact .left rfl _ (.nil s)
  | .children cs => by
    simp only [content, Content.nodes, Site.contentNodes, Content.toList]
    exact .left rfl _ (leads_children s records cs)

theorem leads_children (s : Site) (records : Bool) : (cs : List Child) →
    Leads s (nodesOfChildren cs) (nodesOfChildren (children s records cs))
      (s.childrenNodes records cs)
  | [] => by
    simp only [children, nodesOfChildren, Site.childrenNodes]
    exact .nil s
  | c :: cs => by
    simp only [children, nodesOfChildren, Site.childrenNodes]
    exact (leads_child s records _ c).append (leads_children s records cs)

theorem leads_child (s : Site) (records isLast : Bool) : (c : Child) →
    Leads s c.nodes (child s records isLast c).nodes (s.childNodes records isLast c)
  | .text t => by
    have htext := Leads.added s [.expr (.text t.cooked)]
    cases records with
    | false =>
      simp only [Site.childNodes, child, Child.nodes, Bool.false_and, Bool.false_eq_true, if_false]
      exact .left rfl _ (.nil s)
    | true =>
      cases ht : t.isSignificant with
      | false =>
        simp only [Site.childNodes, Site.recordingNodes, child, Child.nodes, ht, Bool.and_false,
          Bool.false_eq_true, if_false, if_true]
        exact .left rfl _ (.nil s)
      | true =>
        simp only [Site.childNodes, Site.recordingNodes, child, Child.nodes, ht, Bool.and_true,
          if_true]
        exact .left rfl _ (.recorded _ _ _ (by simpa only [Expr.nodes] using htext))
  | .container value span => by
    have hvalue := leads_expr s value
    cases records with
    | false =>
      simp only [Site.childNodes, child, Child.nodes, Bool.false_eq_true, if_false]
      exact .left rfl _ hvalue
    | true =>
      have hrecorded := hvalue.recorded span true isLast
      rw [List.append_nil] at hrecorded
      simp only [Site.childNodes, Site.recordingNodes, child, Child.nodes, if_true]
      exact .left rfl _ hrecorded
  | .emptyContainer _ => by
    simp only [Site.childNodes, Site.recordingNodes, child, Child.nodes, ite_self]
    exact .left rfl _ (.nil s)
  | .element e => by
    simp only [Site.childNodes, Site.recordingNodes, child, Child.nodes, ite_self]
    exact .left rfl _ (leads_element s e)

theorem leads_statement (s : Site) : (x : Statement) → Leads s x.nodes (statement s x).nodes []
  | .imports _ | .returnsNothing => by
    simp only [statement, Statement.nodes]
    exact .node (by rw [Site.outcome, statement]) (.nil s)
  | .const _ _ value => by
    simp only [statement, Statement.nodes]
    exact .node (by rw [Site.outcome, statement]) (leads_expr s value)
  | .returns value => by
    simp only [statement, Statement.nodes]
    exact .node (by rw [Site.outcome, statement]) (leads_expr s value)
  | .expr value => by
    simp only [statement, Statement.nodes]
    exact .node (by rw [Site.outcome, statement]) (leads_expr s value)

theorem leads_statements (s : Site) : (xs : List Statement) →
    Leads s (nodesOfStatements xs) (nodesOfStatements (statements s xs)) []
  | [] => by
    simp only [statements, nodesOfStatements]
    exact .nil s
  | x :: xs => by
    simp only [statements, nodesOfStatements]
    exact (leads_statement s x).append_nil (leads_statements s xs)

end

/-! ## Annotated modules -/

theorem nodesOfStatements_append (xs ys : List Statement) :
    nodesOfStatements (xs ++ ys) = nodesOfStatements xs ++ nodesOfStatements ys := by
  rw [nodesOfStatements_eq, nodesOfStatements_eq, nodesOfStatements_eq, List.flatMap_append]

theorem statement_mem_nodes {x : Statement} {xs : List Statement} (h : x ∈ xs) :
    .statement x ∈ nodesOfStatements xs := by
  rw [nodesOfStatements_eq]
  refine List.mem_flatMap.mpr ⟨x, h, ?_⟩
  cases x <;> simp [Statement.nodes]

theorem mem_nodes_insertBehindImports {added : List Statement} {m : Module} {y : Node} :
    y ∈ (insertBehindImports added m).nodes ↔ y ∈ nodesOfStatements added ∨ y ∈ m.nodes := by
  have hm : m.nodes = nodesOfStatements (m.body.take m.leadingImports) ++
      nodesOfStatements (m.body.drop m.leadingImports) := by
    rw [← nodesOfStatements_append, List.take_append_drop, Module.nodes]
  rw [hm, insertBehindImports, Module.nodes, nodesOfStatements_append, nodesOfStatements_append]
  simp only [List.mem_append]
  tauto

/-- An annotated module has the nodes of its declarations and those that the nodes of the module
lead to. -/
theorem mem_nodes_annotate (m : Module) (source fileName : String) (o : Options) (y : Node) :
    let a := annotate m source fileName o
    let site : Site := ⟨Text.LineIndex.ofText source, o.normalizeLineEndings, a.names⟩
    y ∈ a.module.nodes ↔
      y ∈ nodesOfStatements (declarations a.names fileName a.report.tally) ∨
        ∃ x ∈ m.nodes, y ∈ site.outcome x := by
  intro a site
  have hleads := leads_statements site m.body y
  show y ∈ (insertBehindImports (declarations a.names fileName a.report.tally)
    ⟨statements site m.body⟩).nodes ↔ _
  rw [mem_nodes_insertBehindImports]
  refine or_congr_right (hleads.trans ?_)
  exact or_iff_left List.not_mem_nil

/-! ## What an element brings -/

/-- The sorts of nodes that come with an annotated element. -/
inductive Brought (s : Site) (e : Element) : Node → Prop
  | attribute (a : Attribute) : Brought s e (.attribute a)
  | content (c : Content) : Brought s e (.content c)
  | child (c : Child) : Brought s e (.child c)
  | this : Brought s e (.expr .this)
  | text (v : String) : Brought s e (.expr (.text v))
  | bool (b : Bool) : Brought s e (.expr (.bool b))
  | location (h : e.hasAttribute sourceAttribute = false) (span : Text.Span) :
    Brought s e (.expr (.location (s.location span)))
  | recordParent (h : recordsChildren e = true) : Brought s e (.expr (.name s.names.recordParent))
  | pushing (h : recordsChildren e = true) (arguments : List Expr) :
    Brought s e (.expr (.call (.name s.names.recordParent) arguments))
  | recordExpression (h : recordsChildren e = true) :
    Brought s e (.expr (.name s.names.recordExpression))
  | recording (h : recordsChildren e = true) (arguments : List Expr) :
    Brought s e (.expr (.call (.name s.names.recordExpression) arguments))

theorem brought_recordNodes {s : Site} {e : Element} (h : recordsChildren e = true)
    (span : Text.Span) (value : Expr) (isExpression isLast : Bool) :
    ∀ y ∈ s.recordNodes span value isExpression isLast, Brought s e y := by
  simp only [Site.recordNodes, List.forall_mem_cons, List.not_mem_nil, false_implies, implies_true,
    and_true]
  exact ⟨.recording h _, .recordExpression h, .location (source_of_recordsChildren h) span, .bool _,
    .bool _⟩

theorem brought_recordingNodes {s : Site} {e : Element} (h : recordsChildren e = true)
    (isLast : Bool) (c : Child) : ∀ y ∈ s.recordingNodes isLast c, Brought s e y := by
  cases c with
  | text t =>
    rw [Site.recordingNodes]
    split_ifs
    · intro y hy
      rcases List.mem_append.mp hy with hy | hy
      · exact brought_recordNodes h _ _ _ _ y hy
      · rw [List.mem_singleton.mp hy]
        exact .text _
    · nofun
  | container value span => exact brought_recordNodes h _ _ _ _
  | emptyContainer span => nofun
  | element e => nofun

theorem brought_childNodes {s : Site} {e : Element} (isLast : Bool) (c : Child) :
    ∀ y ∈ s.childNodes (recordsChildren e) isLast c, Brought s e y := by
  rw [Site.childNodes, List.forall_mem_cons]
  refine ⟨.child _, ?_⟩
  split_ifs with h
  · exact brought_recordingNodes h isLast c
  · nofun

theorem brought_childrenNodes {s : Site} {e : Element} (cs : List Child) :
    ∀ y ∈ s.childrenNodes (recordsChildren e) cs, Brought s e y := by
  induction cs with
  | nil => nofun
  | cons c cs ih =>
    intro y hy
    rcases List.mem_append.mp hy with hy | hy
    · exact brought_childNodes _ c y hy
    · exact ih y hy

theorem brought_addedAttributes (s : Site) (e : Element) :
    ∀ y ∈ nodesOfAttributes (addedAttributes s e), Brought s e y := by
  intro y hy
  rw [addedAttributes, nodesOfAttributes_append] at hy
  rcases List.mem_append.mp hy with hy | hy
  · split_ifs at hy
    · cases hy
    · simp only [nodesOfAttributes, Attribute.nodes, Expr.nodes, List.append_nil, List.mem_cons,
        List.not_mem_nil, or_false] at hy
      rcases hy with rfl | rfl
      · exact .attribute _
      · exact .this
  · split_ifs at hy with hsource
    · cases hy
    · have hsource := Bool.eq_false_iff.mpr hsource
      simp only [nodesOfAttributes, Attribute.nodes, List.append_nil, List.mem_cons] at hy
      rcases hy with rfl | hy
      · exact .attribute _
      · rw [Site.source] at hy
        split_ifs at hy with h
        · simp only [Expr.nodes, nodesOfItems, List.append_nil, List.mem_cons, List.mem_append,
            List.not_mem_nil, or_false] at hy
          rcases hy with rfl | rfl | rfl
          · exact .pushing h _
          · exact .recordParent h
          · exact .location hsource _
        · simp only [Expr.nodes, List.mem_singleton] at hy
          rw [hy]
          exact .location hsource _

/-- Without a `__source` of the author's, the location of the element is brought. -/
theorem source_nodes_subset (s : Site) {e : Element} (h : e.hasAttribute sourceAttribute = false) :
    (s.source e.span (recordsChildren e)).nodes ⊆ s.broughtNodes e := by
  intro y hy
  refine List.mem_append_left _ ?_
  rw [addedAttributes, h, if_neg Bool.false_ne_true, nodesOfAttributes_append, nodesOfAttributes,
    nodesOfAttributes, List.append_nil, Attribute.nodes]
  exact List.mem_append_right _ (List.mem_cons_of_mem _ hy)

theorem brought_of_mem {s : Site} {e : Element} {y : Node} (h : y ∈ s.broughtNodes e) :
    Brought s e y := by
  rcases List.mem_append.mp h with h | h
  · exact brought_addedAttributes s e y h
  · rcases List.mem_cons.mp h with rfl | h
    · exact .content _
    · exact brought_childrenNodes _ y h

/-! ## Sorts of nodes -/

/-- The sorts of nodes in the declarations. -/
inductive Inserted (names : Names) (t : Tally) : Node → Prop
  | statement (x : Statement) : Inserted names t (.statement x)
  | text (v : String) : Inserted names t (.expr (.text v))
  | helper (h : 0 < t.wrapped) {x : Helper}
    (hx : x ∈ [.newStack, .recordParent names.stack, .recordExpression names.stack]) :
    Inserted names t (.expr (.helper x))

theorem inserted_of_mem {names : Names} {fileName : String} {t : Tally} {y : Node}
    (h : y ∈ nodesOfStatements (declarations names fileName t)) : Inserted names t y := by
  rw [nodesOfStatements_eq, declarations, List.flatMap_append] at h
  rcases List.mem_append.mp h with h | h
  · split_ifs at h
    · simp only [declare, List.flatMap_cons, List.flatMap_nil, Statement.nodes, Expr.nodes,
        List.append_nil, List.mem_cons, List.not_mem_nil, or_false] at h
      rcases h with rfl | rfl
      · exact .statement _
      · exact .text _
    · cases h
  · split_ifs at h with hwrapped
    · simp only [declare, List.flatMap_cons, List.flatMap_nil, Statement.nodes, Expr.nodes,
        List.cons_append, List.nil_append, List.append_nil, List.mem_cons, List.not_mem_nil,
        or_false] at h
      rcases h with rfl | rfl | rfl | rfl | rfl | rfl
      · exact .statement _
      · exact .helper hwrapped (by simp)
      · exact .statement _
      · exact .helper hwrapped (by simp)
      · exact .statement _
      · exact .helper hwrapped (by simp)
    · cases h

/-- The annotated form of a node by itself. -/
def Site.form (s : Site) : Node → Node
  | .expr e => .expr (expr s e)
  | .body b => .body (body s b)
  | .property p => .property (property s p)
  | .element e => .element (element s e)
  | .attribute a => .attribute (attr s a)
  | .statement x => .statement (statement s x)
  | x => x

theorem outcome_cases {s : Site} {x y : Node} (h : y ∈ s.outcome x) :
    y = s.form x ∨ ∃ e, x = .element e ∧ Brought s e y := by
  cases x with
  | element e =>
    rcases List.mem_cons.mp h with rfl | h
    · exact .inl rfl
    · exact .inr ⟨e, rfl, brought_of_mem h⟩
  | content c => cases h
  | child c => cases h
  | _ => exact .inl (List.mem_singleton.mp h)

section

variable {s : Site} {x : Node}

theorem name_of_expr {e : Expr} {n : String} (h : expr s e = .name n) : e = .name n := by
  cases e <;> rw [expr] at h <;> cases h
  rfl

theorem location_of_form {l : LocationLiteral} (h : .expr (.location l) = s.form x) :
    x = .expr (.location l) := by
  rcases x with e | b | p | e | a | c | c | st
  · cases e <;> rw [Site.form, expr] at h <;> cases h
    rfl
  all_goals cases h

theorem call_of_form {f : String} {arguments : List Expr}
    (h : .expr (.call (.name f) arguments) = s.form x) :
    ∃ arguments', x = .expr (.call (.name f) arguments') := by
  rcases x with e | b | p | e | a | c | c | st
  · cases e with
    | call callee arguments' =>
      rw [Site.form, expr] at h
      injection h with h
      injection h with hcallee
      exact ⟨arguments', by rw [name_of_expr hcallee.symm]⟩
    | _ =>
      rw [Site.form, expr] at h
      cases h
  all_goals cases h

end

/-- What an element of the module brings is in the annotated module. -/
theorem mem_nodes_of_brought {m : Module} (source fileName : String) (o : Options) {e : Element}
    (he : e ∈ m.elements) {y : Node}
    (h : y ∈ Site.broughtNodes
      ⟨Text.LineIndex.ofText source, o.normalizeLineEndings, .ofModule m o⟩ e) :
    y ∈ (annotate m source fileName o).module.nodes :=
  (mem_nodes_annotate m source fileName o y).mpr
    (.inr ⟨.element e, Module.mem_elements.mp he, List.mem_cons_of_mem _ h⟩)

/-- A node of an annotated module belongs to a declaration, or is the form of a node of the module,
or was brought by an element. -/
theorem node_cases {m : Module} {source fileName : String} {o : Options} {y : Node}
    (h : y ∈ (annotate m source fileName o).module.nodes) :
    let a := annotate m source fileName o
    let site : Site := ⟨Text.LineIndex.ofText source, o.normalizeLineEndings, a.names⟩
    Inserted a.names a.report.tally y ∨ (∃ x ∈ m.nodes, y = site.form x) ∨
      ∃ e ∈ m.elements, Brought site e y := by
  intro a site
  rcases (mem_nodes_annotate m source fileName o y).mp h with h | ⟨x, hx, hy⟩
  · exact .inl (inserted_of_mem h)
  · rcases outcome_cases hy with hform | ⟨e, rfl, hbrought⟩
    · exact .inr (.inl ⟨x, hx, hform⟩)
    · exact .inr (.inr ⟨e, Module.mem_elements.mpr hx, hbrought⟩)

end MarkupTrace.Annotate
