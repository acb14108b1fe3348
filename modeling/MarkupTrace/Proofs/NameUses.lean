import MarkupTrace.Proofs.Origins

/-!
# Names that code uses

Code uses a name by binding it or by looking it up. Names are looked up where they stand as
expressions, as shorthand keys, and as the first segments of tags. The callee of a call that gets a
location first is not counted: only annotation makes such calls, and it makes no others. So annotated
code uses the names that it used before, and no more.
-/

namespace MarkupTrace.Source

inductive Use
  | binds (name : String)
  | reads (name : String)
  deriving DecidableEq, Repr

/-- A call of a helper, as annotation makes them: by its name, with a location. -/
def isHelperCall : (callee : Expr) → (arguments : List Expr) → Bool
  | .name _, .location _ :: _ => true
  | _, _ => false

def Param.uses : Param → List Use
  | .name n => [.binds n]
  | .properties ns => ns.map .binds

/-- Host tags are no names. -/
def usesOfTag (name : String) : List Use :=
  if isHostTag name then [] else ((Eval.segments name).take 1).map .reads

mutual

def Expr.uses : Expr → List Use
  | .text _ | .number _ | .bool _ | .null | .this | .location _ | .helper _ => []
  | .name n => [.reads n]
  | .member object _ => object.uses
  | .call callee arguments =>
    (if isHelperCall callee arguments then [] else callee.uses) ++ usesOfItems arguments
  | .arrow ps body => ps.flatMap Param.uses ++ body.uses
  | .object properties => usesOfProperties properties
  | .array items => usesOfItems items
  | .paren inner => inner.uses
  | .markup element => element.uses

def usesOfItems : List Expr → List Use
  | [] => []
  | e :: es => e.uses ++ usesOfItems es

def Body.uses : Body → List Use
  | .result value => value.uses
  | .block statements => usesOfStatements statements

def Property.uses : Property → List Use
  | .entry _ value => value.uses
  | .shorthand n => [.reads n]
  | .spread value => value.uses

def usesOfProperties : List Property → List Use
  | [] => []
  | p :: ps => p.uses ++ usesOfProperties ps

def Element.uses : Element → List Use
  | .mk name attributes content _ => usesOfTag name ++ (usesOfAttributes attributes ++ content.uses)

def Attribute.uses : Attribute → List Use
  | .bare _ | .text _ _ => []
  | .value _ value => value.uses
  | .spread value => value.uses

def usesOfAttributes : List Attribute → List Use
  | [] => []
  | a :: as => a.uses ++ usesOfAttributes as

def Content.uses : Content → List Use
  | .selfClosing => []
  | .children children => usesOfChildren children

def Child.uses : Child → List Use
  | .text _ | .emptyContainer _ => []
  | .container value _ => value.uses
  | .element e => e.uses

def usesOfChildren : List Child → List Use
  | [] => []
  | c :: cs => c.uses ++ usesOfChildren cs

def Statement.uses : Statement → List Use
  | .imports decl => decl.bindings.map fun b => .binds b.name
  | .const _ name value => .binds name :: value.uses
  | .returns value => value.uses
  | .returnsNothing => []
  | .expr value => value.uses

def usesOfStatements : List Statement → List Use
  | [] => []
  | s :: ss => s.uses ++ usesOfStatements ss

end

theorem Element.uses_eq (e : Element) : e.uses =
    usesOfTag e.name ++ (usesOfAttributes e.attributes ++ usesOfChildren e.content.toList) := by
  obtain ⟨name, attributes, content, span⟩ := e
  cases content with
  | selfClosing => simp only [Element.uses, Content.uses, Element.name, Element.attributes,
      Element.content, Content.toList, usesOfChildren]
  | children cs => simp only [Element.uses, Content.uses, Element.name, Element.attributes,
      Element.content, Content.toList]

theorem usesOfAttributes_append (as bs : List Attribute) :
    usesOfAttributes (as ++ bs) = usesOfAttributes as ++ usesOfAttributes bs := by
  induction as with
  | nil => rw [List.nil_append, usesOfAttributes, List.nil_append]
  | cons a as ih =>
    rw [List.cons_append, usesOfAttributes, ih, usesOfAttributes, List.append_assoc]

theorem usesOfStatements_append (xs ys : List Statement) :
    usesOfStatements (xs ++ ys) = usesOfStatements xs ++ usesOfStatements ys := by
  induction xs with
  | nil => rw [List.nil_append, usesOfStatements, List.nil_append]
  | cons x xs ih =>
    rw [List.cons_append, usesOfStatements, ih, usesOfStatements, List.append_assoc]

/-! ## Uses are mentions -/

/-- A mention accounts for the use. -/
def Use.From (mentions : List Mention) : Use → Prop
  | binds n => .binder n ∈ mentions
  | reads n => .identifier n ∈ mentions ∨ .shorthand n ∈ mentions ∨ .tag n ∈ mentions

/-- The mentions account for all uses. -/
def Accounts (mentions : List Mention) (uses : List Use) : Prop := ∀ u ∈ uses, u.From mentions

namespace Accounts

variable {ms ms' : List Mention} {us us' : List Use}

theorem nil (ms : List Mention) : Accounts ms [] := nofun

theorem one {u : Use} (h : u.From ms) : Accounts ms [u] := by
  intro u' hu'
  rwa [List.mem_singleton.mp hu']

theorem mono (h : Accounts ms us) (hsub : ms ⊆ ms') : Accounts ms' us := by
  intro u hu
  have hfrom := h u hu
  cases u with
  | binds n => exact hsub hfrom
  | reads n => exact hfrom.imp (@hsub _) (Or.imp (@hsub _) (@hsub _))

theorem append (h : Accounts ms us) (h' : Accounts ms' us') : Accounts (ms ++ ms') (us ++ us') := by
  intro u hu
  rcases List.mem_append.mp hu with hu | hu
  · exact h.mono (List.subset_append_left ms ms') u hu
  · exact h'.mono (List.subset_append_right ms ms') u hu

theorem cons (h : Accounts ms us) (x : Mention) : Accounts (x :: ms) us :=
  h.mono (List.subset_cons_self x ms)

end Accounts

theorem Param.accounts (p : Param) : Accounts p.mentions p.uses := by
  cases p with
  | name n => exact .one List.mem_cons_self
  | properties ns =>
    intro u hu
    obtain ⟨n, hn, rfl⟩ := List.mem_map.mp hu
    exact List.mem_flatMap.mpr ⟨n, hn, List.mem_cons_self⟩

theorem accounts_params (ps : List Param) :
    Accounts (ps.flatMap Param.mentions) (ps.flatMap Param.uses) := by
  induction ps with
  | nil => exact .nil _
  | cons p ps ih => exact p.accounts.append ih

theorem accounts_tag (name : String) : Accounts (mentionsOfTag name) (usesOfTag name) := by
  unfold mentionsOfTag usesOfTag
  split_ifs
  · exact .nil _
  · cases Eval.segments name with
    | nil => exact .nil _
    | cons first rest => exact .one (Or.inr (Or.inr List.mem_cons_self))

theorem accounts_imports (decl : Import) : Accounts (decl.bindings.map fun b => .binder b.name)
    (decl.bindings.map fun b => .binds b.name) := by
  intro u hu
  obtain ⟨b, hb, rfl⟩ := List.mem_map.mp hu
  exact List.mem_map.mpr ⟨b, hb, rfl⟩

mutual

theorem Expr.accounts : (e : Expr) → Accounts e.mentions e.uses
  | .text _ | .number _ | .bool _ | .null | .this | .location _ | .helper _ => by
    simpa only [Expr.uses] using Accounts.nil _
  | .name n => by
    rw [Expr.mentions, Expr.uses]
    exact .one (Or.inl List.mem_cons_self)
  | .member object _ => by
    simpa only [Expr.mentions, Expr.uses] using object.accounts.cons _
  | .call callee arguments => by
    have harguments := accounts_items arguments
    rw [Expr.mentions, Expr.uses]
    split_ifs
    · exact (Accounts.nil _).append harguments
    · exact callee.accounts.append harguments
  | .arrow ps body => by
    simpa only [Expr.mentions, Expr.uses] using (accounts_params ps).append body.accounts
  | .object ps => by simpa only [Expr.mentions, Expr.uses] using accounts_properties ps
  | .array items => by simpa only [Expr.mentions, Expr.uses] using accounts_items items
  | .paren inner => by simpa only [Expr.mentions, Expr.uses] using inner.accounts
  | .markup e => by simpa only [Expr.mentions, Expr.uses] using e.accounts

theorem accounts_items : (es : List Expr) → Accounts (mentionsOfItems es) (usesOfItems es)
  | [] => by simpa only [usesOfItems] using Accounts.nil _
  | e :: es => by
    simpa only [mentionsOfItems, usesOfItems] using e.accounts.append (accounts_items es)

theorem Body.accounts : (b : Body) → Accounts b.mentions b.uses
  | .result value => by simpa only [Body.mentions, Body.uses] using value.accounts
  | .block ss => by simpa only [Body.mentions, Body.uses] using accounts_statements ss

theorem Property.accounts : (p : Property) → Accounts p.mentions p.uses
  | .entry _ value => by simpa only [Property.mentions, Property.uses] using value.accounts
  | .shorthand n => by
    rw [Property.mentions, Property.uses]
    exact .one (Or.inr (Or.inl List.mem_cons_self))
  | .spread value => by simpa only [Property.mentions, Property.uses] using value.accounts

theorem accounts_properties :
    (ps : List Property) → Accounts (mentionsOfProperties ps) (usesOfProperties ps)
  | [] => by simpa only [usesOfProperties] using Accounts.nil _
  | p :: ps => by
    simpa only [mentionsOfProperties, usesOfProperties] using
      p.accounts.append (accounts_properties ps)

theorem Element.accounts : (e : Element) → Accounts e.mentions e.uses
  | .mk name as c span => by
    rw [Element.mentions, Element.uses]
    refine (accounts_tag name).append ?_
    exact ((accounts_attributes as).append c.accounts).mono (List.subset_append_right _ _)

theorem Attribute.accounts : (a : Attribute) → Accounts a.mentions a.uses
  | .bare _ | .text _ _ => by simpa only [Attribute.uses] using Accounts.nil _
  | .value _ value => by simpa only [Attribute.mentions, Attribute.uses] using value.accounts
  | .spread value => by simpa only [Attribute.mentions, Attribute.uses] using value.accounts

theorem accounts_attributes :
    (as : List Attribute) → Accounts (mentionsOfAttributes as) (usesOfAttributes as)
  | [] => by simpa only [usesOfAttributes] using Accounts.nil _
  | a :: as => by
    simpa only [mentionsOfAttributes, usesOfAttributes] using
      a.accounts.append (accounts_attributes as)

theorem Content.accounts : (c : Content) → Accounts c.mentions c.uses
  | .selfClosing => by simpa only [Content.uses] using Accounts.nil _
  | .children cs => by simpa only [Content.mentions, Content.uses] using accounts_children cs

theorem Child.accounts : (c : Child) → Accounts c.mentions c.uses
  | .text _ | .emptyContainer _ => by simpa only [Child.uses] using Accounts.nil _
  | .container value _ => by simpa only [Child.mentions, Child.uses] using value.accounts
  | .element e => by simpa only [Child.mentions, Child.uses] using e.accounts

theorem accounts_children : (cs : List Child) → Accounts (mentionsOfChildren cs) (usesOfChildren cs)
  | [] => by simpa only [usesOfChildren] using Accounts.nil _
  | c :: cs => by
    simpa only [mentionsOfChildren, usesOfChildren] using c.accounts.append (accounts_children cs)

theorem Statement.accounts : (s : Statement) → Accounts s.mentions s.uses
  | .imports decl => by
    simpa only [Statement.mentions, Statement.uses] using accounts_imports decl
  | .const _ name value => by
    rw [Statement.mentions, Statement.uses]
    have hbinder : Accounts [.binder name] [.binds name] := .one List.mem_cons_self
    exact hbinder.append value.accounts
  | .returns value => by simpa only [Statement.mentions, Statement.uses] using value.accounts
  | .returnsNothing => by simpa only [Statement.uses] using Accounts.nil _
  | .expr value => by simpa only [Statement.mentions, Statement.uses] using value.accounts

theorem accounts_statements :
    (ss : List Statement) → Accounts (mentionsOfStatements ss) (usesOfStatements ss)
  | [] => by simpa only [usesOfStatements] using Accounts.nil _
  | s :: ss => by
    simpa only [mentionsOfStatements, usesOfStatements] using
      s.accounts.append (accounts_statements ss)

end

end MarkupTrace.Source

namespace MarkupTrace.Annotate

open Source

/-! ## Uses in annotated code -/

theorem isHelperCall_annotated (s : Site) (callee : Expr) (arguments : List Expr) :
    isHelperCall (expr s callee) (exprs s arguments) = isHelperCall callee arguments := by
  have hfirst : ∀ n, isHelperCall (.name n) (exprs s arguments) =
      isHelperCall (.name n) arguments := by
    intro n
    cases arguments with
    | nil => rw [exprs]
    | cons e es =>
      rw [exprs]
      cases e <;> rw [expr] <;> rfl
  cases callee with
  | name n => rw [expr, hfirst]
  | _ =>
    rw [expr]
    rfl

theorem uses_addedAttributes (s : Site) (e : Element) :
    usesOfAttributes (addedAttributes s e) = [] := by
  unfold addedAttributes Site.source
  split <;> split <;> try split
  all_goals simp [usesOfAttributes, Attribute.uses, Expr.uses, usesOfItems, isHelperCall]

theorem uses_record (s : Site) (span : Text.Span) (value : Expr) (isExpression isLast : Bool) :
    (s.record span value isExpression isLast).uses = value.uses := by
  simp [Site.record, Expr.uses, usesOfItems, isHelperCall]

mutual

theorem uses_expr (s : Site) : (e : Expr) → (expr s e).uses = e.uses
  | .text _ | .number _ | .bool _ | .null | .this | .location _ | .helper _ | .name _ => by
    rw [expr]
  | .member object _ => by rw [expr, Expr.uses, Expr.uses, uses_expr s object]
  | .call callee arguments => by
    rw [expr, Expr.uses, Expr.uses, isHelperCall_annotated, uses_expr s callee,
      uses_exprs s arguments]
  | .arrow _ b => by rw [expr, Expr.uses, Expr.uses, uses_body s b]
  | .object ps => by rw [expr, Expr.uses, Expr.uses, uses_properties s ps]
  | .array items => by rw [expr, Expr.uses, Expr.uses, uses_exprs s items]
  | .paren inner => by
    rw [expr, Expr.uses, uses_expr s inner]
    exact (Expr.uses.eq_def (.paren inner)).symm
  | .markup e => by rw [expr, Expr.uses, Expr.uses, uses_element s e]

theorem uses_exprs (s : Site) : (es : List Expr) → usesOfItems (exprs s es) = usesOfItems es
  | [] => by rw [exprs]
  | e :: es => by rw [exprs, usesOfItems, usesOfItems, uses_expr s e, uses_exprs s es]

theorem uses_body (s : Site) : (b : Body) → (body s b).uses = b.uses
  | .result value => by rw [body, Body.uses, Body.uses, uses_expr s value]
  | .block ss => by rw [body, Body.uses, Body.uses, uses_statements s ss]

theorem uses_property (s : Site) : (p : Property) → (property s p).uses = p.uses
  | .entry _ value => by rw [property, Property.uses, Property.uses, uses_expr s value]
  | .shorthand _ => by rw [property]
  | .spread value => by rw [property, Property.uses, Property.uses, uses_expr s value]

theorem uses_properties (s : Site) : (ps : List Property) →
    usesOfProperties (properties s ps) = usesOfProperties ps
  | [] => by rw [properties]
  | p :: ps => by
    rw [properties, usesOfProperties, usesOfProperties, uses_property s p, uses_properties s ps]

theorem uses_element (s : Site) : (e : Element) → (element s e).uses = e.uses
  | .mk name as c span => by
    rw [element, Element.uses, Element.uses, usesOfAttributes_append, uses_attrs s as,
      uses_addedAttributes, List.append_nil, uses_content s _ c]

theorem uses_attr (s : Site) : (a : Attribute) → (attr s a).uses = a.uses
  | .bare _ | .text _ _ => by rw [attr]
  | .value _ value => by rw [attr, Attribute.uses, Attribute.uses, uses_expr s value]
  | .spread value => by rw [attr, Attribute.uses, Attribute.uses, uses_expr s value]

theorem uses_attrs (s : Site) : (as : List Attribute) →
    usesOfAttributes (attrs s as) = usesOfAttributes as
  | [] => by rw [attrs]
  | a :: as => by rw [attrs, usesOfAttributes, usesOfAttributes, uses_attr s a, uses_attrs s as]

theorem uses_content (s : Site) (records : Bool) : (c : Content) →
    (content s records c).uses = c.uses
  | .selfClosing => by rw [content]
  | .children cs => by rw [content, Content.uses, Content.uses, uses_children s records cs]

theorem uses_children (s : Site) (records : Bool) : (cs : List Child) →
    usesOfChildren (children s records cs) = usesOfChildren cs
  | [] => by rw [children]
  | c :: cs => by
    rw [children, usesOfChildren, usesOfChildren, uses_child s records _ c,
      uses_children s records cs]

theorem uses_child (s : Site) (records isLast : Bool) : (c : Child) →
    (child s records isLast c).uses = c.uses
  | .text t => by
    rw [child]
    split
    · simp only [Child.uses, uses_record, Expr.uses]
    · rfl
  | .container value _ => by
    rw [child]
    split
    · rw [Child.uses, uses_record, Child.uses, uses_expr s value]
    · rw [Child.uses, Child.uses, uses_expr s value]
  | .emptyContainer _ => by rw [child]
  | .element e => by rw [child, Child.uses, Child.uses, uses_element s e]

theorem uses_statement (s : Site) : (x : Statement) → (statement s x).uses = x.uses
  | .imports _ | .returnsNothing => by rw [statement]
  | .const _ _ value => by rw [statement, Statement.uses, Statement.uses, uses_expr s value]
  | .returns value => by rw [statement, Statement.uses, Statement.uses, uses_expr s value]
  | .expr value => by rw [statement, Statement.uses, Statement.uses, uses_expr s value]

theorem uses_statements (s : Site) : (xs : List Statement) →
    usesOfStatements (statements s xs) = usesOfStatements xs
  | [] => by rw [statements]
  | x :: xs => by
    rw [statements, usesOfStatements, usesOfStatements, uses_statement s x, uses_statements s xs]

end

/-! ## Uses of generated names -/

/-- A module binds no generated name. -/
theorem binds_not_generated {m : Module} (o : Options) {n : String}
    (h : .binds n ∈ usesOfStatements m.body) : n ∉ (Names.ofModule m o).toList := by
  have hbinder := accounts_statements m.body _ h
  exact Names.ofModule_not_mem m o (m.avoids _ hbinder n rfl)

/-- A module looks up a generated name only through a shorthand key or a tag. -/
theorem reads_generated {m : Module} {o : Options} {n : String}
    (h : .reads n ∈ usesOfStatements m.body) (hn : n ∈ (Names.ofModule m o).toList) :
    .shorthand n ∈ m.mentions ∨ .tag n ∈ m.mentions := by
  rcases accounts_statements m.body _ h with hidentifier | hrest
  · exact absurd hn (Names.ofModule_not_mem m o (m.avoids _ hidentifier n rfl))
  · exact hrest

end MarkupTrace.Annotate
