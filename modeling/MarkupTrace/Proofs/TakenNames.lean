import MarkupTrace.Proofs.FreshNames
import MarkupTrace.Proofs.TreeNodes

/-!
# Names that are taken

The names of a module are those that its nodes bind or evaluate, at any depth: inside functions and
their blocks, in attributes, and in the children of elements. A generated name is none of them, and it
is picked for its base among the others.
-/

namespace MarkupTrace.Source

/-- The names that a node binds or evaluates itself. -/
def Node.names : Node → List String
  | .expr (.name n) => [n]
  | .expr (.arrow ps _) => ps.flatMap Param.names
  | .expr (.location l) => [l.file]
  | .statement (.imports decl) => decl.names
  | .statement (.const _ n _) => [n]
  | _ => []

mutual

/-- The names of a tree are those of its nodes. -/
theorem Expr.names_eq : (e : Expr) → e.names = e.nodes.flatMap Node.names
  | .text _ | .number _ | .bool _ | .null | .this | .name _ | .location _ | .helper _ => by
    simp [Expr.names, Expr.nodes, Node.names]
  | .member object _ => by simp [Expr.names, Expr.nodes, Node.names, object.names_eq]
  | .call callee arguments => by
    simp [Expr.names, Expr.nodes, Node.names, callee.names_eq, namesOfItems_eq arguments]
  | .arrow _ body => by simp [Expr.names, Expr.nodes, Node.names, body.names_eq]
  | .object ps => by simp [Expr.names, Expr.nodes, Node.names, namesOfProperties_eq ps]
  | .array items => by simp [Expr.names, Expr.nodes, Node.names, namesOfItems_eq items]
  | .paren inner => by simp [Expr.names, Expr.nodes, Node.names, inner.names_eq]
  | .markup e => by simp [Expr.names, Expr.nodes, Node.names, e.names_eq]

theorem namesOfItems_eq : (es : List Expr) →
    namesOfItems es = (nodesOfItems es).flatMap Node.names
  | [] => by simp [namesOfItems, nodesOfItems]
  | e :: es => by simp [namesOfItems, nodesOfItems, e.names_eq, namesOfItems_eq es]

theorem Body.names_eq : (b : Body) → b.names = b.nodes.flatMap Node.names
  | .result value => by simp [Body.names, Body.nodes, Node.names, value.names_eq]
  | .block ss => by simp [Body.names, Body.nodes, Node.names, namesOfStatements_eq ss]

theorem Property.names_eq : (p : Property) → p.names = p.nodes.flatMap Node.names
  | .entry _ value => by simp [Property.names, Property.nodes, Node.names, value.names_eq]
  | .shorthand _ => by simp [Property.names, Property.nodes, Node.names]
  | .spread value => by simp [Property.names, Property.nodes, Node.names, value.names_eq]

theorem namesOfProperties_eq : (ps : List Property) →
    namesOfProperties ps = (nodesOfProperties ps).flatMap Node.names
  | [] => by simp [namesOfProperties, nodesOfProperties]
  | p :: ps => by simp [namesOfProperties, nodesOfProperties, p.names_eq, namesOfProperties_eq ps]

theorem Element.names_eq : (e : Element) → e.names = e.nodes.flatMap Node.names
  | .mk _ as c _ => by
    simp [Element.names, Element.nodes, Node.names, namesOfAttributes_eq as, c.names_eq]

theorem Attribute.names_eq : (a : Attribute) → a.names = a.nodes.flatMap Node.names
  | .bare _ | .text _ _ => by simp [Attribute.names, Attribute.nodes, Node.names]
  | .value _ value => by simp [Attribute.names, Attribute.nodes, Node.names, value.names_eq]
  | .spread value => by simp [Attribute.names, Attribute.nodes, Node.names, value.names_eq]

theorem namesOfAttributes_eq : (as : List Attribute) →
    namesOfAttributes as = (nodesOfAttributes as).flatMap Node.names
  | [] => by simp [namesOfAttributes, nodesOfAttributes]
  | a :: as => by simp [namesOfAttributes, nodesOfAttributes, a.names_eq, namesOfAttributes_eq as]

theorem Content.names_eq : (c : Content) → c.names = c.nodes.flatMap Node.names
  | .selfClosing => by simp [Content.names, Content.nodes, Node.names]
  | .children cs => by simp [Content.names, Content.nodes, Node.names, namesOfChildren_eq cs]

theorem Child.names_eq : (c : Child) → c.names = c.nodes.flatMap Node.names
  | .text _ | .emptyContainer _ => by simp [Child.names, Child.nodes, Node.names]
  | .container value _ => by simp [Child.names, Child.nodes, Node.names, value.names_eq]
  | .element e => by simp [Child.names, Child.nodes, Node.names, e.names_eq]

theorem namesOfChildren_eq : (cs : List Child) →
    namesOfChildren cs = (nodesOfChildren cs).flatMap Node.names
  | [] => by simp [namesOfChildren, nodesOfChildren]
  | c :: cs => by simp [namesOfChildren, nodesOfChildren, c.names_eq, namesOfChildren_eq cs]

theorem Statement.names_eq : (s : Statement) → s.names = s.nodes.flatMap Node.names
  | .imports _ | .returnsNothing => by simp [Statement.names, Statement.nodes, Node.names]
  | .const _ _ value => by simp [Statement.names, Statement.nodes, Node.names, value.names_eq]
  | .returns value => by simp [Statement.names, Statement.nodes, Node.names, value.names_eq]
  | .expr value => by simp [Statement.names, Statement.nodes, Node.names, value.names_eq]

theorem namesOfStatements_eq : (ss : List Statement) →
    namesOfStatements ss = (nodesOfStatements ss).flatMap Node.names
  | [] => by simp [namesOfStatements, nodesOfStatements]
  | s :: ss => by simp [namesOfStatements, nodesOfStatements, s.names_eq, namesOfStatements_eq ss]

end

theorem Module.names_eq (m : Module) : m.names = m.nodes.flatMap Node.names :=
  namesOfStatements_eq m.body

end MarkupTrace.Source

namespace MarkupTrace.Annotate

open Source

/-- The names of the module's nodes are not generated ones. -/
theorem not_generated {m : Module} {o : Options} {n : String} (hn : n ∈ (Names.ofModule m o).toList)
    {x : Node} (hx : x ∈ m.nodes) : n ∉ x.names := by
  intro hmem
  refine Names.ofModule_not_mem m o ?_ hn
  rw [m.names_eq]
  exact List.mem_flatMap.mpr ⟨x, hx, hmem⟩

/-- Whatever the options are, the generated names are different from each other and from every name
that a node of the module binds or evaluates. Each is picked for its base among the names that are not
taken by the module or by those picked before. -/
theorem generated_names_fresh (m : Module) (o : Options) :
    let names := Names.ofModule m o
    let taken := m.nodes.flatMap Node.names
    names.toList.Nodup ∧ (∀ n ∈ names.toList, ∀ x ∈ m.nodes, n ∉ x.names) ∧
      Picked o.fileName taken names.fileName ∧
      Picked o.stack (names.fileName :: taken) names.stack ∧
      Picked o.recordParent (names.stack :: names.fileName :: taken) names.recordParent ∧
      Picked o.recordExpression (names.recordParent :: names.stack :: names.fileName :: taken)
        names.recordExpression := by
  intro names taken
  have htaken : m.names = taken := m.names_eq
  refine ⟨Names.avoiding_nodup m.names o, fun n hn x hx => not_generated hn hx, ?_⟩
  rw [← htaken]
  exact ⟨picked_uniqueName .., picked_uniqueName .., picked_uniqueName .., picked_uniqueName ..⟩

end MarkupTrace.Annotate
