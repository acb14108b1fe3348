import MarkupTrace.Proofs.RepeatedAnnotation
import MarkupTrace.Proofs.TreeNodes

/-!
# Nodes inside nodes

The nodes of a node of a tree are nodes of the tree. Its elements and location literals, which are
also collected by themselves, are the nodes of these two kinds.
-/

namespace MarkupTrace.Source

/-- The node and those inside it. -/
def Node.nodes : Node → List Node
  | .expr e => e.nodes
  | .body b => b.nodes
  | .property p => p.nodes
  | .element e => e.nodes
  | .attribute a => a.nodes
  | .content c => c.nodes
  | .child c => c.nodes
  | .statement s => s.nodes

/-- With a node, everything inside it is among the nodes. -/
def Nested (xs : List Node) : Prop := ∀ x ∈ xs, x.nodes ⊆ xs

namespace Nested

variable {x : Node} {xs ys : List Node}

theorem nil : Nested [] := nofun

theorem append (hx : Nested xs) (hy : Nested ys) : Nested (xs ++ ys) := by
  intro z hz
  rcases List.mem_append.mp hz with hz | hz
  · exact List.Subset.trans (hx z hz) (List.subset_append_left xs ys)
  · exact List.Subset.trans (hy z hz) (List.subset_append_right xs ys)

theorem node (hx : x.nodes = x :: xs) (h : Nested xs) : Nested (x :: xs) := by
  intro z hz
  rcases List.mem_cons.mp hz with rfl | hz
  · exact hx ▸ List.Subset.refl _
  · exact List.Subset.trans (h z hz) (List.subset_cons_self x xs)

end Nested

mutual

theorem Expr.nested : (e : Expr) → Nested e.nodes
  | .text _ | .number _ | .bool _ | .null | .this | .name _ | .location _ | .helper _ => by
    rw [Expr.nodes]
    exact .node (by rw [Node.nodes, Expr.nodes]) .nil
  | .member object _ => by
    rw [Expr.nodes]
    exact .node (by rw [Node.nodes, Expr.nodes]) object.nested
  | .call callee arguments => by
    rw [Expr.nodes]
    exact .node (by rw [Node.nodes, Expr.nodes]) (callee.nested.append (nested_items arguments))
  | .arrow _ body => by
    rw [Expr.nodes]
    exact .node (by rw [Node.nodes, Expr.nodes]) body.nested
  | .object ps => by
    rw [Expr.nodes]
    exact .node (by rw [Node.nodes, Expr.nodes]) (nested_properties ps)
  | .array items => by
    rw [Expr.nodes]
    exact .node (by rw [Node.nodes, Expr.nodes]) (nested_items items)
  | .paren inner => by
    have h := inner.nested
    rw [Expr.nodes]
    exact .node (by rw [Node.nodes, Expr.nodes]) h
  | .markup e => by
    rw [Expr.nodes]
    exact .node (by rw [Node.nodes, Expr.nodes]) e.nested

theorem nested_items : (es : List Expr) → Nested (nodesOfItems es)
  | [] => by
    rw [nodesOfItems]
    exact .nil
  | e :: es => by
    rw [nodesOfItems]
    exact e.nested.append (nested_items es)

theorem Body.nested : (b : Body) → Nested b.nodes
  | .result value => by
    rw [Body.nodes]
    exact .node (by rw [Node.nodes, Body.nodes]) value.nested
  | .block ss => by
    rw [Body.nodes]
    exact .node (by rw [Node.nodes, Body.nodes]) (nested_statements ss)

theorem Property.nested : (p : Property) → Nested p.nodes
  | .entry _ value => by
    rw [Property.nodes]
    exact .node (by rw [Node.nodes, Property.nodes]) value.nested
  | .shorthand _ => by
    rw [Property.nodes]
    exact .node (by rw [Node.nodes, Property.nodes]) .nil
  | .spread value => by
    rw [Property.nodes]
    exact .node (by rw [Node.nodes, Property.nodes]) value.nested

theorem nested_properties : (ps : List Property) → Nested (nodesOfProperties ps)
  | [] => by
    rw [nodesOfProperties]
    exact .nil
  | p :: ps => by
    rw [nodesOfProperties]
    exact p.nested.append (nested_properties ps)

theorem Element.nested : (e : Element) → Nested e.nodes
  | .mk _ as c _ => by
    rw [Element.nodes]
    exact .node (by rw [Node.nodes, Element.nodes]) ((nested_attributes as).append c.nested)

theorem Attribute.nested : (a : Attribute) → Nested a.nodes
  | .bare _ | .text _ _ => by
    rw [Attribute.nodes]
    exact .node (by rw [Node.nodes, Attribute.nodes]) .nil
  | .value _ value => by
    rw [Attribute.nodes]
    exact .node (by rw [Node.nodes, Attribute.nodes]) value.nested
  | .spread value => by
    rw [Attribute.nodes]
    exact .node (by rw [Node.nodes, Attribute.nodes]) value.nested

theorem nested_attributes : (as : List Attribute) → Nested (nodesOfAttributes as)
  | [] => by
    rw [nodesOfAttributes]
    exact .nil
  | a :: as => by
    rw [nodesOfAttributes]
    exact a.nested.append (nested_attributes as)

theorem Content.nested : (c : Content) → Nested c.nodes
  | .selfClosing => by
    rw [Content.nodes]
    exact .node (by rw [Node.nodes, Content.nodes]) .nil
  | .children cs => by
    rw [Content.nodes]
    exact .node (by rw [Node.nodes, Content.nodes]) (nested_children cs)

theorem Child.nested : (c : Child) → Nested c.nodes
  | .text _ | .emptyContainer _ => by
    rw [Child.nodes]
    exact .node (by rw [Node.nodes, Child.nodes]) .nil
  | .container value _ => by
    rw [Child.nodes]
    exact .node (by rw [Node.nodes, Child.nodes]) value.nested
  | .element e => by
    rw [Child.nodes]
    exact .node (by rw [Node.nodes, Child.nodes]) e.nested

theorem nested_children : (cs : List Child) → Nested (nodesOfChildren cs)
  | [] => by
    rw [nodesOfChildren]
    exact .nil
  | c :: cs => by
    rw [nodesOfChildren]
    exact c.nested.append (nested_children cs)

theorem Statement.nested : (s : Statement) → Nested s.nodes
  | .imports _ | .returnsNothing => by
    rw [Statement.nodes]
    exact .node (by rw [Node.nodes, Statement.nodes]) .nil
  | .const _ _ value => by
    rw [Statement.nodes]
    exact .node (by rw [Node.nodes, Statement.nodes]) value.nested
  | .returns value => by
    rw [Statement.nodes]
    exact .node (by rw [Node.nodes, Statement.nodes]) value.nested
  | .expr value => by
    rw [Statement.nodes]
    exact .node (by rw [Node.nodes, Statement.nodes]) value.nested

theorem nested_statements : (ss : List Statement) → Nested (nodesOfStatements ss)
  | [] => by
    rw [nodesOfStatements]
    exact .nil
  | s :: ss => by
    rw [nodesOfStatements]
    exact s.nested.append (nested_statements ss)

end

theorem Module.nested (m : Module) : Nested m.nodes := nested_statements m.body

theorem Element.nodes_subset_of_attribute {e : Element} {a : Attribute} (h : a ∈ e.attributes) :
    a.nodes ⊆ e.nodes := by
  obtain ⟨name, as, c, span⟩ := e
  intro x hx
  have hattributes : x ∈ nodesOfAttributes as := by
    rw [nodesOfAttributes_eq]
    exact List.mem_flatMap.mpr ⟨a, h, hx⟩
  rw [Element.nodes]
  exact List.mem_cons_of_mem _ (List.mem_append_left _ hattributes)

theorem Element.nodes_subset_of_child {e : Element} {c : Child} (h : c ∈ e.content.toList) :
    c.nodes ⊆ e.nodes := by
  obtain ⟨name, as, content, span⟩ := e
  intro x hx
  have hcontent : x ∈ content.nodes := by
    cases content with
    | selfClosing => cases h
    | children cs =>
      rw [Content.nodes, nodesOfChildren_eq]
      exact List.mem_cons_of_mem _ (List.mem_flatMap.mpr ⟨c, h, hx⟩)
  rw [Element.nodes]
  exact List.mem_cons_of_mem _ (List.mem_append_right _ hcontent)

/-! ## Parts -/

/-- The part that a node is, if it is one. -/
def Node.parts : Node → List Part
  | .element e => [.element e]
  | .expr (.location l) => [.location l]
  | _ => []

def Part.node : Part → Node
  | .element e => .element e
  | .location l => .expr (.location l)

theorem Node.mem_parts {x : Node} {p : Part} : p ∈ x.parts ↔ x = p.node := by
  unfold parts Part.node
  split <;> cases p <;> simp_all [eq_comm]

mutual

/-- The parts of a tree are its nodes that are elements or location literals. -/
theorem Expr.parts_eq : (e : Expr) → e.parts = e.nodes.flatMap Node.parts
  | .text _ | .number _ | .bool _ | .null | .this | .name _ | .location _ | .helper _ => by
    simp [Expr.parts, Expr.nodes, Node.parts]
  | .member object _ => by simp [Expr.parts, Expr.nodes, Node.parts, object.parts_eq]
  | .call callee arguments => by
    simp [Expr.parts, Expr.nodes, Node.parts, callee.parts_eq, partsOfItems_eq_nodes arguments]
  | .arrow _ body => by simp [Expr.parts, Expr.nodes, Node.parts, body.parts_eq]
  | .object ps => by simp [Expr.parts, Expr.nodes, Node.parts, partsOfProperties_eq_nodes ps]
  | .array items => by simp [Expr.parts, Expr.nodes, Node.parts, partsOfItems_eq_nodes items]
  | .paren inner => by simp [Expr.parts, Expr.nodes, Node.parts, inner.parts_eq]
  | .markup e => by simp [Expr.parts, Expr.nodes, Node.parts, e.parts_eq]

theorem partsOfItems_eq_nodes : (es : List Expr) →
    partsOfItems es = (nodesOfItems es).flatMap Node.parts
  | [] => by simp [partsOfItems, nodesOfItems]
  | e :: es => by simp [partsOfItems, nodesOfItems, e.parts_eq, partsOfItems_eq_nodes es]

theorem Body.parts_eq : (b : Body) → b.parts = b.nodes.flatMap Node.parts
  | .result value => by simp [Body.parts, Body.nodes, Node.parts, value.parts_eq]
  | .block ss => by simp [Body.parts, Body.nodes, Node.parts, partsOfStatements_eq_nodes ss]

theorem Property.parts_eq : (p : Property) → p.parts = p.nodes.flatMap Node.parts
  | .entry _ value => by simp [Property.parts, Property.nodes, Node.parts, value.parts_eq]
  | .shorthand _ => by simp [Property.parts, Property.nodes, Node.parts]
  | .spread value => by simp [Property.parts, Property.nodes, Node.parts, value.parts_eq]

theorem partsOfProperties_eq_nodes : (ps : List Property) →
    partsOfProperties ps = (nodesOfProperties ps).flatMap Node.parts
  | [] => by simp [partsOfProperties, nodesOfProperties]
  | p :: ps => by
    simp [partsOfProperties, nodesOfProperties, p.parts_eq, partsOfProperties_eq_nodes ps]

theorem Element.parts_eq : (e : Element) → e.parts = e.nodes.flatMap Node.parts
  | .mk _ as c _ => by
    simp [Element.parts, Element.nodes, Node.parts, partsOfAttributes_eq_nodes as, c.parts_eq]

theorem Attribute.parts_eq : (a : Attribute) → a.parts = a.nodes.flatMap Node.parts
  | .bare _ | .text _ _ => by simp [Attribute.parts, Attribute.nodes, Node.parts]
  | .value _ value => by simp [Attribute.parts, Attribute.nodes, Node.parts, value.parts_eq]
  | .spread value => by simp [Attribute.parts, Attribute.nodes, Node.parts, value.parts_eq]

theorem partsOfAttributes_eq_nodes : (as : List Attribute) →
    partsOfAttributes as = (nodesOfAttributes as).flatMap Node.parts
  | [] => by simp [partsOfAttributes, nodesOfAttributes]
  | a :: as => by
    simp [partsOfAttributes, nodesOfAttributes, a.parts_eq, partsOfAttributes_eq_nodes as]

theorem Content.parts_eq : (c : Content) → c.parts = c.nodes.flatMap Node.parts
  | .selfClosing => by simp [Content.parts, Content.nodes, Node.parts]
  | .children cs => by simp [Content.parts, Content.nodes, Node.parts, partsOfChildren_eq_nodes cs]

theorem Child.parts_eq : (c : Child) → c.parts = c.nodes.flatMap Node.parts
  | .text _ | .emptyContainer _ => by simp [Child.parts, Child.nodes, Node.parts]
  | .container value _ => by simp [Child.parts, Child.nodes, Node.parts, value.parts_eq]
  | .element e => by simp [Child.parts, Child.nodes, Node.parts, e.parts_eq]

theorem partsOfChildren_eq_nodes : (cs : List Child) →
    partsOfChildren cs = (nodesOfChildren cs).flatMap Node.parts
  | [] => by simp [partsOfChildren, nodesOfChildren]
  | c :: cs => by simp [partsOfChildren, nodesOfChildren, c.parts_eq, partsOfChildren_eq_nodes cs]

theorem Statement.parts_eq : (s : Statement) → s.parts = s.nodes.flatMap Node.parts
  | .imports _ | .returnsNothing => by simp [Statement.parts, Statement.nodes, Node.parts]
  | .const _ _ value => by simp [Statement.parts, Statement.nodes, Node.parts, value.parts_eq]
  | .returns value => by simp [Statement.parts, Statement.nodes, Node.parts, value.parts_eq]
  | .expr value => by simp [Statement.parts, Statement.nodes, Node.parts, value.parts_eq]

theorem partsOfStatements_eq_nodes : (ss : List Statement) →
    partsOfStatements ss = (nodesOfStatements ss).flatMap Node.parts
  | [] => by simp [partsOfStatements, nodesOfStatements]
  | s :: ss => by
    simp [partsOfStatements, nodesOfStatements, s.parts_eq, partsOfStatements_eq_nodes ss]

end

theorem Module.mem_parts {m : Module} {p : Part} : p ∈ m.parts ↔ p.node ∈ m.nodes := by
  simp only [Module.parts, partsOfStatements_eq_nodes, List.mem_flatMap, Node.mem_parts,
    exists_eq_right, Module.nodes]

theorem Module.mem_elements {m : Module} {e : Element} :
    e ∈ m.elements ↔ .element e ∈ m.nodes := by
  have hpart : ∀ p : Part, p.element? = some e ↔ p = .element e := by
    intro p
    cases p <;> simp [Part.element?]
  simp only [Module.elements, elementsIn, List.mem_filterMap, hpart, exists_eq_right, mem_parts,
    Part.node]

end MarkupTrace.Source
