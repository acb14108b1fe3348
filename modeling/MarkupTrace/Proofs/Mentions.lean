import MarkupTrace.Annotate.Report
import MarkupTrace.Eval.Expression
import Mathlib.Tactic.SplitIfs

/-!
# What a module mentions

Evaluation meets the text of a module only through the names it looks up, binds or reads properties
of, and through its elements. These are collected here, each with the way in which it is used.

The names that annotation avoids cover identifiers and bound names. Shorthand keys and the first
segments of tags are looked up as well but are not among them. Expressions that only annotation
makes are mentioned as generated.

The report of an annotation counts every element that is mentioned as annotated.
-/

namespace MarkupTrace.Source

open Annotate

/-- One use of a name, or one element. -/
inductive Mention
  | identifier (name : String)
  | binder (name : String)
  | shorthand (name : String)
  /-- The first segment of a tag that is not a host tag. -/
  | tag (name : String)
  | property (name : String)
  /-- An element without a `__source` of the author's. -/
  | element (recorded : Bool)
  | generated
  deriving DecidableEq, Repr

namespace Mention

/-- The name that annotation keeps clear of because of this mention. -/
def avoided? : Mention → Option String
  | identifier name | binder name => some name
  | _ => none

end Mention

def Param.mentions : Param → List Mention
  | .name n => [.binder n]
  | .properties ns => ns.flatMap fun n => [.binder n, .property n]

def mentionsOfTag (name : String) : List Mention :=
  if isHostTag name then []
  else
    match Eval.segments name with
    | [] => []
    | first :: rest => .tag first :: rest.map .property

mutual

def Expr.mentions : Expr → List Mention
  | .text _ | .number _ | .bool _ | .null | .this => []
  | .name n => [.identifier n]
  | .member object p => .property p :: object.mentions
  | .call callee arguments => callee.mentions ++ mentionsOfItems arguments
  | .arrow ps body => ps.flatMap Param.mentions ++ body.mentions
  | .object properties => mentionsOfProperties properties
  | .array items => mentionsOfItems items
  | .paren inner => inner.mentions
  | .markup element => element.mentions
  | .location _ | .helper _ => [.generated]

def mentionsOfItems : List Expr → List Mention
  | [] => []
  | e :: es => e.mentions ++ mentionsOfItems es

def Body.mentions : Body → List Mention
  | .result value => value.mentions
  | .block statements => mentionsOfStatements statements

def Property.mentions : Property → List Mention
  | .entry _ value => value.mentions
  | .shorthand n => [.shorthand n]
  | .spread value => value.mentions

def mentionsOfProperties : List Property → List Mention
  | [] => []
  | p :: ps => p.mentions ++ mentionsOfProperties ps

def Element.mentions : Element → List Mention
  | .mk name attributes content span =>
    let e := Element.mk name attributes content span
    mentionsOfTag name ++
      ((if e.hasAttribute sourceAttribute then [] else [.element (recordsChildren e)]) ++
        (mentionsOfAttributes attributes ++ content.mentions))

def Attribute.mentions : Attribute → List Mention
  | .bare _ | .text _ _ => []
  | .value _ value => value.mentions
  | .spread value => value.mentions

def mentionsOfAttributes : List Attribute → List Mention
  | [] => []
  | a :: as => a.mentions ++ mentionsOfAttributes as

def Content.mentions : Content → List Mention
  | .selfClosing => []
  | .children children => mentionsOfChildren children

def Child.mentions : Child → List Mention
  | .text _ | .emptyContainer _ => []
  | .container value _ => value.mentions
  | .element e => e.mentions

def mentionsOfChildren : List Child → List Mention
  | [] => []
  | c :: cs => c.mentions ++ mentionsOfChildren cs

def Statement.mentions : Statement → List Mention
  | .imports decl => decl.bindings.map fun b => .binder b.name
  | .const _ name value => .binder name :: value.mentions
  | .returns value => value.mentions
  | .returnsNothing => []
  | .expr value => value.mentions

def mentionsOfStatements : List Statement → List Mention
  | [] => []
  | s :: ss => s.mentions ++ mentionsOfStatements ss

end

def Module.mentions (m : Module) : List Mention := mentionsOfStatements m.body

theorem mentionsOfItems_eq (es : List Expr) : mentionsOfItems es = es.flatMap Expr.mentions := by
  induction es with
  | nil => rw [mentionsOfItems, List.flatMap_nil]
  | cons e es ih => rw [mentionsOfItems, List.flatMap_cons, ih]

theorem mentionsOfProperties_eq (ps : List Property) :
    mentionsOfProperties ps = ps.flatMap Property.mentions := by
  induction ps with
  | nil => rw [mentionsOfProperties, List.flatMap_nil]
  | cons p ps ih => rw [mentionsOfProperties, List.flatMap_cons, ih]

theorem mentionsOfAttributes_eq (as : List Attribute) :
    mentionsOfAttributes as = as.flatMap Attribute.mentions := by
  induction as with
  | nil => rw [mentionsOfAttributes, List.flatMap_nil]
  | cons a as ih => rw [mentionsOfAttributes, List.flatMap_cons, ih]

theorem mentionsOfChildren_eq (cs : List Child) :
    mentionsOfChildren cs = cs.flatMap Child.mentions := by
  induction cs with
  | nil => rw [mentionsOfChildren, List.flatMap_nil]
  | cons c cs ih => rw [mentionsOfChildren, List.flatMap_cons, ih]

theorem mentionsOfStatements_eq (ss : List Statement) :
    mentionsOfStatements ss = ss.flatMap Statement.mentions := by
  induction ss with
  | nil => rw [mentionsOfStatements, List.flatMap_nil]
  | cons s ss ih => rw [mentionsOfStatements, List.flatMap_cons, ih]

theorem Element.mentions_eq (e : Element) : e.mentions = mentionsOfTag e.name ++
    ((if e.hasAttribute sourceAttribute then [] else [.element (recordsChildren e)]) ++
      (mentionsOfAttributes e.attributes ++ mentionsOfChildren e.content.toList)) := by
  obtain ⟨name, attributes, content, span⟩ := e
  cases content with
  | selfClosing => simp only [Element.mentions, Content.mentions, Element.name, Element.attributes,
      Element.content, Content.toList, mentionsOfChildren]
  | children cs => simp only [Element.mentions, Content.mentions, Element.name, Element.attributes,
      Element.content, Content.toList]

/-! ## Names that are avoided -/

/-- Every avoided name of the mentions is among the names. -/
def Avoids (mentions : List Mention) (names : List String) : Prop :=
  ∀ x ∈ mentions, ∀ n ∈ x.avoided?, n ∈ names

namespace Avoids

theorem nil (names : List String) : Avoids [] names := by
  intro x hx
  cases hx

theorem append {xs ys : List Mention} {ns ms : List String} (hx : Avoids xs ns)
    (hy : Avoids ys ms) : Avoids (xs ++ ys) (ns ++ ms) := by
  intro x h n hn
  rcases List.mem_append.mp h with h | h
  · exact List.mem_append_left _ (hx x h n hn)
  · exact List.mem_append_right _ (hy x h n hn)

theorem cons_none {x : Mention} (hx : x.avoided? = none) {xs : List Mention} {ns : List String}
    (h : Avoids xs ns) : Avoids (x :: xs) ns := by
  intro y hy n hn
  rcases List.mem_cons.mp hy with rfl | hy
  · rw [hx] at hn
    cases hn
  · exact h y hy n hn

theorem cons_some {x : Mention} {m : String} (hx : x.avoided? = some m) {xs : List Mention}
    {ns : List String} (h : Avoids xs ns) : Avoids (x :: xs) (m :: ns) := by
  intro y hy n hn
  rcases List.mem_cons.mp hy with rfl | hy
  · rw [hx, Option.mem_some] at hn
    exact hn ▸ List.mem_cons_self
  · exact List.mem_cons_of_mem _ (h y hy n hn)

theorem flatMap {α : Type} {f : α → List Mention} {g : α → List String}
    (h : ∀ a, Avoids (f a) (g a)) (l : List α) : Avoids (l.flatMap f) (l.flatMap g) := by
  induction l with
  | nil => exact Avoids.nil _
  | cons a l ih => exact (h a).append ih

end Avoids

theorem Param.avoids (p : Param) : Avoids p.mentions p.names := by
  cases p with
  | name n => exact (Avoids.nil []).cons_some rfl
  | properties ns =>
    intro x hx n hn
    obtain ⟨m, hm, hx⟩ := List.mem_flatMap.mp hx
    rcases List.mem_cons.mp hx with rfl | hx
    · cases Option.mem_some.mp hn
      exact hm
    · cases List.mem_singleton.mp hx
      cases hn

theorem avoids_tag (name : String) : Avoids (mentionsOfTag name) [] := by
  unfold mentionsOfTag
  split_ifs with h
  · exact .nil _
  · cases Eval.segments name with
    | nil => exact .nil _
    | cons first rest =>
      refine .cons_none rfl ?_
      intro x hx n hn
      obtain ⟨p, -, rfl⟩ := List.mem_map.mp hx
      cases hn

theorem Import.avoids (decl : Import) :
    Avoids (decl.bindings.map fun b => .binder b.name) decl.names := by
  intro x hx n hn
  obtain ⟨b, hb, rfl⟩ := List.mem_map.mp hx
  cases Option.mem_some.mp hn
  refine List.mem_flatMap.mpr ⟨b, hb, ?_⟩
  cases b.imported <;> simp

mutual

theorem Expr.avoids : (e : Expr) → Avoids e.mentions e.names
  | .text _ | .number _ | .bool _ | .null | .this => by
    simpa only [Expr.mentions, Expr.names] using Avoids.nil []
  | .name n => by
    simpa only [Expr.mentions, Expr.names] using (Avoids.nil []).cons_some rfl
  | .member object p => by
    simpa only [Expr.mentions, Expr.names] using object.avoids.cons_none rfl
  | .call callee arguments => by
    simpa only [Expr.mentions, Expr.names] using callee.avoids.append (avoids_items arguments)
  | .arrow ps body => by
    simpa only [Expr.mentions, Expr.names] using
      (Avoids.flatMap Param.avoids ps).append body.avoids
  | .object ps => by
    simpa only [Expr.mentions, Expr.names] using avoids_properties ps
  | .array items => by
    simpa only [Expr.mentions, Expr.names] using avoids_items items
  | .paren inner => by
    simpa only [Expr.mentions, Expr.names] using inner.avoids
  | .markup e => by
    simpa only [Expr.mentions, Expr.names] using e.avoids
  | .location _ | .helper _ => by
    simpa only [Expr.mentions] using (Avoids.nil _).cons_none rfl

theorem avoids_items : (es : List Expr) → Avoids (mentionsOfItems es) (namesOfItems es)
  | [] => by simpa only [mentionsOfItems] using Avoids.nil _
  | e :: es => by
    simpa only [mentionsOfItems, namesOfItems] using e.avoids.append (avoids_items es)

theorem Body.avoids : (b : Body) → Avoids b.mentions b.names
  | .result value => by simpa only [Body.mentions, Body.names] using value.avoids
  | .block ss => by simpa only [Body.mentions, Body.names] using avoids_statements ss

theorem Property.avoids : (p : Property) → Avoids p.mentions p.names
  | .entry _ value => by simpa only [Property.mentions, Property.names] using value.avoids
  | .shorthand _ => by
    simpa only [Property.mentions, Property.names] using (Avoids.nil []).cons_none rfl
  | .spread value => by simpa only [Property.mentions, Property.names] using value.avoids

theorem avoids_properties :
    (ps : List Property) → Avoids (mentionsOfProperties ps) (namesOfProperties ps)
  | [] => by simpa only [mentionsOfProperties] using Avoids.nil _
  | p :: ps => by
    simpa only [mentionsOfProperties, namesOfProperties] using
      p.avoids.append (avoids_properties ps)

theorem Element.avoids : (e : Element) → Avoids e.mentions e.names
  | .mk name as c span => by
    simp only [Element.mentions, Element.names]
    refine (avoids_tag name).append ?_
    split_ifs with h
    · exact (avoids_attributes as).append c.avoids
    · exact ((avoids_attributes as).append c.avoids).cons_none rfl

theorem Attribute.avoids : (a : Attribute) → Avoids a.mentions a.names
  | .bare _ | .text _ _ => by
    simpa only [Attribute.mentions] using Avoids.nil _
  | .value _ value => by simpa only [Attribute.mentions, Attribute.names] using value.avoids
  | .spread value => by simpa only [Attribute.mentions, Attribute.names] using value.avoids

theorem avoids_attributes :
    (as : List Attribute) → Avoids (mentionsOfAttributes as) (namesOfAttributes as)
  | [] => by simpa only [mentionsOfAttributes] using Avoids.nil _
  | a :: as => by
    simpa only [mentionsOfAttributes, namesOfAttributes] using
      a.avoids.append (avoids_attributes as)

theorem Content.avoids : (c : Content) → Avoids c.mentions c.names
  | .selfClosing => by simpa only [Content.mentions] using Avoids.nil _
  | .children cs => by simpa only [Content.mentions, Content.names] using avoids_children cs

theorem Child.avoids : (c : Child) → Avoids c.mentions c.names
  | .text _ | .emptyContainer _ => by simpa only [Child.mentions] using Avoids.nil _
  | .container value _ => by simpa only [Child.mentions, Child.names] using value.avoids
  | .element e => by simpa only [Child.mentions, Child.names] using e.avoids

theorem avoids_children : (cs : List Child) → Avoids (mentionsOfChildren cs) (namesOfChildren cs)
  | [] => by simpa only [mentionsOfChildren] using Avoids.nil _
  | c :: cs => by
    simpa only [mentionsOfChildren, namesOfChildren] using c.avoids.append (avoids_children cs)

theorem Statement.avoids : (s : Statement) → Avoids s.mentions s.names
  | .imports decl => by simpa only [Statement.mentions, Statement.names] using decl.avoids
  | .const _ name value => by
    simpa only [Statement.mentions, Statement.names] using value.avoids.cons_some rfl
  | .returns value => by simpa only [Statement.mentions, Statement.names] using value.avoids
  | .returnsNothing => by simpa only [Statement.mentions] using Avoids.nil _
  | .expr value => by simpa only [Statement.mentions, Statement.names] using value.avoids

theorem avoids_statements :
    (ss : List Statement) → Avoids (mentionsOfStatements ss) (namesOfStatements ss)
  | [] => by simpa only [mentionsOfStatements] using Avoids.nil _
  | s :: ss => by
    simpa only [mentionsOfStatements, namesOfStatements] using s.avoids.append (avoids_statements ss)

end

theorem Module.avoids (m : Module) : Avoids m.mentions m.names := avoids_statements m.body

end MarkupTrace.Source

namespace MarkupTrace.Annotate

open Source

/-! ## Elements that are counted -/

/-- The tally counts an element of the mentions, and a recorded child if it has recorded ones. -/
def Counts (mentions : List Mention) (t : Tally) : Prop :=
  ∀ recorded, .element recorded ∈ mentions → 0 < t.annotated ∧ (recorded = true → 0 < t.wrapped)

namespace Tally

theorem annotated_add (a b : Tally) : (a + b).annotated = a.annotated + b.annotated := rfl

theorem wrapped_add (a b : Tally) : (a + b).wrapped = a.wrapped + b.wrapped := by
  show a.texts + b.texts + (a.expressions + b.expressions) =
    a.texts + a.expressions + (b.texts + b.expressions)
  omega

end Tally

namespace Counts

theorem nil (t : Tally) : Counts [] t := by
  intro recorded h
  cases h

theorem cons {x : Mention} (hx : ∀ recorded, x ≠ .element recorded) {xs : List Mention} {t : Tally}
    (h : Counts xs t) : Counts (x :: xs) t := by
  intro recorded hr
  rcases List.mem_cons.mp hr with hr | hr
  · exact absurd hr.symm (hx recorded)
  · exact h recorded hr

theorem none {xs : List Mention} (hxs : ∀ x ∈ xs, ∀ recorded, x ≠ .element recorded) (t : Tally) :
    Counts xs t := by
  intro recorded h
  exact absurd rfl (hxs _ h recorded)

theorem append {xs ys : List Mention} {a b : Tally} (hx : Counts xs a) (hy : Counts ys b) :
    Counts (xs ++ ys) (a + b) := by
  intro recorded h
  rw [Tally.annotated_add, Tally.wrapped_add]
  rcases List.mem_append.mp h with h | h
  · obtain ⟨ha, hw⟩ := hx recorded h
    exact ⟨by omega, fun hr => by have := hw hr; omega⟩
  · obtain ⟨ha, hw⟩ := hy recorded h
    exact ⟨by omega, fun hr => by have := hw hr; omega⟩

theorem both {xs ys : List Mention} {t : Tally} (hx : Counts xs t) (hy : Counts ys t) :
    Counts (xs ++ ys) t := by
  intro recorded h
  rcases List.mem_append.mp h with h | h
  · exact hx recorded h
  · exact hy recorded h

theorem add_left {xs : List Mention} {t : Tally} (h : Counts xs t) (u : Tally) :
    Counts xs (u + t) := (nil u).append h

theorem add_right {xs : List Mention} {t : Tally} (h : Counts xs t) (u : Tally) :
    Counts xs (t + u) := by
  have := h.append (nil u)
  rwa [List.append_nil] at this

end Counts

theorem counts_params (ps : List Param) (t : Tally) : Counts (ps.flatMap Param.mentions) t := by
  refine .none ?_ t
  intro x hx recorded
  obtain ⟨p, -, hx⟩ := List.mem_flatMap.mp hx
  cases p with
  | name n => rw [List.mem_singleton.mp hx]; simp
  | properties ns =>
    obtain ⟨n, -, hx⟩ := List.mem_flatMap.mp hx
    rcases List.mem_cons.mp hx with rfl | hx
    · simp
    · rw [List.mem_singleton.mp hx]; simp

theorem counts_tag (name : String) (t : Tally) : Counts (mentionsOfTag name) t := by
  unfold mentionsOfTag
  split_ifs with h
  · exact .nil t
  · cases Eval.segments name with
    | nil => exact .nil t
    | cons first rest =>
      refine .cons (by simp) (.none ?_ t)
      intro x hx recorded
      obtain ⟨p, -, rfl⟩ := List.mem_map.mp hx
      simp

/-- Where children are recorded and one of them can be, one is counted. -/
theorem wrapped_children {cs : List Child} (h : cs.any Child.isWrappable = true) :
    0 < (tallyChildren true cs).wrapped := by
  induction cs with
  | nil => cases h
  | cons c cs ih =>
    rw [tallyChildren, Tally.wrapped_add, Tally.wrapped_add]
    rw [List.any_cons, Bool.or_eq_true] at h
    rcases h with h | h
    · have : 0 < (Tally.ofChild true c).wrapped := by
        cases c <;> simp_all [Tally.ofChild, Child.isWrappable, Tally.wrapped]
      omega
    · have := ih h
      omega

/-- An element that is annotated is counted, and so are its recorded children. -/
theorem counts_element (name : String) (as : List Attribute) (c : Content) (span : Text.Span)
    (t : Tally) :
    Counts (if (Element.mk name as c span).hasAttribute sourceAttribute then []
        else [.element (recordsChildren (.mk name as c span))])
      (t + tallyContent (recordsChildren (.mk name as c span)) c +
        Tally.ofElement (.mk name as c span)) := by
  split_ifs with h
  · exact .nil _
  · intro recorded hr
    cases List.mem_singleton.mp hr
    rw [Tally.annotated_add, Tally.annotated_add, Tally.wrapped_add, Tally.wrapped_add]
    have ha : (Tally.ofElement (.mk name as c span)).annotated = 1 := by
      simp [Tally.ofElement, h]
    refine ⟨by omega, fun hrec => ?_⟩
    have hany : c.toList.any Child.isWrappable = true := by
      simp only [recordsChildren, Bool.and_eq_true] at hrec
      exact hrec.2
    rw [hrec]
    cases c with
    | selfClosing => cases hany
    | children cs =>
      have := wrapped_children (show cs.any Child.isWrappable = true from hany)
      rw [tallyContent]
      omega

mutual

theorem counts_expr : (e : Expr) → Counts e.mentions (tallyExpr e)
  | .text _ | .number _ | .bool _ | .null | .this => by
    simpa only [Expr.mentions] using Counts.nil _
  | .name _ | .location _ | .helper _ => by
    simpa only [Expr.mentions] using (Counts.nil _).cons (by simp)
  | .member object _ => by
    simpa only [Expr.mentions, tallyExpr] using (counts_expr object).cons (by simp)
  | .call callee arguments => by
    simpa only [Expr.mentions, tallyExpr] using (counts_expr callee).append (counts_exprs arguments)
  | .arrow ps b => by
    simpa only [Expr.mentions, tallyExpr] using (counts_params ps _).both (counts_body b)
  | .object ps => by simpa only [Expr.mentions, tallyExpr] using counts_properties ps
  | .array items => by simpa only [Expr.mentions, tallyExpr] using counts_exprs items
  | .paren inner => by simpa only [Expr.mentions, tallyExpr] using counts_expr inner
  | .markup e => by simpa only [Expr.mentions, tallyExpr] using counts_markup e

theorem counts_exprs : (es : List Expr) → Counts (mentionsOfItems es) (tallyExprs es)
  | [] => by simpa only [mentionsOfItems] using Counts.nil _
  | e :: es => by
    simpa only [mentionsOfItems, tallyExprs] using (counts_expr e).append (counts_exprs es)

theorem counts_body : (b : Body) → Counts b.mentions (tallyBody b)
  | .result value => by simpa only [Body.mentions, tallyBody] using counts_expr value
  | .block ss => by simpa only [Body.mentions, tallyBody] using counts_statements ss

theorem counts_property : (p : Property) → Counts p.mentions (tallyProperty p)
  | .entry _ value => by simpa only [Property.mentions, tallyProperty] using counts_expr value
  | .shorthand _ => by simpa only [Property.mentions] using (Counts.nil _).cons (by simp)
  | .spread value => by simpa only [Property.mentions, tallyProperty] using counts_expr value

theorem counts_properties :
    (ps : List Property) → Counts (mentionsOfProperties ps) (tallyProperties ps)
  | [] => by simpa only [mentionsOfProperties] using Counts.nil _
  | p :: ps => by
    simpa only [mentionsOfProperties, tallyProperties] using
      (counts_property p).append (counts_properties ps)

theorem counts_markup : (e : Element) → Counts e.mentions (tallyElement e)
  | .mk name as c span => by
    have hc := counts_content c (recordsChildren (.mk name as c span))
    simp only [Element.mentions, tallyElement]
    refine (counts_tag name _).both ((counts_element name as c span _).both ?_)
    exact ((counts_attrs as).append hc).add_right _

theorem counts_attr : (a : Attribute) → Counts a.mentions (tallyAttr a)
  | .bare _ | .text _ _ => by simpa only [Attribute.mentions] using Counts.nil _
  | .value _ value => by simpa only [Attribute.mentions, tallyAttr] using counts_expr value
  | .spread value => by simpa only [Attribute.mentions, tallyAttr] using counts_expr value

theorem counts_attrs : (as : List Attribute) → Counts (mentionsOfAttributes as) (tallyAttrs as)
  | [] => by simpa only [mentionsOfAttributes] using Counts.nil _
  | a :: as => by
    simpa only [mentionsOfAttributes, tallyAttrs] using (counts_attr a).append (counts_attrs as)

theorem counts_content :
    (c : Content) → (records : Bool) → Counts c.mentions (tallyContent records c)
  | .selfClosing, _ => by simpa only [Content.mentions] using Counts.nil _
  | .children cs, records => by
    simpa only [Content.mentions, tallyContent] using counts_children cs records

theorem counts_children :
    (cs : List Child) → (records : Bool) → Counts (mentionsOfChildren cs) (tallyChildren records cs)
  | [], _ => by simpa only [mentionsOfChildren] using Counts.nil _
  | c :: cs, records => by
    simpa only [mentionsOfChildren, tallyChildren] using
      ((counts_child c).add_left (Tally.ofChild records c)).append (counts_children cs records)

theorem counts_child : (c : Child) → Counts c.mentions (tallyChild c)
  | .text _ | .emptyContainer _ => by simpa only [Child.mentions] using Counts.nil _
  | .container value _ => by simpa only [Child.mentions, tallyChild] using counts_expr value
  | .element e => by simpa only [Child.mentions, tallyChild] using counts_markup e

theorem counts_statement : (s : Statement) → Counts s.mentions (tallyStatement s)
  | .imports decl => by
    refine .none ?_ _
    intro x hx recorded
    rw [Statement.mentions] at hx
    obtain ⟨b, -, rfl⟩ := List.mem_map.mp hx
    simp
  | .const _ _ value => by
    simpa only [Statement.mentions, tallyStatement] using (counts_expr value).cons (by simp)
  | .returns value => by simpa only [Statement.mentions, tallyStatement] using counts_expr value
  | .returnsNothing => by simpa only [Statement.mentions] using Counts.nil _
  | .expr value => by simpa only [Statement.mentions, tallyStatement] using counts_expr value

theorem counts_statements :
    (ss : List Statement) → Counts (mentionsOfStatements ss) (tallyStatements ss)
  | [] => by simpa only [mentionsOfStatements] using Counts.nil _
  | s :: ss => by
    simpa only [mentionsOfStatements, tallyStatements] using
      (counts_statement s).append (counts_statements ss)

end

end MarkupTrace.Annotate
