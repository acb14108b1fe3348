import MarkupTrace.Proofs.FreshNames
import MarkupTrace.Proofs.ParsedModules
import Mathlib.Data.List.TakeWhile

/-!
# Code and where it comes from

Code that runs comes from a module as it was written or from one that was annotated. In both cases
it is the written code seen through a map that goes along with the constructors: only elements get
further attributes and their children are perhaps recorded. Statements about evaluation are made
once, for code of any origin.
-/

namespace MarkupTrace.Annotate

open Source Text

/-! ## The body of an annotated module -/

theorem statements_eq_map (s : Site) (xs : List Statement) :
    statements s xs = xs.map (statement s) := by
  induction xs with
  | nil => rw [statements, List.map_nil]
  | cons x xs ih => rw [statements, List.map_cons, ih]

@[simp] theorem isImport_statement (s : Site) (x : Statement) :
    (statement s x).isImport = x.isImport := by
  cases x <;> rw [statement] <;> rfl

/-- Imports are the same in annotated modules. -/
theorem statement_of_isImport (s : Site) {x : Statement} (h : x.isImport = true) :
    statement s x = x := by
  cases x with
  | imports decl => rw [statement]
  | _ => cases h

theorem isImport_of_mem_take (m : Module) : ∀ s ∈ m.body.take m.leadingImports,
    s.isImport = true := by
  have htake : m.body.take m.leadingImports = m.body.takeWhile Statement.isImport :=
    (List.prefix_iff_eq_take.mp (List.takeWhile_prefix _)).symm
  rw [htake]
  exact fun s hs => List.mem_takeWhile_imp hs

/-- The leading imports come first and are as they were, then the declarations, and then the rest. -/
theorem annotate_body (m : Module) (source fileName : String) (o : Options) :
    (annotate m source fileName o).module.body = m.body.take m.leadingImports ++
      (declarations (.ofModule m o) fileName (tallyStatements m.body) ++
        statements ⟨LineIndex.ofText source, o.normalizeLineEndings, .ofModule m o⟩
          (m.body.drop m.leadingImports)) := by
  let k := m.leadingImports
  let site : Site := ⟨LineIndex.ofText source, o.normalizeLineEndings, .ofModule m o⟩
  have hmarked : statements site m.body =
      m.body.take k ++ statements site (m.body.drop k) := by
    rw [statements_eq_map, statements_eq_map]
    nth_rewrite 1 [← List.take_append_drop k m.body]
    rw [List.map_append, List.map_congr_left fun x hx =>
      statement_of_isImport site (isImport_of_mem_take m x hx), List.map_id']
  have hleading : Module.leadingImports ⟨statements site m.body⟩ = k := by
    simp only [k, Module.leadingImports, statements_eq_map, List.takeWhile_map, List.length_map,
      Function.comp_def, isImport_statement]
  have hlength : (m.body.take k).length = k :=
    List.length_take_of_le (List.takeWhile_prefix _).length_le
  show (insertBehindImports _ ⟨statements site m.body⟩).body = _
  rw [insertBehindImports, hleading, hmarked, List.take_left' hlength, List.drop_left' hlength,
    List.append_assoc]

/-! ## Origins -/

/-- A module that is annotated under some options and runs on a stack. Its names are as fresh as
annotation can make them: shorthand keys are looked up as well, but annotation does not avoid
them. -/
structure Instance where
  module : Module
  source : String
  fileName : String
  options : Options
  stack : StackId
  written : Grammar.Written module.mentions
  shorthands : ∀ n, .shorthand n ∈ module.mentions → n ∉ (Names.ofModule module options).toList

namespace Instance

def names (i : Instance) : Names := Names.ofModule i.module i.options

def site (i : Instance) : Site :=
  ⟨LineIndex.ofText i.source, i.options.normalizeLineEndings, i.names⟩

def tally (i : Instance) : Tally := tallyStatements i.module.body

/-- The place of a span in the annotated file. -/
def place (i : Instance) (span : Span) : Location :=
  ⟨i.fileName, i.site.offset span.start, i.site.offset span.stop,
    some (i.site.index.lineNumber span.start)⟩

theorem names_ne (i : Instance) :
    i.names.fileName ≠ i.names.stack ∧ i.names.fileName ≠ i.names.recordParent ∧
      i.names.fileName ≠ i.names.recordExpression ∧ i.names.stack ≠ i.names.recordParent ∧
      i.names.stack ≠ i.names.recordExpression ∧
      i.names.recordParent ≠ i.names.recordExpression := by
  have h : i.names.toList.Nodup := Names.avoiding_nodup i.module.names i.options
  simp only [Names.toList, List.nodup_cons, List.mem_cons, List.not_mem_nil, or_false, not_or] at h
  obtain ⟨⟨h₁, h₂, h₃⟩, ⟨h₄, h₅⟩, h₆, -⟩ := h
  exact ⟨h₁, h₂, h₃, h₄, h₅, h₆⟩

end Instance

/-- Where code comes from. -/
inductive Origin
  | plain
  | annotated (i : Instance)

namespace Origin

def expr : Origin → Expr → Expr
  | plain, e => e
  | annotated i, e => Annotate.expr i.site e

def exprs : Origin → List Expr → List Expr
  | plain, es => es
  | annotated i, es => Annotate.exprs i.site es

def body : Origin → Body → Body
  | plain, b => b
  | annotated i, b => Annotate.body i.site b

def property : Origin → Property → Property
  | plain, p => p
  | annotated i, p => Annotate.property i.site p

def properties : Origin → List Property → List Property
  | plain, ps => ps
  | annotated i, ps => Annotate.properties i.site ps

def element : Origin → Element → Element
  | plain, e => e
  | annotated i, e => Annotate.element i.site e

def attr : Origin → Attribute → Attribute
  | plain, a => a
  | annotated i, a => Annotate.attr i.site a

def attrs : Origin → List Attribute → List Attribute
  | plain, as => as
  | annotated i, as => Annotate.attrs i.site as

/-- The attributes an element gets in addition. -/
def added : Origin → Element → List Attribute
  | plain, _ => []
  | annotated i, e => addedAttributes i.site e

/-- The children of an element are recorded. -/
def records : Origin → Element → Bool
  | plain, _ => false
  | annotated _, e => recordsChildren e

def child : Origin → (records isLast : Bool) → Child → Child
  | plain, _, _, c => c
  | annotated i, records, isLast, c => Annotate.child i.site records isLast c

def children : Origin → (records : Bool) → List Child → List Child
  | plain, _, cs => cs
  | annotated i, records, cs => Annotate.children i.site records cs

def content : Origin → (records : Bool) → Content → Content
  | plain, _, c => c
  | annotated i, records, c => Annotate.content i.site records c

def statement : Origin → Statement → Statement
  | plain, s => s
  | annotated i, s => Annotate.statement i.site s

def statements : Origin → List Statement → List Statement
  | plain, ss => ss
  | annotated i, ss => Annotate.statements i.site ss

/-! ## The map along the constructors -/

section

variable (o : Origin)

@[simp] theorem expr_text (v : String) : o.expr (.text v) = .text v := by
  cases o <;> rfl

@[simp] theorem expr_number (n : Double) : o.expr (.number n) = .number n := by
  cases o <;> rfl

@[simp] theorem expr_bool (b : Bool) : o.expr (.bool b) = .bool b := by
  cases o <;> rfl

@[simp] theorem expr_null : o.expr .null = .null := by
  cases o <;> rfl

@[simp] theorem expr_this : o.expr .this = .this := by
  cases o <;> rfl

@[simp] theorem expr_name (n : String) : o.expr (.name n) = .name n := by
  cases o <;> rfl

@[simp] theorem expr_member (e : Expr) (p : String) :
    o.expr (.member e p) = .member (o.expr e) p := by
  cases o <;> rfl

@[simp] theorem expr_call (callee : Expr) (arguments : List Expr) :
    o.expr (.call callee arguments) = .call (o.expr callee) (o.exprs arguments) := by
  cases o <;> rfl

@[simp] theorem expr_arrow (ps : List Param) (b : Body) :
    o.expr (.arrow ps b) = .arrow ps (o.body b) := by
  cases o <;> rfl

@[simp] theorem expr_object (ps : List Property) :
    o.expr (.object ps) = .object (o.properties ps) := by
  cases o <;> rfl

@[simp] theorem expr_array (items : List Expr) : o.expr (.array items) = .array (o.exprs items) := by
  cases o <;> rfl

@[simp] theorem expr_paren (e : Expr) : o.expr (.paren e) = .paren (o.expr e) := by
  cases o <;> rfl

@[simp] theorem expr_markup (e : Element) : o.expr (.markup e) = .markup (o.element e) := by
  cases o <;> rfl

@[simp] theorem expr_location (l : LocationLiteral) : o.expr (.location l) = .location l := by
  cases o <;> rfl

@[simp] theorem expr_helper (h : Helper) : o.expr (.helper h) = .helper h := by
  cases o <;> rfl

@[simp] theorem exprs_nil : o.exprs [] = [] := by
  cases o <;> rfl

@[simp] theorem exprs_cons (e : Expr) (es : List Expr) :
    o.exprs (e :: es) = o.expr e :: o.exprs es := by
  cases o <;> rfl

@[simp] theorem body_result (e : Expr) : o.body (.result e) = .result (o.expr e) := by
  cases o <;> rfl

@[simp] theorem body_block (ss : List Statement) : o.body (.block ss) = .block (o.statements ss) := by
  cases o <;> rfl

@[simp] theorem property_entry (key : String) (e : Expr) :
    o.property (.entry key e) = .entry key (o.expr e) := by
  cases o <;> rfl

@[simp] theorem property_shorthand (n : String) : o.property (.shorthand n) = .shorthand n := by
  cases o <;> rfl

@[simp] theorem property_spread (e : Expr) : o.property (.spread e) = .spread (o.expr e) := by
  cases o <;> rfl

@[simp] theorem properties_nil : o.properties [] = [] := by
  cases o <;> rfl

@[simp] theorem properties_cons (p : Property) (ps : List Property) :
    o.properties (p :: ps) = o.property p :: o.properties ps := by
  cases o <;> rfl

@[simp] theorem attr_bare (n : String) : o.attr (.bare n) = .bare n := by
  cases o <;> rfl

@[simp] theorem attr_text (n raw : String) : o.attr (.text n raw) = .text n raw := by
  cases o <;> rfl

@[simp] theorem attr_value (n : String) (e : Expr) :
    o.attr (.value n e) = .value n (o.expr e) := by
  cases o <;> rfl

@[simp] theorem attr_spread (e : Expr) : o.attr (.spread e) = .spread (o.expr e) := by
  cases o <;> rfl

@[simp] theorem attrs_nil : o.attrs [] = [] := by
  cases o <;> rfl

@[simp] theorem attrs_cons (a : Attribute) (as : List Attribute) :
    o.attrs (a :: as) = o.attr a :: o.attrs as := by
  cases o <;> rfl

@[simp] theorem children_nil (records : Bool) : o.children records [] = [] := by
  cases o <;> rfl

@[simp] theorem children_cons (records : Bool) (c : Child) (cs : List Child) :
    o.children records (c :: cs) =
      o.child records (!cs.any Child.isWrappable) c :: o.children records cs := by
  cases o <;> rfl

@[simp] theorem child_emptyContainer (records isLast : Bool) (span : Span) :
    o.child records isLast (.emptyContainer span) = .emptyContainer span := by
  cases o <;> rfl

@[simp] theorem child_element (records isLast : Bool) (e : Element) :
    o.child records isLast (.element e) = .element (o.element e) := by
  cases o <;> rfl

@[simp] theorem child_text_unrecorded (isLast : Bool) (t : MarkupText) :
    o.child false isLast (.text t) = .text t := by
  cases o <;> rfl

@[simp] theorem child_container_unrecorded (isLast : Bool) (e : Expr) (span : Span) :
    o.child false isLast (.container e span) = .container (o.expr e) span := by
  cases o <;> rfl

theorem content_toList (records : Bool) (c : Content) :
    (o.content records c).toList = o.children records c.toList := by
  cases o <;> cases c <;> rfl

@[simp] theorem element_name (e : Element) : (o.element e).name = e.name := by
  cases o <;> cases e <;> rfl

theorem element_attributes (e : Element) :
    (o.element e).attributes = o.attrs e.attributes ++ o.added e := by
  cases o <;> cases e <;>
    simp only [element, attrs, added, Annotate.element, Element.attributes, List.append_nil]

theorem element_content (e : Element) :
    (o.element e).content.toList = o.children (o.records e) e.content.toList := by
  rw [← content_toList]
  cases o <;> cases e <;> rfl

@[simp] theorem statement_imports (decl : Import) : o.statement (.imports decl) = .imports decl := by
  cases o <;> rfl

@[simp] theorem statement_const (exported : Bool) (n : String) (e : Expr) :
    o.statement (.const exported n e) = .const exported n (o.expr e) := by
  cases o <;> rfl

@[simp] theorem statement_returns (e : Expr) : o.statement (.returns e) = .returns (o.expr e) := by
  cases o <;> rfl

@[simp] theorem statement_returnsNothing : o.statement .returnsNothing = .returnsNothing := by
  cases o <;> rfl

@[simp] theorem statement_expr (e : Expr) : o.statement (.expr e) = .expr (o.expr e) := by
  cases o <;> rfl

@[simp] theorem statements_nil : o.statements [] = [] := by
  cases o <;> rfl

@[simp] theorem statements_cons (s : Statement) (ss : List Statement) :
    o.statements (s :: ss) = o.statement s :: o.statements ss := by
  cases o <;> rfl

end

/-- The declarations that code begins with, behind its imports. -/
def declarations : Origin → List Statement
  | plain => []
  | annotated i => Annotate.declarations i.names i.fileName i.tally

/-- The origin is that of a module on a stack. -/
def Of (o : Origin) (m : Module) (stack : StackId) : Prop :=
  ∀ i, o = annotated i → i.module = m ∧ i.stack = stack

/-- The code of a module that is of this origin. -/
def code : Origin → Module → Module
  | plain, m => m
  | annotated i, _ => (annotate i.module i.source i.fileName i.options).module

/-- Code has the leading imports of its module, then declarations, and the rest as the origin has
it. -/
theorem code_body {o : Origin} {m : Module} {stack : StackId} (ho : o.Of m stack) :
    (o.code m).body = m.body.take m.leadingImports ++
      (o.declarations ++ o.statements (m.body.drop m.leadingImports)) := by
  cases o with
  | plain => exact (List.take_append_drop _ _).symm
  | annotated i =>
    obtain ⟨rfl, -⟩ := ho i rfl
    exact annotate_body i.module i.source i.fileName i.options

/-! ## Mentions -/

/-- The names that only annotation declares. -/
def hidden : Origin → List String
  | plain => []
  | annotated i => i.names.toList

/-- Code with these mentions may be of the origin. -/
def Fits : Origin → List Mention → Prop
  | plain, mentions => Grammar.Written mentions
  | annotated i, mentions => mentions ⊆ i.module.mentions

namespace Fits

variable {o : Origin} {xs ys : List Mention} {x : Mention}

theorem mono (h : o.Fits xs) (hsub : ys ⊆ xs) : o.Fits ys := by
  cases o with
  | plain => exact fun hy => h (hsub hy)
  | annotated i => exact fun _ hy => h (hsub hy)

theorem left (h : o.Fits (xs ++ ys)) : o.Fits xs := h.mono (List.subset_append_left xs ys)

theorem right (h : o.Fits (xs ++ ys)) : o.Fits ys := h.mono (List.subset_append_right xs ys)

theorem tail (h : o.Fits (x :: xs)) : o.Fits xs := h.mono (List.subset_cons_self x xs)

theorem written (h : o.Fits xs) : Grammar.Written xs := by
  cases o with
  | plain => exact h
  | annotated i => exact fun hx => i.written (h hx)

/-- What annotation avoids is not hidden. -/
theorem not_hidden_of_avoided (h : o.Fits xs) (hx : x ∈ xs) {n : String} (hn : n ∈ x.avoided?) :
    n ∉ o.hidden := by
  cases o with
  | plain => exact List.not_mem_nil
  | annotated i =>
    exact Names.ofModule_not_mem i.module i.options (i.module.avoids x (h hx) n hn)

theorem identifier (h : o.Fits xs) {n : String} (hx : .identifier n ∈ xs) : n ∉ o.hidden :=
  h.not_hidden_of_avoided hx rfl

theorem binder (h : o.Fits xs) {n : String} (hx : .binder n ∈ xs) : n ∉ o.hidden :=
  h.not_hidden_of_avoided hx rfl

theorem shorthand (h : o.Fits xs) {n : String} (hx : .shorthand n ∈ xs) : n ∉ o.hidden := by
  cases o with
  | plain => exact List.not_mem_nil
  | annotated i => exact i.shorthands n (h hx)

/-- The module counts the elements of its code. -/
theorem counts {i : Instance} (h : (annotated i).Fits xs) : Counts xs i.tally := by
  intro recorded hx
  exact counts_statements i.module.body recorded (h hx)

end Fits

end Origin

end MarkupTrace.Annotate
