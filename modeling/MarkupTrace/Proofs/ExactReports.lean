import MarkupTrace.Proofs.CountedElements
import MarkupTrace.Proofs.FlaggedChildren
import MarkupTrace.Proofs.TakenNames

/-!
# Reports are exact

The report of an annotation tells what was done, and the declarations cover what the annotations use.
The file constant is there if and only if a location is, and the stack and the helpers are there if
and only if one of the helpers is called. A generated name that is read is declared once, before it
is read; only a shorthand key or the first segment of a tag can read one that is not declared, since
these are overlooked when the names of a module are collected. And of the children of an element that
pushes its location, the last one that can be recorded is flagged, and no other.
-/

namespace MarkupTrace.Source

open Annotate

/-- The names that a node binds itself. -/
def Node.binds : Node → List String
  | .expr (.arrow ps _) => ps.flatMap Param.names
  | .statement (.imports decl) => decl.bindings.map (·.name)
  | .statement (.const _ n _) => [n]
  | _ => []

/-- The names that a node reads without being among the names of the module. -/
def Node.overlooked : Node → List String
  | .property (.shorthand n) => [n]
  | .element e => if isHostTag e.name then [] else (Eval.segments e.name).take 1
  | _ => []

/-- The names that a node reads as an expression of its own. -/
def Node.evaluates : Node → List String
  | .expr (.name n) => [n]
  | .expr (.location l) => [l.file]
  | .expr (.helper (.recordParent stack)) | .expr (.helper (.recordExpression stack)) => [stack]
  | _ => []

/-- The names that a node reads itself. -/
def Node.reads (x : Node) : List String := x.evaluates ++ x.overlooked

theorem Node.binds_subset_names (x : Node) : x.binds ⊆ x.names := by
  intro n hn
  unfold binds at hn
  split at hn
  · exact hn
  · obtain ⟨b, hb, rfl⟩ := List.mem_map.mp hn
    refine List.mem_flatMap.mpr ⟨b, hb, ?_⟩
    cases b.imported <;> simp
  · exact hn
  · cases hn

theorem Node.evaluates_subset_names {x : Node} (h : x.isGenerated = false) :
    x.evaluates ⊆ x.names := by
  intro n hn
  unfold evaluates at hn
  split at hn
  · exact hn
  · exact hn
  · cases h
  · cases h
  · cases hn

/-- One statement declares the name. Nothing before it binds the name or reads it, and neither does
the value, and nothing behind it binds the name. -/
def DeclaredOnce (n : String) (body : List Statement) : Prop :=
  ∃ before value after, body = before ++ .const false n value :: after ∧
    (∀ x ∈ nodesOfStatements before ++ value.nodes, n ∉ x.binds ∧ n ∉ x.reads) ∧
    ∀ x ∈ nodesOfStatements after, n ∉ x.binds

/-- Declarations stay so behind statements that do not use the name and before some that do not bind
it. -/
theorem DeclaredOnce.between {n : String} {ds : List Statement} (h : DeclaredOnce n ds)
    {front rest : List Statement}
    (hfront : ∀ x ∈ nodesOfStatements front, n ∉ x.binds ∧ n ∉ x.reads)
    (hrest : ∀ x ∈ nodesOfStatements rest, n ∉ x.binds) : DeclaredOnce n (front ++ (ds ++ rest)) := by
  obtain ⟨before, value, after, rfl, hbefore, hafter⟩ := h
  refine ⟨front ++ before, value, after ++ rest, by simp, ?_, ?_⟩
  · intro x hx
    rw [nodesOfStatements_append, List.append_assoc] at hx
    rcases List.mem_append.mp hx with hx | hx
    · exact hfront x hx
    · exact hbefore x hx
  · intro x hx
    rw [nodesOfStatements_append] at hx
    rcases List.mem_append.mp hx with hx | hx
    · exact hafter x hx
    · exact hrest x hx

/-- A call of one of the helpers. -/
def Node.IsHelperCall (names : Names) (x : Node) : Prop :=
  ∃ f arguments, x = .expr (.call (.name f) arguments) ∧
    f ∈ [names.recordParent, names.recordExpression]

end MarkupTrace.Source

namespace MarkupTrace.Annotate

open Source

/-! ## Names of nodes -/

section

variable (s : Site) (x : Node)

theorem binds_form : (s.form x).binds = x.binds := by
  rcases x with e | b | p | e | a | c | c | st <;> try rfl
  · cases e <;> rw [Site.form, expr] <;> rfl
  · cases st <;> rw [Site.form, statement] <;> rfl

theorem overlooked_form : (s.form x).overlooked = x.overlooked := by
  rcases x with e | b | p | e | a | c | c | st <;> try rfl
  · cases p <;> rw [Site.form, property] <;> rfl
  · cases e
    rw [Site.form, element]
    rfl

theorem evaluates_form : (s.form x).evaluates = x.evaluates := by
  rcases x with e | b | p | e | a | c | c | st <;> try rfl
  cases e <;> rw [Site.form, expr] <;> rfl

end

theorem binds_brought {s : Site} {e : Element} {y : Node} (h : Brought s e y) : y.binds = [] := by
  cases h <;> rfl

/-- No node that the module's statements lead to binds a generated name. -/
theorem not_binds_statements {m : Module} {o : Options} {n : String}
    (hn : n ∈ (Names.ofModule m o).toList) {s : Site} {xs : List Statement}
    (hxs : nodesOfStatements xs ⊆ m.nodes) :
    ∀ y ∈ nodesOfStatements (statements s xs), n ∉ y.binds := by
  intro y hy hmem
  rcases (leads_statements s xs y).mp hy with ⟨x, hx, hy⟩ | hy
  · rcases outcome_cases hy with rfl | ⟨e, rfl, hbrought⟩
    · rw [binds_form] at hmem
      exact not_generated hn (hxs hx) (x.binds_subset_names hmem)
    · rw [binds_brought hbrought] at hmem
      cases hmem
  · cases hy

/-- The helpers are among the generated names. -/
theorem helpers_subset (names : Names) :
    [names.recordParent, names.recordExpression] ⊆ names.toList := by
  simp [Names.toList]

theorem Site.location_mem_source (s : Site) (span : Text.Span) (records : Bool) :
    .expr (.location (s.location span)) ∈ (s.source span records).nodes := by
  cases records <;> simp [Site.source, Expr.nodes, nodesOfItems]

theorem Site.call_mem_source (s : Site) (span : Text.Span) :
    .expr (.call (.name s.names.recordParent) [.location (s.location span)]) ∈
      (s.source span true).nodes := by
  simp [Site.source, Expr.nodes]

/-! ## What is inserted -/

/-- A location is put in for each element without a `__source` of the author's. -/
theorem location_mem_iff {m : Module} (hm : ∀ x ∈ m.nodes, x.isGenerated = false)
    (source fileName : String) (o : Options) :
    (∃ l, .expr (.location l) ∈ (annotate m source fileName o).module.nodes) ↔
      0 < (annotate m source fileName o).report.tally.annotated := by
  rw [tally_annotate, annotated_counting_pos]
  constructor
  · rintro ⟨l, hl⟩
    rcases node_cases hl with hl | ⟨x, hx, hl⟩ | ⟨e, he, hl⟩
    · cases hl
    · cases location_of_form hl
      cases hm _ hx
    · cases hl with
      | location hsource span => exact ⟨e, he, hsource⟩
  · rintro ⟨e, he, hsource⟩
    let site : Site := ⟨Text.LineIndex.ofText source, o.normalizeLineEndings, .ofModule m o⟩
    have hplace := site.location_mem_source e.span (recordsChildren e)
    exact ⟨site.location e.span,
      mem_nodes_of_brought source fileName o he (source_nodes_subset site hsource hplace)⟩

/-- A helper is called for each element whose children are recorded. -/
theorem helperCall_mem_iff (m : Module) (source fileName : String) (o : Options) :
    (∃ x ∈ (annotate m source fileName o).module.nodes,
        x.IsHelperCall (annotate m source fileName o).names) ↔
      0 < (annotate m source fileName o).report.tally.wrapped := by
  rw [tally_annotate, wrapped_counting_pos]
  constructor
  · rintro ⟨x, hx, f, arguments, rfl, hf⟩
    rcases node_cases hx with hx | ⟨x, hx, hform⟩ | ⟨e, he, hx⟩
    · cases hx
    · obtain ⟨arguments', rfl⟩ := call_of_form hform
      have hname : .expr (.name f) ∈ m.nodes := m.nested _ hx (by simp [Node.nodes, Expr.nodes])
      exact absurd List.mem_cons_self (not_generated (helpers_subset _ hf) hname)
    · cases hx with
      | pushing hrecords => exact ⟨e, he, hrecords⟩
      | recording hrecords => exact ⟨e, he, hrecords⟩
  · rintro ⟨e, he, hrecords⟩
    let site : Site := ⟨Text.LineIndex.ofText source, o.normalizeLineEndings, .ofModule m o⟩
    have hsource := source_of_recordsChildren hrecords
    have hcall := site.call_mem_source e.span
    rw [← hrecords] at hcall
    exact ⟨_, mem_nodes_of_brought source fileName o he (source_nodes_subset site hsource hcall),
      site.names.recordParent, _, rfl, List.mem_cons_self⟩

/-! ## Declarations -/

/-- What the declarations declare is declared once in them. -/
theorem declaredOnce_declarations {names : Names} (hdistinct : names.toList.Nodup)
    (fileName : String) {t : Tally} (ht : t.Backed) {n : String}
    (hn : n = names.fileName ∧ 0 < t.annotated ∨
      n ∈ [names.stack, names.recordParent, names.recordExpression] ∧ 0 < t.wrapped) :
    DeclaredOnce n (declarations names fileName t) := by
  simp only [Names.toList, List.nodup_cons, List.mem_cons, List.not_mem_nil, or_false,
    not_or] at hdistinct
  obtain ⟨⟨hstack, hparent, hexpression⟩, ⟨hparent', hexpression'⟩, hhelpers, -⟩ := hdistinct
  rcases hn with ⟨rfl, hannotated⟩ | ⟨hn, hwrapped⟩
  · rw [declarations, if_pos hannotated]
    refine ⟨[], .text fileName, _, rfl, ?_, ?_⟩
    · simp [nodesOfStatements, Expr.nodes, Node.binds, Node.reads, Node.evaluates, Node.overlooked]
    · split_ifs <;>
        simp [nodesOfStatements, Statement.nodes, Expr.nodes, Node.binds, declare, hstack, hparent,
          hexpression]
  · rw [declarations, if_pos (ht hwrapped), if_pos hwrapped]
    simp only [List.mem_cons, List.not_mem_nil, or_false] at hn
    rcases hn with rfl | rfl | rfl
    · refine ⟨[_], .helper .newStack, _, rfl, ?_, ?_⟩
      · simp [nodesOfStatements, Statement.nodes, Expr.nodes, Node.binds, Node.reads,
          Node.evaluates, Node.overlooked, declare, Ne.symm hstack]
      · simp [nodesOfStatements, Statement.nodes, Expr.nodes, Node.binds, declare, hparent',
          hexpression']
    · refine ⟨[_, _], .helper (.recordParent _), _, rfl, ?_, ?_⟩
      · simp [nodesOfStatements, Statement.nodes, Expr.nodes, Node.binds, Node.reads,
          Node.evaluates, Node.overlooked, declare, Ne.symm hparent, Ne.symm hparent']
      · simp [nodesOfStatements, Statement.nodes, Expr.nodes, Node.binds, declare, hhelpers]
    · refine ⟨[_, _, _], .helper (.recordExpression _), _, rfl, ?_, ?_⟩
      · simp [nodesOfStatements, Statement.nodes, Expr.nodes, Node.binds, Node.reads,
          Node.evaluates, Node.overlooked, declare, Ne.symm hexpression, Ne.symm hexpression',
          Ne.symm hhelpers]
      · simp [nodesOfStatements]

theorem nodes_drop_subset (m : Module) :
    nodesOfStatements (m.body.drop m.leadingImports) ⊆ m.nodes := by
  rw [Module.nodes]
  nth_rewrite 2 [← List.take_append_drop m.leadingImports m.body]
  rw [nodesOfStatements_append]
  exact List.subset_append_right _ _

/-- Imports read nothing and bind no generated name. -/
theorem unused_in_imports {m : Module} {o : Options} {n : String}
    (hn : n ∈ (Names.ofModule m o).toList) :
    ∀ x ∈ nodesOfStatements (m.body.take m.leadingImports), n ∉ x.binds ∧ n ∉ x.reads := by
  intro x hx
  have hmem : x ∈ m.nodes := by
    rw [Module.nodes, ← List.take_append_drop m.leadingImports m.body, nodesOfStatements_append]
    exact List.mem_append_left _ hx
  refine ⟨fun hbinds => not_generated hn hmem (x.binds_subset_names hbinds), ?_⟩
  rw [nodesOfStatements_eq] at hx
  obtain ⟨st, hst, hx⟩ := List.mem_flatMap.mp hx
  have himport := isImport_of_mem_take m st hst
  cases st with
  | imports decl =>
    rw [Statement.nodes, List.mem_singleton] at hx
    rw [hx]
    exact List.not_mem_nil
  | _ => cases himport

theorem declaredOnce_annotate {m : Module} {o : Options} {n : String}
    (hn : n ∈ (Names.ofModule m o).toList) {source fileName : String}
    (h : DeclaredOnce n (declarations (Names.ofModule m o) fileName (tallyStatements m.body))) :
    DeclaredOnce n (annotate m source fileName o).module.body := by
  rw [annotate_body]
  exact h.between (unused_in_imports hn) (not_binds_statements hn (nodes_drop_subset m))

/-- What binds a generated name is one of the declarations. -/
theorem const_mem_body_iff {m : Module} {o : Options} {n : String}
    (hn : n ∈ (Names.ofModule m o).toList) (source fileName : String) (value : Expr) :
    .const false n value ∈ (annotate m source fileName o).module.body ↔
      .const false n value ∈ declarations (Names.ofModule m o) fileName (tallyStatements m.body) := by
  rw [annotate_body, List.mem_append, List.mem_append]
  constructor
  · rintro (h | h | h)
    · cases isImport_of_mem_take m _ h
    · exact h
    · exact absurd List.mem_cons_self
        (not_binds_statements hn (nodes_drop_subset m) _ (statement_mem_nodes h))
  · exact fun h => .inr (.inl h)

theorem fileConstant_mem_body_iff (m : Module) (source fileName : String) (o : Options) :
    fileConstant (Names.ofModule m o) fileName ∈ (annotate m source fileName o).module.body ↔
      0 < (tallyStatements m.body).annotated := by
  rw [fileConstant, const_mem_body_iff (by simp [Names.toList])]
  rcases declarations_cases (Names.ofModule m o) fileName (backed_statements m.body) with
    ⟨hannotated, -, hdeclarations⟩ | ⟨hannotated, -, hdeclarations⟩ | ⟨hannotated, -, hdeclarations⟩
  · simp [hdeclarations, hannotated]
  · simp [hdeclarations, hannotated, fileConstant]
  · simp [hdeclarations, hannotated, fileConstant]

theorem helperDeclaration_mem_body_iff (m : Module) (source fileName : String) (o : Options)
    {d : Statement} (hd : d ∈ helperDeclarations (Names.ofModule m o)) :
    d ∈ (annotate m source fileName o).module.body ↔ 0 < (tallyStatements m.body).wrapped := by
  obtain ⟨n, x, hn, rfl⟩ : ∃ n x, n ∈ (Names.ofModule m o).toList ∧
      d = .const false n (.helper x) := by
    simp only [helperDeclarations, List.mem_cons, List.not_mem_nil, or_false] at hd
    rcases hd with rfl | rfl | rfl <;> exact ⟨_, _, by simp [Names.toList], rfl⟩
  rw [const_mem_body_iff hn]
  rcases declarations_cases (Names.ofModule m o) fileName (backed_statements m.body) with
    ⟨-, hwrapped, hdeclarations⟩ | ⟨-, hwrapped, hdeclarations⟩ | ⟨-, hwrapped, hdeclarations⟩
  · simp [hdeclarations, hwrapped]
  · simp [hdeclarations, hwrapped, fileConstant]
  · simp [hdeclarations, hwrapped, hd]

/-! ## Uses -/

section

variable {m : Module} (source fileName : String) (o : Options) {e : Element} (he : e ∈ m.elements)

include he

/-- An element with a location has the file constant declared. -/
theorem declaredOnce_fileName (h : e.hasAttribute sourceAttribute = false) :
    DeclaredOnce (Names.ofModule m o).fileName (annotate m source fileName o).module.body := by
  have hpos : 0 < (tallyStatements m.body).annotated := by
    rw [tallyStatements_eq]
    exact annotated_counting_pos.mpr ⟨e, he, h⟩
  exact declaredOnce_annotate (by simp [Names.toList]) (declaredOnce_declarations
    (Names.avoiding_nodup m.names o) fileName (backed_statements m.body) (.inl ⟨rfl, hpos⟩))

/-- An element with recorded children has the stack and the helpers declared. -/
theorem declaredOnce_helper (h : recordsChildren e = true) {n : String}
    (hn : n ∈ [(Names.ofModule m o).stack, (Names.ofModule m o).recordParent,
      (Names.ofModule m o).recordExpression]) :
    DeclaredOnce n (annotate m source fileName o).module.body := by
  have hpos : 0 < (tallyStatements m.body).wrapped := by
    rw [tallyStatements_eq]
    exact wrapped_counting_pos.mpr ⟨e, he, h⟩
  exact declaredOnce_annotate (List.mem_cons_of_mem _ hn) (declaredOnce_declarations
    (Names.avoiding_nodup m.names o) fileName (backed_statements m.body) (.inr ⟨hn, hpos⟩))

end

/-- A generated name that a node of the annotated module reads is declared, unless the node is a
shorthand key or a tag of the module's. -/
theorem declaredOnce_of_reads {m : Module} (hm : ∀ x ∈ m.nodes, x.isGenerated = false)
    (source fileName : String) {o : Options} {n : String} (hn : n ∈ (Names.ofModule m o).toList)
    {y : Node} (hy : y ∈ (annotate m source fileName o).module.nodes) (hreads : n ∈ y.reads) :
    DeclaredOnce n (annotate m source fileName o).module.body ∨
      n ∈ y.overlooked ∧ ∃ x ∈ m.nodes, n ∈ x.overlooked := by
  rcases node_cases hy with hy | ⟨x, hx, rfl⟩ | ⟨e, he, hy⟩
  · refine .inl ?_
    cases hy with
    | statement x => cases hreads
    | text v => cases hreads
    | helper hpos hx =>
      rw [tally_annotate, wrapped_counting_pos] at hpos
      obtain ⟨e, he, hrecords⟩ := hpos
      refine declaredOnce_helper source fileName o he hrecords ?_
      simp only [List.mem_cons, List.not_mem_nil, or_false] at hx
      rcases hx with rfl | rfl | rfl
      · cases hreads
      · exact List.mem_singleton.mp hreads ▸ List.mem_cons_self
      · exact List.mem_singleton.mp hreads ▸ List.mem_cons_self
  · rw [Node.reads, evaluates_form, overlooked_form] at hreads
    rcases List.mem_append.mp hreads with hevaluates | hoverlooked
    · exact absurd (x.evaluates_subset_names (hm x hx) hevaluates) (not_generated hn hx)
    · rw [overlooked_form]
      exact .inr ⟨hoverlooked, x, hx, hoverlooked⟩
  · refine .inl ?_
    cases hy with
    | location hsource span =>
      cases List.mem_singleton.mp hreads
      exact declaredOnce_fileName source fileName o he hsource
    | recordParent hrecords =>
      cases List.mem_singleton.mp hreads
      exact declaredOnce_helper source fileName o he hrecords
        (List.mem_cons_of_mem _ List.mem_cons_self)
    | recordExpression hrecords =>
      cases List.mem_singleton.mp hreads
      exact declaredOnce_helper source fileName o he hrecords
        (List.mem_cons_of_mem _ (List.mem_cons_of_mem _ List.mem_cons_self))
    | _ => cases hreads

/-! ## Reports -/

/-- What a report tells is what was done to the module, and the declarations cover what is used. -/
structure Annotated.IsExact (m : Module) (fileName : String) (a : Annotated) : Prop where
  annotated : a.report.tally.annotated = (unplaced m.elements).length
  texts : a.report.tally.texts = (childrenOf (unplaced m.elements)).countP Child.isShownText
  expressions :
    a.report.tally.expressions = (childrenOf (unplaced m.elements)).countP Child.isContainer
  kept : a.report.tally.kept = m.elements.countP (·.hasAttribute selfAttribute) +
    m.elements.countP (·.hasAttribute sourceAttribute)
  fileConstantInserted :
    a.report.fileConstantInserted = true ↔ ∃ l, .expr (.location l) ∈ a.module.nodes
  fileConstant : fileConstant a.names fileName ∈ a.module.body ↔
    ∃ l, .expr (.location l) ∈ a.module.nodes
  helpersInserted :
    a.report.helpersInserted = true ↔ ∃ x ∈ a.module.nodes, x.IsHelperCall a.names
  helpers : ∀ d ∈ helperDeclarations a.names, d ∈ a.module.body ↔
    ∃ x ∈ a.module.nodes, x.IsHelperCall a.names
  /-- A shorthand key or the first segment of a tag may read a name that is not declared. -/
  declared : ∀ n ∈ a.names.toList, ∀ x ∈ a.module.nodes, n ∈ x.reads →
    DeclaredOnce n a.module.body ∨ n ∈ x.overlooked ∧ ∃ y ∈ m.nodes, n ∈ y.overlooked
  flagged : List.Forall₂ (Element.FlagsExactly a.names) m.elements a.module.elements

/-- The report of a module that has no generated nodes is exact, whatever the options are. -/
theorem annotate_isExact {m : Module} (hm : ∀ x ∈ m.nodes, x.isGenerated = false)
    (source fileName : String) (o : Options) :
    (annotate m source fileName o).IsExact m fileName := by
  have htally := tally_annotate m source fileName o
  have hlocation := location_mem_iff hm source fileName o
  have hcall := helperCall_mem_iff m source fileName o
  refine ⟨congrArg Tally.annotated htally, congrArg Tally.texts htally,
    congrArg Tally.expressions htally, congrArg Tally.kept htally, ?_, ?_, ?_, ?_, ?_, ?_⟩
  · exact decide_eq_true_iff.trans hlocation.symm
  · exact (fileConstant_mem_body_iff m source fileName o).trans hlocation.symm
  · exact decide_eq_true_iff.trans hcall.symm
  · exact fun d hd => (helperDeclaration_mem_body_iff m source fileName o hd).trans hcall.symm
  · exact fun n hn y hy hreads => declaredOnce_of_reads hm source fileName hn hy hreads
  · rw [elements_annotate, List.forall₂_map_right_iff, List.forall₂_same]
    intro e he
    let site : Site := ⟨Text.LineIndex.ofText source, o.normalizeLineEndings, .ofModule m o⟩
    have hflags : e.FlagsExactly site.names (element site e) := flagsExactly_element fun x hx =>
      hm x (m.nested _ (Module.mem_elements.mp he) hx)
    exact hflags

def keptSource : String :=
  "export const f = (x) => <p>hi <b __source=\x7bx\x7d>\x7bx\x7d</b>\x7bx\x7d</p>;\n"

def keptReport : Report := ⟨⟨1, 1, 1, 1⟩, true, true⟩

/-- The module can be read, nothing in it is generated, and of its elements one is annotated. -/
def keptReported : Bool :=
  match Module.parse keptSource with
  | .error _ => false
  | .ok m =>
    (m.nodes.all fun x => !x.isGenerated) &&
      decide ((annotate m keptSource "n.jsx" {}).report = keptReport)

set_option maxRecDepth 100000 in
theorem keptReported_eq : keptReported = true := by decide +kernel

/-- Of an element and another one inside of it with a `__source` of its own, the report counts the
first one with its text and its container, and keeps what the author gave to the second. -/
theorem annotate_isExact_kept : ∃ m, Module.parse keptSource = .ok m ∧
    (∀ x ∈ m.nodes, x.isGenerated = false) ∧
    (annotate m keptSource "n.jsx" {}).report = keptReport ∧
    (annotate m keptSource "n.jsx" {}).IsExact m "n.jsx" := by
  have hreported := keptReported_eq
  unfold keptReported at hreported
  split at hreported
  · cases hreported
  rename_i m hparse
  rw [Bool.and_eq_true, List.all_eq_true, decide_eq_true_eq] at hreported
  obtain ⟨hauthored, hreport⟩ := hreported
  have hm : ∀ x ∈ m.nodes, x.isGenerated = false := fun x hx => by simpa using hauthored x hx
  exact ⟨m, hparse, hm, hreport, annotate_isExact hm keptSource "n.jsx" {}⟩

end MarkupTrace.Annotate
