import MarkupTrace.Proofs.ReadableModules
import MarkupTrace.Proofs.RereadElements

/-!
# Printed modules are read back

Every statement is printed on a line of its own, up to a semicolon, and the statements of a block or a
module are read one line after the other. With that, every construct is read back if its parts are,
and by recursion over the tree the print of a whole module reads as the same module again.
-/

namespace MarkupTrace.Source

open Grammar Grammar.Parser

/-! ## Lines -/

/-- Spaces and line breaks. -/
def IsBlankText (b : List Char) : Prop := ∀ c ∈ b, c = ' ' ∨ c = '\n'

theorem isBlankText_append {a b : List Char} (ha : IsBlankText a) (hb : IsBlankText b) :
    IsBlankText (a ++ b) := List.forall_mem_append.mpr ⟨ha, hb⟩

theorem isBlankText_indentation (depth : Nat) : IsBlankText (indentation depth).toList := by
  intro c hc
  rw [indentation, String.toList_ofList] at hc
  exact .inl (List.eq_of_mem_replicate hc)

namespace Statement

/-- What stands on the line of a statement, between the indentation and the semicolon. -/
def line (depth : Nat) : Statement → String
  | .imports decl => decl.print
  | .const exported name value =>
    (if exported then "export " else "") ++ "const " ++ name ++ " = " ++ value.printAt depth
  | .returns value => "return " ++ value.printAt depth
  | .returnsNothing => "return"
  | .expr value => value.printAt depth

theorem printAt_eq (depth : Nat) (s : Statement) :
    s.printAt depth = indentation depth ++ s.line depth ++ ";\n" := by
  cases s with
  | returnsNothing =>
    rw [Statement.printAt, line, String.append_assoc]
    rfl
  | _ => simp only [Statement.printAt, line, String.append_assoc]

/-- The line of the statement is read by the parser, up to and with the semicolon. -/
def ReadBy (p : Parser Statement) (s : Statement) : Prop := ∀ depth r,
  Solid ((s.line depth).toList ++ ';' :: r) ∧
    p.Consumes ((s.line depth).toList ++ ';' :: r) r (·.Resembles s)

end Statement

/-- By induction on the statements. In the end a line break and the blanks behind it are left. -/
theorem statements_consume {p : Parser Statement} [Advances p] [Padded p] {ss : List Statement}
    (h : ∀ s ∈ ss, s.ReadBy p) (depth : Nat) {t u : List Char}
    (hskips : ∀ b, IsBlankText b → Skips (b ++ t) u) (hu : p.Refuses u) {b : List Char}
    (hb : IsBlankText b) : ∃ b', IsBlankText b' ∧
      p.many.Consumes (b ++ ((printStatements depth ss).toList ++ t)) (b' ++ t)
        (List.Forall₂ Statement.Resembles · ss) := by
  induction ss generalizing b with
  | nil =>
    refine ⟨b, hb, (hu.padded (hskips b hb)).many.mono ?_⟩
    rintro _ rfl
    exact .nil
  | cons s ss ih =>
    rw [List.forall_mem_cons] at h
    obtain ⟨b', hb', hrest⟩ := ih h.2 (b := ['\n']) fun c hc => .inr (List.mem_singleton.mp hc)
    have htext : b ++ ((printStatements depth (s :: ss)).toList ++ t) =
        (b ++ (indentation depth).toList) ++ ((s.line depth).toList ++
          ';' :: (['\n'] ++ ((printStatements depth ss).toList ++ t))) := by
      simp [printStatements, Statement.printAt_eq]
    obtain ⟨hsolid, hread⟩ := h.1 depth (['\n'] ++ ((printStatements depth ss).toList ++ t))
    rw [htext]
    refine ⟨b', hb', (((hread.padded (skips_append (isBlankText_append hb
      (isBlankText_indentation depth)) hsolid)).many_cons hrest)).mono ?_⟩
    rintro _ ⟨s', ss', rfl, hs, hss⟩
    exact .cons hs hss

/-! ## Statements -/

theorem isIdentifier_statementWord {w : String} (h : w ∈ statementWords) : IsIdentifier w := by
  simp only [statementWords, List.mem_cons, List.not_mem_nil, or_false] at h
  rcases h with rfl | rfl | rfl | rfl | rfl | rfl <;> exact ⟨_, _, rfl, rfl, List.all_eq_true.mp rfl⟩

/-- A statement word with a space behind it. -/
theorem statementWord_reads {w : String} (h : w ∈ statementWords) (s : List Char) :
    Solid (w.toList ++ ' ' :: s) ∧ (word w).Consumes (w.toList ++ ' ' :: s) (' ' :: s) fun _ => True :=
  ⟨solid_identifier (isIdentifier_statementWord h) (endsWord_space s),
    word_consumes (isIdentifier_statementWord h) (endsWord_space s)⟩

theorem ends_semicolon (r : List Char) : Ends (';' :: r) :=
  ends_of_character (k := .semicolon) (by decide) rfl r

theorem semicolon_consumes (r : List Char) : semicolon.Consumes (';' :: r) r fun _ => True :=
  (mark_consumes (k := .semicolon) rfl (by decide) r).optional.mono fun _ _ => trivial

/-- The word or words at the start of a declaration. -/
def introducer (exported : Bool) : String := (if exported then "export " else "") ++ "const"

theorem toList_introducer_true (s : List Char) : (introducer true).toList ++ ' ' :: s =
    "export".toList ++ ' ' :: ("const".toList ++ ' ' :: s) := by
  simp [introducer]

theorem introducer_consumes (exported : Bool) (s : List Char) :
    Solid ((introducer exported).toList ++ ' ' :: s) ∧
      ((word "export").optional.skip (((word "const").orElse (word "let")).orElse (word "var"))).Consumes
        ((introducer exported).toList ++ ' ' :: s) (' ' :: s) fun o => o.isSome = exported := by
  obtain ⟨hsolid, hconst⟩ := statementWord_reads (w := "const") (by decide) s
  have hintroducer : (((word "const").orElse (word "let")).orElse (word "var")).Consumes
      ("const".toList ++ ' ' :: s) (' ' :: s) fun _ => True :=
    (hconst.orElse_left _).orElse_left _
  cases exported with
  | false =>
    have hexport : (word "export").Refuses ("const".toList ++ ' ' :: s) :=
      word_refuses (isIdentifier_statementWord (by decide)) (endsWord_space s) (by decide)
    refine ⟨hsolid, (hexport.optional.skip hintroducer).mono ?_⟩
    rintro _ rfl
    rfl
  | true =>
    obtain ⟨hsolid', hexport⟩ := statementWord_reads (w := "export") (by decide)
      ("const".toList ++ ' ' :: s)
    rw [toList_introducer_true]
    refine ⟨hsolid', (hexport.optional.skip (hintroducer.padded hsolid.skips_space)).mono ?_⟩
    rintro _ ⟨_, rfl, -⟩
    rfl

theorem import_refuses_introducer (exported : Bool) (s : List Char) :
    (word "import").Refuses ((introducer exported).toList ++ ' ' :: s) := by
  cases exported with
  | false => exact word_refuses (isIdentifier_statementWord (by decide)) (endsWord_space _) (by decide)
  | true =>
    rw [toList_introducer_true]
    exact word_refuses (isIdentifier_statementWord (by decide)) (endsWord_space _) (by decide)

theorem toList_declaration (depth : Nat) (exported : Bool) (name : String) (value : Expr)
    (r : List Char) : ((Statement.const exported name value).line depth).toList ++ ';' :: r =
      (introducer exported).toList ++ ' ' :: (name.toList ++
        ' ' :: '=' :: ' ' :: ((value.printAt depth).toList ++ ';' :: r)) := by
  simp [Statement.line, introducer]

section

variable {value : Expr} (h : value.Rereads) (hproper : ∀ x ∈ value.nodes, x.Proper)
include h hproper

theorem Statement.readBy_declaration (exported : Bool) {name : String} (hname : IsName name) :
    (Statement.const exported name value).ReadBy (declaration expression) := by
  intro depth r
  obtain ⟨hsolid, hintroducer⟩ := introducer_consumes exported
    (name.toList ++ ' ' :: '=' :: ' ' :: ((value.printAt depth).toList ++ ';' :: r))
  have hword := endsWord_space ('=' :: ' ' :: ((value.printAt depth).toList ++ ';' :: r))
  have hequals : Solid ('=' :: ' ' :: ((value.printAt depth).toList ++ ';' :: r)) :=
    solid_cons (k := .equals) rfl (by decide)
  have hends := ends_semicolon r
  rw [toList_declaration]
  refine ⟨hsolid, .charged (.map (((((hintroducer.both ((name_consumes hname hword).padded
    (solid_identifier hname.1 hword).skips_space)).skip
      ((mark_equals_consumes (by decide) _).padded hequals.skips_space)).both
        ((h depth _ hends).padded (expr_opens value hproper depth hends.breaks).1.skips_space)).skip
          (semicolon_consumes r))) ?_) _⟩
  rintro ⟨⟨_, _⟩, value'⟩ ⟨⟨rfl, rfl⟩, hvalue⟩
  exact .const _ _ hvalue

theorem Statement.readBy_expression :
    (Statement.expr value).ReadBy (expressionStatement expression) := by
  intro depth r
  have hends := ends_semicolon r
  exact ⟨(expr_opens value hproper depth hends.breaks).1,
    .map ((h depth _ hends).skip (semicolon_consumes r)) fun e he => .expr he⟩

end

section

variable {value : Expr} (h : value.Rereads) (hproper : ∀ x ∈ value.nodes, x.Proper)
include h hproper

/-- An expression begins no other statement. -/
theorem Statement.readBy_of_refusals {p p' : Parser Statement}
    (hp : p.Starts fun t => t.kind = .identifier ∧ t.text ∈ statementWords)
    (hp' : p'.Starts fun t => t.kind = .identifier ∧ t.text ∈ statementWords) :
    (Statement.expr value).ReadBy ((p.orElse p').orElse (expressionStatement expression)) := by
  intro depth r
  obtain ⟨hsolid, hread⟩ := Statement.readBy_expression h hproper depth r
  have hfront := (expr_opens value hproper depth (ends_semicolon r).breaks).2
  have hnone := fun t ht hword => opens_not_statementWord value hproper (t := t) ht hword
  exact ⟨hsolid, .orElse_right hread ((hp.refuses hfront hnone).orElse (hp'.refuses hfront hnone))⟩

end

namespace Statement

theorem readBy_const {value : Expr} (h : value.Rereads) (hproper : ∀ x ∈ value.nodes, x.Proper)
    (exported : Bool) {name : String} (hname : IsName name) :
    (Statement.const exported name value).ReadBy (blockStatement expression) ∧
      (Statement.const exported name value).ReadBy statement := by
  have hread := readBy_declaration h hproper exported hname
  refine ⟨fun depth r => ⟨(hread depth r).1, .orElse_left ((hread depth r).2.orElse_left _) _⟩,
    fun depth r => ⟨(hread depth r).1, .orElse_left (.orElse_right (hread depth r).2 ?_) _⟩⟩
  rw [toList_declaration]
  exact (((((import_refuses_introducer exported _).both _).both _).both _).map _).charged _

theorem declaration_refuses_return {s : List Char} (hs : EndsWord s) :
    (declaration expression).Refuses ("return".toList ++ s) := by
  have hrefuses : ∀ w, w ≠ "return" → (word w).Refuses ("return".toList ++ s) := fun w hw =>
    word_refuses (isIdentifier_statementWord (by decide)) hs hw
  refine .charged (.map (.skip (.both (.skip (.both
    ((hrefuses "export" (by decide)).optional.reaches.refuses_skip fun r hr => ?_) _) _) _) _) _) _
  rw [hr]
  exact ((hrefuses "const" (by decide)).orElse (hrefuses "let" (by decide))).orElse
    (hrefuses "var" (by decide))

theorem readBy_returns {value : Expr} (h : value.Rereads) (hproper : ∀ x ∈ value.nodes, x.Proper) :
    (Statement.returns value).ReadBy (blockStatement expression) := by
  intro depth r
  have hends := ends_semicolon r
  have htext : ((Statement.returns value).line depth).toList ++ ';' :: r =
      "return".toList ++ ' ' :: ((value.printAt depth).toList ++ ';' :: r) := by
    simp [line]
  obtain ⟨hsolid, hreturn⟩ := statementWord_reads (w := "return") (by decide)
    ((value.printAt depth).toList ++ ';' :: r)
  rw [htext]
  refine ⟨hsolid, .orElse_left (.orElse_right (.map (((hreturn.before
    ((h depth _ hends).padded
      (expr_opens value hproper depth hends.breaks).1.skips_space).optional)).skip
        (semicolon_consumes r)) ?_) (declaration_refuses_return (endsWord_space _))) _⟩
  rintro _ ⟨e, rfl, he⟩
  exact .returns he

theorem readBy_returnsNothing : Statement.returnsNothing.ReadBy (blockStatement expression) := by
  intro depth r
  have hends := ends_semicolon r
  have hword := hends.breaks.endsWord
  have hreturn : IsIdentifier "return" := isIdentifier_statementWord (by decide)
  refine ⟨solid_identifier hreturn hword, .orElse_left (.orElse_right (.map
    (((word_consumes hreturn hword).before hends.expression_refuses.optional).skip
      (semicolon_consumes r)) ?_) (declaration_refuses_return hword)) _⟩
  rintro _ rfl
  exact .returnsNothing

theorem readBy_imports {decl : Import} (h : decl.Readable) (hq : Quotable decl.specifier) :
    (Statement.imports decl).ReadBy statement := by
  intro depth r
  obtain ⟨hsolid, hread⟩ := import_consumes h hq r
  refine ⟨hsolid, .orElse_left (.orElse_left (hread.mono ?_) _) _⟩
  rintro _ ⟨decl', rfl, hspecifier, hbindings⟩
  exact .imports hspecifier hbindings

end Statement

/-! ## Bodies -/

theorem toList_block (depth : Nat) (ss : List Statement) (s : List Char) :
    ((Body.block ss).printAt depth).toList ++ s = '\x7b' :: (['\n'] ++
      ((printStatements (depth + 1) ss).toList ++ ((indentation depth).toList ++ '\x7d' :: s))) := by
  simp [Body.printAt]

theorem Body.rereads_block {ss : List Statement}
    (h : ∀ s ∈ ss, s.ReadBy (blockStatement expression)) : (Body.block ss).Rereads := by
  intro depth s _
  have hbrace : Solid ('\x7d' :: s) := solid_of_character (k := .closeBrace) rfl (by decide) s
  have hskips : ∀ b, IsBlankText b →
      Skips (b ++ ((indentation depth).toList ++ '\x7d' :: s)) ('\x7d' :: s) := by
    intro b hb
    rw [← List.append_assoc]
    exact skips_append (isBlankText_append hb (isBlankText_indentation depth)) hbrace
  obtain ⟨b', hb', hmany⟩ := statements_consume h (depth + 1) hskips
    (blockStatement_refuses_mark (k := .closeBrace) rfl (by decide) s) (b := ['\n'])
    fun c hc => .inr (List.mem_singleton.mp hc)
  rw [toList_block]
  exact .orElse_left (.map (((mark_consumes (k := .openBrace) rfl (by decide) _).before hmany).skip
    ((mark_consumes (k := .closeBrace) rfl (by decide) s).padded (hskips b' hb')))
      fun ss' hss => .block hss) _

/-- What a printed body begins with. -/
theorem body_solid {b : Body} (h : ∀ x ∈ b.nodes, x.Proper) (depth : Nat) {s : List Char}
    (hs : Breaks s) : Solid ((b.printAt depth).toList ++ s) := by
  cases b with
  | block ss =>
    rw [toList_block]
    exact solid_of_character (k := .openBrace) rfl (by decide) _
  | result e =>
    rw [Body.nodes, List.forall_mem_cons] at h
    rw [Body.printAt]
    cases e.isObject with
    | true =>
      rw [show parenthesize true (e.printAt depth) = "(" ++ e.printAt depth ++ ")" from rfl,
        String.toList_append, String.toList_append, List.append_assoc, List.append_assoc]
      exact solid_of_character (k := .openParen) rfl (by decide) _
    | false => exact (expr_opens e h.2 depth hs).1

/-! ## The tree -/

/-- The statement is read back where it may stand. -/
def Statement.Rereads (s : Statement) : Prop :=
  (s.isImport = false → s.ReadBy (blockStatement expression)) ∧
    (s.isReturn = false → s.ReadBy statement)

theorem Statement.rereads_const {value : Expr} (h : value.Rereads)
    (hproper : ∀ x ∈ value.nodes, x.Proper) (exported : Bool) {name : String} (hname : IsName name) :
    (Statement.const exported name value).Rereads :=
  ⟨fun _ => (readBy_const h hproper exported hname).1,
    fun _ => (readBy_const h hproper exported hname).2⟩

theorem Statement.rereads_expr {value : Expr} (h : value.Rereads)
    (hproper : ∀ x ∈ value.nodes, x.Proper) : (Statement.expr value).Rereads :=
  ⟨fun _ => readBy_of_refusals h hproper declaration_starts returnStatement_starts,
    fun _ => readBy_of_refusals h hproper importStatement_starts declaration_starts⟩

theorem Expr.itemsReread {es : List Expr} (h : ∀ e ∈ es, e.Rereads ∧ ∀ x ∈ e.nodes, x.Proper) :
    Expr.ItemsReread es := fun depth e he s hs =>
  ⟨(expr_opens e (h e he).2 depth hs.breaks).1, (h e he).1 depth s hs⟩

theorem Expr.propertiesReread {ps : List Property}
    (h : ∀ p ∈ ps, p.Rereads ∧ ∀ x ∈ p.nodes, x.Proper) : Expr.PropertiesReread ps :=
  fun depth p hp s hs => ⟨(property_opens (h p hp).2 depth hs).1, (h p hp).1 depth s hs⟩

mutual

/-- Every construct is read back since its parts are. -/
theorem expr_isChain : (e : Expr) → (∀ x ∈ e.nodes, x.Proper) → e.IsChain
  | .text v, h => (Expr.isAtom_text (h _ (Expr.mem_nodes _)).1).isChain
  | .number n, h => by
    obtain ⟨⟨negative, rank, rfl⟩, hread⟩ := h _ (Expr.mem_nodes _)
    cases negative with
    | true => exact absurd rfl (hread rank)
    | false => exact (Expr.isAtom_number rank).isChain
  | .bool true, _ => (Expr.isAtom_word (w := "true") (by simp [fixedWords]) fun _ => rfl).isChain
  | .bool false, _ => (Expr.isAtom_word (w := "false") (by simp [fixedWords]) fun _ => rfl).isChain
  | .null, _ => (Expr.isAtom_word (w := "null") (by simp [fixedWords]) fun _ => rfl).isChain
  | .this, _ => (Expr.isAtom_word (w := "this") (by simp [fixedWords]) fun _ => rfl).isChain
  | .name n, h => (Expr.isAtom_name (h _ (Expr.mem_nodes _)).2).isChain
  | .member object p, h => by
    rw [Expr.nodes, List.forall_mem_cons] at h
    exact (expr_isChain object h.2).member h.1.2.1 h.1.2.2
  | .call callee arguments, h => by
    rw [Expr.nodes, List.forall_mem_cons, List.forall_mem_append] at h
    have hitems := Expr.itemsReread (items_reread arguments h.2.2)
    cases hcallee : callee.isArrow with
    | false => exact (expr_isChain callee h.2.1).call hcallee hitems
    | true => exact (expr_isChain callee h.2.1).rereads.call_arrow h.2.1 hcallee hitems
  | .arrow ps b, h => by
    rw [Expr.nodes, List.forall_mem_cons] at h
    exact (Expr.isAtom_arrow h.1.2 (body_rereads b h.2) fun depth s => body_solid h.2 depth).isChain
  | .object ps, h => by
    rw [Expr.nodes, List.forall_mem_cons] at h
    exact (Expr.propertiesReread (properties_reread ps h.2)).isAtom_object.isChain
  | .array items, h => by
    rw [Expr.nodes, List.forall_mem_cons] at h
    exact (Expr.itemsReread (items_reread items h.2)).isAtom_array.isChain
  | .paren inner, h => by
    rw [Expr.nodes, List.forall_mem_cons] at h
    exact ((expr_isChain inner h.2).rereads.isAtom_paren h.2).isChain
  | .markup x, h => by
    rw [Expr.nodes, List.forall_mem_cons] at h
    exact (Expr.isAtom_markup (element_rereads x h.2)).isChain
  | .location _, h => (h _ (Expr.mem_nodes _)).2.elim
  | .helper _, h => (h _ (Expr.mem_nodes _)).2.elim

theorem items_reread : (es : List Expr) → (∀ x ∈ nodesOfItems es, x.Proper) →
    ∀ e ∈ es, e.Rereads ∧ ∀ x ∈ e.nodes, x.Proper
  | [], _ => nofun
  | e :: es, h => by
    rw [nodesOfItems, List.forall_mem_append] at h
    exact List.forall_mem_cons.mpr ⟨⟨(expr_isChain e h.1).rereads, h.1⟩, items_reread es h.2⟩

theorem body_rereads : (b : Body) → (∀ x ∈ b.nodes, x.Proper) → b.Rereads
  | .result e, h => (expr_isChain e (by
      rw [Body.nodes, List.forall_mem_cons] at h
      exact h.2)).rereads.result h
  | .block ss, h => by
    rw [Body.nodes, List.forall_mem_cons] at h
    exact Body.rereads_block fun s hs => (statements_reread ss h.2 s hs).1 (h.1.2 s hs)

theorem properties_reread : (ps : List Property) → (∀ x ∈ nodesOfProperties ps, x.Proper) →
    ∀ p ∈ ps, p.Rereads ∧ ∀ x ∈ p.nodes, x.Proper
  | [], _ => nofun
  | p :: ps, h => by
    rw [nodesOfProperties, List.forall_mem_append] at h
    exact List.forall_mem_cons.mpr ⟨⟨property_rereads p h.1, h.1⟩, properties_reread ps h.2⟩

theorem property_rereads : (p : Property) → (∀ x ∈ p.nodes, x.Proper) → p.Rereads
  | .entry k v, h => by
    rw [Property.nodes, List.forall_mem_cons] at h
    exact Property.rereads_entry h.1.1 (expr_isChain v h.2).rereads h.2
  | .shorthand n, h => Property.rereads_shorthand (h _ (Property.mem_nodes _)).2
  | .spread v, h => by
    rw [Property.nodes, List.forall_mem_cons] at h
    exact Property.rereads_spread (expr_isChain v h.2).rereads

theorem element_rereads : (x : Element) → (∀ y ∈ x.nodes, y.Proper) → x.Rereads
  | .mk name as c span, h => by
    rw [Element.nodes, List.forall_mem_cons, List.forall_mem_append] at h
    have has := attributes_reread as h.2.1
    exact Element.rereads h.1.2 (fun a ha => (has a ha).2) (fun a ha => (has a ha).1)
      (content_rereads c h.2.2) span

theorem attributes_reread : (as : List Attribute) → (∀ x ∈ nodesOfAttributes as, x.Proper) →
    ∀ a ∈ as, a.Rereads ∧ a.Readable
  | [], _ => nofun
  | a :: as, h => by
    rw [nodesOfAttributes, List.forall_mem_append] at h
    exact List.forall_mem_cons.mpr ⟨attribute_rereads a h.1, attributes_reread as h.2⟩

theorem attribute_rereads : (a : Attribute) → (∀ x ∈ a.nodes, x.Proper) → a.Rereads ∧ a.Readable
  | .bare name, h => by
    rw [Attribute.nodes, List.forall_mem_singleton] at h
    exact ⟨Attribute.rereads_bare h.2, h.2⟩
  | .text name raw, h => by
    rw [Attribute.nodes, List.forall_mem_singleton] at h
    exact ⟨Attribute.rereads_text h.2.1 h.2.2, h.2⟩
  | .value name e, h => by
    rw [Attribute.nodes, List.forall_mem_cons] at h
    exact ⟨Attribute.rereads_value h.1.2 (expr_isChain e h.2).rereads, h.1.2⟩
  | .spread e, h => by
    rw [Attribute.nodes, List.forall_mem_cons] at h
    exact ⟨Attribute.rereads_spread (expr_isChain e h.2).rereads, h.1.2⟩

theorem content_rereads : (c : Content) → (∀ x ∈ c.nodes, x.Proper) → c.Rereads
  | .selfClosing, _ => Content.rereads_selfClosing
  | .children cs, h => by
    rw [Content.nodes, List.forall_mem_cons] at h
    exact Content.rereads_children (children_reread cs h.2) h.1.2

theorem children_reread : (cs : List Child) → (∀ x ∈ nodesOfChildren cs, x.Proper) →
    ∀ c ∈ cs, c.Rereads
  | [], _ => nofun
  | c :: cs, h => by
    rw [nodesOfChildren, List.forall_mem_append] at h
    exact List.forall_mem_cons.mpr ⟨child_rereads c h.1, children_reread cs h.2⟩

theorem child_rereads : (c : Child) → (∀ x ∈ c.nodes, x.Proper) → c.Rereads
  | .text t, h => by
    rw [Child.nodes, List.forall_mem_singleton] at h
    exact Child.rereads_text h.2.1 h.2.2
  | .container e span, h => by
    rw [Child.nodes, List.forall_mem_cons] at h
    exact Child.rereads_container (expr_isChain e h.2).rereads span
  | .emptyContainer span, _ => Child.rereads_emptyContainer span
  | .element x, h => by
    rw [Child.nodes, List.forall_mem_cons] at h
    exact Child.rereads_element (element_rereads x h.2)

theorem statements_reread : (ss : List Statement) → (∀ x ∈ nodesOfStatements ss, x.Proper) →
    ∀ s ∈ ss, s.Rereads
  | [], _ => nofun
  | s :: ss, h => by
    rw [nodesOfStatements, List.forall_mem_append] at h
    exact List.forall_mem_cons.mpr ⟨statement_rereads s h.1, statements_reread ss h.2⟩

theorem statement_rereads : (s : Statement) → (∀ x ∈ s.nodes, x.Proper) → s.Rereads
  | .imports decl, h => by
    rw [Statement.nodes, List.forall_mem_singleton] at h
    exact ⟨nofun, fun _ => Statement.readBy_imports h.2 h.1⟩
  | .const exported name value, h => by
    rw [Statement.nodes, List.forall_mem_cons] at h
    exact Statement.rereads_const (expr_isChain value h.2).rereads h.2 exported h.1.2
  | .returns value, h => by
    rw [Statement.nodes, List.forall_mem_cons] at h
    exact ⟨fun _ => Statement.readBy_returns (expr_isChain value h.2).rereads h.2, nofun⟩
  | .returnsNothing, _ => ⟨fun _ => Statement.readBy_returnsNothing, nofun⟩
  | .expr value, h => by
    rw [Statement.nodes, List.forall_mem_cons] at h
    exact Statement.rereads_expr (expr_isChain value h.2).rereads h.2

end

end MarkupTrace.Source
