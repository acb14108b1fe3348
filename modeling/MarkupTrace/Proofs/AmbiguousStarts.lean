import MarkupTrace.Proofs.PrintedLists

/-!
# How printed expressions begin

A printed expression begins with the first token of its atom, which is none that a statement begins
with. Where an identifier stands before a colon or a comma, nothing but the identifier is read.
-/

namespace MarkupTrace.Source

/-- Nothing stands in the way of reading the print of the node. -/
def Node.Proper (x : Node) : Prop := x.Printable ∧ x.Readable

theorem Expr.mem_nodes (e : Expr) : .expr e ∈ e.nodes := by
  cases e <;> exact List.mem_cons_self

theorem Property.mem_nodes (p : Property) : .property p ∈ p.nodes := by
  cases p <;> exact List.mem_cons_self

/-- The first token of a printed expression. -/
def Expr.Opens : Expr → Token → Prop
  | .text _, t => t.kind = .doubleQuote
  | .number _, t => t.kind = .number
  | .bool _, t | .null, t | .this, t => t.kind = .identifier ∧ t.text ∈ Grammar.literalWords
  | .name _, t => t.kind = .identifier ∧ isReserved t.text = false
  | .arrow _ _, t | .paren _, t => t.kind = .openParen
  | .object _, t => t.kind = .openBrace
  | .array _, t => t.kind = .openBracket
  | .markup _, t => t.kind = .less
  | .member inner _, t => inner.Opens t
  | .call callee _, t => callee.Opens t
  | .location _, _ | .helper _, _ => True

end MarkupTrace.Source

namespace MarkupTrace.Source.Grammar

open Text Grammar.Parser

/-! ## The texts of chains -/

theorem toList_member (depth : Nat) (object : Expr) (p : String) (s : List Char) :
    ((Expr.member object p).printAt depth).toList ++ s =
      (object.printAt depth).toList ++ '.' :: (p.toList ++ s) := by
  simp [Expr.printAt]

/-- What stands between the parentheses of a call. -/
def argumentText (depth : Nat) (es : List Expr) : List Char :=
  joined (fun e => (e.printAt depth).toList) es

theorem toList_call {callee : Expr} (h : callee.isArrow = false) (depth : Nat)
    (arguments : List Expr) (s : List Char) :
    ((Expr.call callee arguments).printAt depth).toList ++ s =
      (callee.printAt depth).toList ++ '(' :: (argumentText depth arguments ++ ')' :: s) := by
  simp [Expr.printAt, h, parenthesize, toList_printItems, argumentText]

theorem toList_call_arrow {callee : Expr} (h : callee.isArrow = true) (depth : Nat)
    (arguments : List Expr) (s : List Char) :
    ((Expr.call callee arguments).printAt depth).toList ++ s =
      '(' :: ((callee.printAt depth).toList ++
        ')' :: '(' :: (argumentText depth arguments ++ ')' :: s)) := by
  simp [Expr.printAt, h, parenthesize, toList_printItems, argumentText]

theorem extends_member {p : String} (h : IsIdentifier p) (s : List Char) :
    Extends ('.' :: (p.toList ++ s)) := by
  obtain ⟨c, cs, hp, hc, -⟩ := h
  exact .inl ⟨c, cs ++ s, by rw [hp, List.cons_append], hc⟩

theorem extends_call (s : List Char) : Extends ('(' :: s) := .inr ⟨s, rfl⟩

theorem toList_arrow (depth : Nat) (ps : List Param) (b : Body) (s : List Char) :
    ((Expr.arrow ps b).printAt depth).toList ++ s =
      (printParams ps).toList ++ ' ' :: '=' :: '>' :: ' ' :: ((b.printAt depth).toList ++ s) := by
  simp [Expr.printAt]

theorem toList_paren (depth : Nat) (e : Expr) (s : List Char) :
    ((Expr.paren e).printAt depth).toList ++ s = '(' :: ((e.printAt depth).toList ++ ')' :: s) := by
  simp [Expr.printAt]

theorem toList_array (depth : Nat) (es : List Expr) (s : List Char) :
    ((Expr.array es).printAt depth).toList ++ s = '[' :: (argumentText depth es ++ ']' :: s) := by
  simp [Expr.printAt, toList_printItems, argumentText]

theorem toList_object (depth : Nat) {ps : List Property} (hne : ps ≠ []) (s : List Char) :
    ((Expr.object ps).printAt depth).toList ++ s = '\x7b' :: ' ' ::
      (joined (fun p => (p.printAt depth).toList) ps ++ ' ' :: '\x7d' :: s) := by
  cases ps with
  | nil => exact absurd rfl hne
  | cons p ps => simp [Expr.printAt, toList_printProperties]

theorem toList_object_nil (depth : Nat) (s : List Char) :
    ((Expr.object []).printAt depth).toList ++ s = '\x7b' :: '\x7d' :: s := by
  simp [Expr.printAt]

theorem exists_toList_printParams (ps : List Param) (s : List Char) :
    ∃ rest, (printParams ps).toList ++ s = '(' :: rest := by
  unfold printParams
  exact ⟨_, by rw [String.toList_append, String.toList_append]; rfl⟩

theorem exists_toList_element (depth : Nat) (x : Element) (s : List Char) :
    ∃ rest, (x.printAt depth).toList ++ s = '<' :: rest := by
  obtain ⟨name, attributes, content, span⟩ := x
  rw [Element.printAt, String.append_assoc, String.append_assoc, String.toList_append,
    List.append_assoc]
  exact ⟨_, rfl⟩

/-! ## First tokens of printed expressions -/

theorem literalWord_opens {w : String} (hw : w ∈ literalWords) {s : List Char} (hs : EndsWord s) :
    IsIdentifier w ∧ Solid (w.toList ++ s) ∧
      Front (w.toList ++ s) fun t => t.kind = .identifier ∧ t.text ∈ literalWords := by
  have hword : IsIdentifier w := by
    simp only [literalWords, List.mem_cons, List.not_mem_nil, or_false] at hw
    rcases hw with rfl | rfl | rfl | rfl <;> exact ⟨_, _, rfl, rfl, List.all_eq_true.mp rfl⟩
  exact ⟨hword, solid_identifier hword hs,
    (front_identifier hword hs).mono fun t ht => ⟨ht.1, ht.2 ▸ hw⟩⟩

theorem opens_character {k : Kind} {c : Char} (h : k.character? = some c) (hk : k ≠ .slash)
    (s : List Char) : Solid (c :: s) ∧ Front (c :: s) fun t => t.kind = k :=
  ⟨solid_of_character h hk s, front_character h hk s⟩

/-- By recursion along members and calls. -/
theorem expr_opens : (e : Expr) → (∀ x ∈ e.nodes, x.Proper) → (depth : Nat) → {s : List Char} →
    Breaks s → Solid ((e.printAt depth).toList ++ s) ∧
      Front ((e.printAt depth).toList ++ s) e.Opens
  | .text v, _, _, s, _ => ⟨solid_string v s, front_string v s⟩
  | .number n, h, _, s, hs => by
    obtain ⟨⟨negative, rank, rfl⟩, hread⟩ := h _ (Expr.mem_nodes _)
    cases negative with
    | true => exact absurd rfl (hread rank)
    | false => exact front_number rank hs.endsNumber
  | .bool b, _, _, s, hs => by
    cases b with
    | true => exact (literalWord_opens (w := "true") (by decide) hs.endsWord).2
    | false => exact (literalWord_opens (w := "false") (by decide) hs.endsWord).2
  | .null, _, _, s, hs => (literalWord_opens (w := "null") (by decide) hs.endsWord).2
  | .this, _, _, s, hs => (literalWord_opens (w := "this") (by decide) hs.endsWord).2
  | .name n, h, _, s, hs => by
    have hn : IsName n := (h _ (Expr.mem_nodes _)).2
    exact ⟨solid_identifier hn.1 hs.endsWord,
      (front_identifier hn.1 hs.endsWord).mono fun t ht => ⟨ht.1, ht.2 ▸ hn.2⟩⟩
  | .member object p, h, depth, s, hs => by
    rw [Expr.nodes, List.forall_mem_cons] at h
    rw [toList_member]
    exact expr_opens object h.2 depth ((extends_member h.1.2.1 s).breaks)
  | .call callee arguments, h, depth, s, hs => by
    rw [Expr.nodes, List.forall_mem_cons, List.forall_mem_append] at h
    cases hcallee : callee.isArrow with
    | false =>
      rw [toList_call hcallee]
      exact expr_opens callee h.2.1 depth (extends_call _).breaks
    | true =>
      rw [toList_call_arrow hcallee]
      cases callee <;> cases hcallee
      exact opens_character (k := .openParen) rfl (by decide) _
  | .arrow ps b, _, depth, s, _ => by
    rw [toList_arrow]
    obtain ⟨rest, hrest⟩ := exists_toList_printParams ps
      (' ' :: '=' :: '>' :: ' ' :: ((b.printAt depth).toList ++ s))
    rw [hrest]
    exact opens_character (k := .openParen) rfl (by decide) _
  | .object [], _, depth, s, _ => by
    rw [toList_object_nil]
    exact opens_character (k := .openBrace) rfl (by decide) _
  | .object (p :: ps), _, depth, s, _ => by
    rw [toList_object depth (List.cons_ne_nil p ps)]
    exact opens_character (k := .openBrace) rfl (by decide) _
  | .array es, _, depth, s, _ => by
    rw [toList_array]
    exact opens_character (k := .openBracket) rfl (by decide) _
  | .paren e, _, depth, s, _ => by
    rw [toList_paren]
    exact opens_character (k := .openParen) rfl (by decide) _
  | .markup x, _, depth, s, _ => by
    obtain ⟨rest, hrest⟩ := exists_toList_element depth x s
    rw [Expr.printAt, hrest]
    exact opens_character (k := .less) rfl (by decide) _
  | .location _, h, _, _, _ => (h _ (Expr.mem_nodes _)).2.elim
  | .helper _, h, _, _, _ => (h _ (Expr.mem_nodes _)).2.elim

theorem opens_openingKind : (e : Expr) → (∀ x ∈ e.nodes, x.Proper) → {t : Token} → e.Opens t →
    t.kind ∈ openingKinds
  | .text _, _, t, h | .number _, _, t, h | .arrow _ _, _, t, h | .paren _, _, t, h
  | .object _, _, t, h | .array _, _, t, h | .markup _, _, t, h => by
    rw [show t.kind = _ from h]
    decide
  | .bool _, _, t, h | .null, _, t, h | .this, _, t, h | .name _, _, t, h => by
    rw [h.1]
    decide
  | .member object _, hn, t, h => by
    rw [Expr.nodes, List.forall_mem_cons] at hn
    exact opens_openingKind object hn.2 h
  | .call callee _, hn, t, h => by
    rw [Expr.nodes, List.forall_mem_cons, List.forall_mem_append] at hn
    exact opens_openingKind callee hn.2.1 h
  | .location _, hn, _, _ => (hn _ (Expr.mem_nodes _)).2.elim
  | .helper _, hn, _, _ => (hn _ (Expr.mem_nodes _)).2.elim

/-- A printed expression begins with a token that no statement begins with. -/
theorem opens_not_statementWord : (e : Expr) → (∀ x ∈ e.nodes, x.Proper) → {t : Token} →
    e.Opens t → ¬ (t.kind = .identifier ∧ t.text ∈ statementWords)
  | .text _, _, t, h => fun ht => by cases h.symm.trans ht.1
  | .number _, _, t, h => fun ht => by cases h.symm.trans ht.1
  | .bool _, _, t, h | .null, _, t, h | .this, _, t, h => fun ht => by
    have hor := h.2
    have hnot := ht.2
    generalize t.text = w at hor hnot
    simp only [literalWords, List.mem_cons, List.not_mem_nil, or_false] at hor
    rcases hor with rfl | rfl | rfl | rfl <;> revert hnot <;> decide
  | .name _, _, t, h => fun ht => by
    have hreserved := h.2
    have hmem := ht.2
    generalize t.text = w at hreserved hmem
    simp only [statementWords, List.mem_cons, List.not_mem_nil, or_false] at hmem
    rcases hmem with rfl | rfl | rfl | rfl | rfl | rfl <;> cases hreserved
  | .arrow _ _, _, t, h | .paren _, _, t, h | .object _, _, t, h | .array _, _, t, h
  | .markup _, _, t, h => fun ht => by cases h.symm.trans ht.1
  | .member object _, hn, t, h => by
    rw [Expr.nodes, List.forall_mem_cons] at hn
    exact opens_not_statementWord object hn.2 h
  | .call callee _, hn, t, h => by
    rw [Expr.nodes, List.forall_mem_cons, List.forall_mem_append] at hn
    exact opens_not_statementWord callee hn.2.1 h
  | .location _, hn, _, _ => (hn _ (Expr.mem_nodes _)).2.elim
  | .helper _, hn, _, _ => (hn _ (Expr.mem_nodes _)).2.elim

/-! ## Identifiers before a colon or a comma -/

theorem toList_entry (depth : Nat) (k : String) (v : Expr) (s : List Char) :
    ((Property.entry k v).printAt depth).toList ++ s =
      k.toList ++ ':' :: ' ' :: ((v.printAt depth).toList ++ s) := by
  simp [Property.printAt]

theorem endsWord_colon (s : List Char) : EndsWord (':' :: s) := by
  rintro c ⟨⟩
  rfl

theorem toList_spread (depth : Nat) (v : Expr) (s : List Char) :
    ((Property.spread v).printAt depth).toList ++ s =
      '.' :: '.' :: '.' :: ((v.printAt depth).toList ++ s) := by
  simp [Property.printAt]

/-- Whatever word is asked for, just the identifier is read. -/
theorem identifier_reaches {α : Type} (accept : Token → Option α) {k : String} (hk : IsIdentifier k)
    {s : List Char} (hs : EndsWord s) :
    (trivia.before (single accept)).Reaches (k.toList ++ s) (· = s) := by
  have hsolid := solid_identifier hk hs
  obtain ⟨c, cs, hchars, hlexeme, -⟩ := exists_lexeme_identifier hk hs
  rw [hchars] at hsolid ⊢
  refine hsolid.skips.reaches.before fun r hr => ?_
  rw [hr]
  exact single_reaches hlexeme

theorem literal_reaches {k : String} (hk : IsIdentifier k) {s : List Char} (hs : EndsWord s) :
    literal.Reaches (k.toList ++ s) (· = s) := by
  have hsolid := solid_identifier hk hs
  obtain ⟨c, cs, hchars, hlexeme, -⟩ := exists_lexeme_identifier hk hs
  rw [hchars] at hsolid ⊢
  refine hsolid.skips.reaches.before fun r hr => ?_
  rw [hr]
  have hstring : (Grammar.string.map fun s => Expr.text s.1).Refuses (c :: (cs ++ s)) := by
    refine (string_takes.map _).refuses fun t ht h => ?_
    rw [ht, hlexeme] at h
    rcases h with h | h <;> cases h
  have hsingle : ∀ {α : Type} (accept : Token → Option α),
      (single accept).Reaches (c :: (cs ++ s)) (· = s) := fun _ => single_reaches hlexeme
  refine .firstOf ?_
  simp only [List.forall_mem_cons, List.not_mem_nil, false_imp_iff, implies_true, and_true]
  exact ⟨hstring.reaches _, (hsingle _).map _, (hsingle _).map _, (hsingle _).map _,
    (hsingle _).map _, (hsingle _).map _⟩

theorem params_reach {k : String} (hk : IsIdentifier k) {s : List Char} (hs : EndsWord s) :
    params.Reaches (k.toList ++ s) (· = s) := by
  have hlisted : (listed .openParen .closeParen param).Refuses (k.toList ++ s) :=
    (listed_starts _ _ _).refuses (front_identifier hk hs) fun _ ht h => nomatch ht.1.symm.trans h
  exact .orElse (hlisted.reaches _) ((identifier_reaches _ hk hs).map _)

section

variable {k : String} (hk : IsIdentifier k) {s : List Char} (hs : EndsWord s)
  (hfront : Front s fun t => t.kind = .colon ∨ t.kind = .comma)
include hk hs hfront

theorem atom_reaches_behind_identifier : (atom expression).Reaches (k.toList ++ s) (· = s) := by
  have hword : Front (k.toList ++ s) fun t => t.kind = .identifier :=
    (front_identifier hk hs).mono fun _ => And.left
  have hother : ∀ {α : Type} {p : Parser α} {j : Kind}, p.Starts (fun t => t.kind = j) →
      j ≠ .identifier → p.Reaches (k.toList ++ s) (· = s) := by
    intro α p j hp hj
    exact (hp.refuses hword fun t ht h => hj (h.symm.trans ht)).reaches _
  have harrow : (arrow expression).Refuses (k.toList ++ s) := by
    refine (((params_reach hk hs).refuses_skip fun r hr => ?_).both _).map _
    rw [hr]
    refine (mark_starts _).refuses hfront fun t ht h => ?_
    rw [h] at ht
    rcases ht with ht | ht <;> cases ht
  refine .firstOf ?_
  simp only [List.forall_mem_cons, List.not_mem_nil, false_imp_iff, implies_true, and_true]
  exact ⟨harrow.reaches _, hother paren_starts nofun, literal_reaches hk hs, hother markup_starts nofun,
    hother array_starts nofun, hother object_starts nofun, (identifier_reaches _ hk hs).map _⟩

theorem expression_reaches_behind_identifier : expression.Reaches (k.toList ++ s) (· = s) := by
  have hstep : (chainStep expression).Refuses s := by
    refine chainStep_starts.refuses hfront fun t ht h => ?_
    rcases h with h | h <;> rw [h] at ht <;> rcases ht with ht | ht <;> cases ht
  rw [expression_eq]
  refine .charged (.map (.both (atom_reaches_behind_identifier hk hs hfront) fun r hr => ?_) _) _
  rw [hr]
  exact hstep.many.reaches

theorem blockStatement_reaches_behind_identifier :
    (blockStatement expression).Reaches (k.toList ++ s) (· = s) := by
  have hmark : ∀ j, j ≠ .colon → j ≠ .comma → (mark j).Refuses s := by
    intro j hcolon hcomma
    refine (mark_starts j).refuses hfront fun t ht h => ?_
    rw [h] at ht
    exact ht.elim hcolon hcomma
  have hword : ∀ w, (word w).Refuses s := by
    intro w
    refine (word_starts w).refuses hfront fun t ht h => ?_
    rw [(isWord_of_mem (l := [w]) List.mem_cons_self h).1] at ht
    rcases ht with ht | ht <;> cases ht
  have hread : ∀ w, (word w).Reaches (k.toList ++ s) (· = s) := fun w => identifier_reaches _ hk hs
  have hsemicolon : semicolon.Reaches s (· = s) :=
    (hmark .semicolon nofun nofun).optional.reaches
  have hname : name.Refuses s := by
    refine name_starts.refuses hfront fun t ht h => ?_
    rw [h.1] at ht
    rcases ht with ht | ht <;> cases ht
  have hexpression : expression.Refuses s := by
    refine expression_starts.refuses hfront fun t ht h => ?_
    rcases ht with ht | ht <;> rw [ht] at h <;> exact absurd h (by decide)
  have hdeclaration : (declaration expression).Refuses (k.toList ++ s) := by
    have hintroducer : ((word "export").optional.skip
        (((word "const").orElse (word "let")).orElse (word "var"))).Reaches (k.toList ++ s) (· = s) := by
      refine .skip (hread _).optional fun r hr => ?_
      rcases hr with rfl | rfl
      · exact .orElse (.orElse (hread _) (hread _)) (hread _)
      · exact (((hword _).orElse (hword _)).orElse (hword _)).reaches _
    refine .charged (.map (.skip (.both (.skip (hintroducer.refuses_both fun r hr => ?_) _) _) _) _) _
    rw [hr]
    exact hname
  have hreturn : ((word "return").before expression.optional).Reaches (k.toList ++ s) (· = s) := by
    refine (hread _).before fun r hr => ?_
    rw [hr]
    exact hexpression.optional.reaches
  refine .orElse (.orElse (hdeclaration.reaches _) (.map (hreturn.skip fun r hr => ?_) _))
    (.map ((expression_reaches_behind_identifier hk hs hfront).skip fun r hr => ?_) _)
  · rw [hr]
    exact hsemicolon
  · rw [hr]
    exact hsemicolon

end

end MarkupTrace.Source.Grammar
