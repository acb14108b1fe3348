import MarkupTrace.Proofs.MovedTokens

/-!
# The grammar and line endings

The tree read from a text whose line feeds some carriage returns precede, once recast with line feeds
only and with spans as they are there, is the tree read from the text with line feeds only.
-/

namespace MarkupTrace.Source

open Text

/-- Line feeds for pairs in raw texts, and spans moved. -/
def relined (n : Nat → Nat) : Recasting := ⟨moveSpan n, withLineFeeds, .paren⟩

namespace Grammar

open Grammar.Parser Grammar.Parser.Keeps

variable {n : Nat → Nat} {α β : Type}

/-! ## Tokens -/

/-- A token and the same one moved. -/
def IsMoved (n : Nat → Nat) (u t : Token) : Prop := u = t.moved n ∧ t.Regular

theorem keeps_accepted {accept : Token → Bool}
    (h : ∀ t, t.Regular → accept (t.moved n) = accept t) :
    Keeps n (fun u t => IsMoved n u t ∧ accept t = true) (satisfy accept) := by
  refine single fun t ht => ?_
  rw [h t ht]
  split
  · rename_i haccept
    exact .some ⟨⟨rfl, ht⟩, haccept⟩
  · exact .none

theorem keeps_satisfy {accept : Token → Bool}
    (h : ∀ t, t.Regular → accept (t.moved n) = accept t) : Keeps n (IsMoved n) (satisfy accept) :=
  (keeps_accepted h).mono fun _ _ h => h.1

theorem keeps_token (k : Kind) : Keeps n (IsMoved n) (token k) := keeps_satisfy fun _ _ => rfl

/-- A token told by its kind and, unless it is a line break, by its text. -/
theorem keeps_single {accept : Token → Option α}
    (h : ∀ t u : Token, t.kind = u.kind → (u.kind ≠ .newline → t.text = u.text) →
      accept t = accept u) : Keeps n Eq (Parser.single accept) := by
  refine single fun t ht => ?_
  rw [h (t.moved n) t rfl fun hkind => ht.text_moved hkind n]
  cases accept t with
  | none => exact .none
  | some a => exact .some rfl

theorem keeps_word (w : String) : Keeps n (IsMoved n) (satisfy (Token.isWord w)) := by
  refine keeps_satisfy fun t ht => ?_
  unfold Token.isWord
  by_cases hkind : t.kind = .identifier
  · rw [ht.text_moved (by rw [hkind]; decide)]
    rfl
  · have hno : ∀ s, (t.kind == .identifier && s == w) = false := by simp [hkind]
    exact (hno _).trans (hno _).symm

/-- A token that is no line break has the same text. -/
theorem IsMoved.text {u t : Token} (h : IsMoved n u t) (hkind : t.kind ≠ .newline) :
    u.text = t.text := by
  obtain ⟨rfl, ht⟩ := h
  exact ht.text_moved hkind n

theorem IsMoved.kind {u t : Token} (h : IsMoved n u t) : u.kind = t.kind := by rw [h.1]; rfl

theorem IsMoved.span {u t : Token} (h : IsMoved n u t) : u.span = moveSpan n t.span := by
  rw [h.1]
  rfl

theorem map_text_moved {us ts : List Token} (h : List.Forall₂ (IsMoved n) us ts) :
    String.join (us.map Token.text) = withLineFeeds (String.join (ts.map Token.text)) := by
  rw [← String.toList_inj, toList_withLineFeeds]
  induction h with
  | nil => rfl
  | @cons u t us ts hut _ ih =>
    obtain ⟨rfl, ht⟩ := hut
    rw [List.map_cons, List.map_cons, String.join_cons, String.join_cons, String.toList_append,
      String.toList_append, ih, lineFeeds_append]
    · rw [Token.moved, toList_withLineFeeds]
    · intro hlast
      exact absurd hlast ht.ends

/-! ## Words, names and strings -/

theorem keeps_trivia : Keeps n (fun _ _ => True) trivia := by
  have hblank : Keeps n (fun _ _ => True) ((satisfy Token.isBlank).map fun _ => ()) :=
    (keeps_satisfy fun _ _ => rfl).map fun _ _ _ => trivial
  have hline : Keeps n (fun _ _ => True) lineComment := by
    have hrest : Keeps n (IsMoved n) (satisfy fun t => t.kind != .newline) :=
      keeps_satisfy fun _ _ => rfl
    exact (((keeps_token _).both (keeps_token _)).both hrest.many).map fun _ _ _ => trivial
  have hblock : Keeps n (fun _ _ => True) blockComment := by
    have hend : Keeps n _ ((token .star).both (token .slash)) := (keeps_token _).both (keeps_token _)
    exact (((keeps_token _).both (keeps_token _)).both hend.through).map fun _ _ _ => trivial
  exact ((hblank.orElse hline).orElse hblock).many.map fun _ _ _ => trivial

theorem keeps_mark (k : Kind) : Keeps n (IsMoved n) (mark k) := keeps_trivia.before (keeps_token k)

theorem keeps_wordMark (w : String) : Keeps n (IsMoved n) (word w) :=
  keeps_trivia.before (keeps_word w)

theorem keeps_name : Keeps n Eq name := by
  refine keeps_trivia.before (keeps_single ?_)
  intro t u hkind htext
  rw [hkind]
  by_cases hu : u.kind = .identifier
  · rw [htext (by rw [hu]; decide)]
  · rw [if_neg (fun h => hu h.1), if_neg (fun h => hu h.1)]

theorem keeps_anyName : Keeps n Eq anyName := by
  refine keeps_trivia.before (keeps_single ?_)
  intro t u hkind htext
  rw [hkind]
  by_cases hu : u.kind = .identifier
  · rw [htext (by rw [hu]; decide)]
  · rw [if_neg hu, if_neg hu]

theorem keeps_number : Keeps n Eq number := by
  refine keeps_single ?_
  intro t u hkind htext
  rw [hkind]
  by_cases hu : u.kind = .number
  · rw [htext (by rw [hu]; decide)]
  · rw [if_neg hu, if_neg hu]

theorem keeps_quotedBy (quote : Kind) :
    Keeps n (fun y x => y.1 = x.1 ∧ y.2 = moveSpan n x.2) (quotedBy quote) := by
  have hescaped : Keeps n Eq escaped := by
    have hany : Keeps n (fun u t => IsMoved n u t ∧ (t.kind != .newline) = true)
        (satisfy fun t => t.kind != .newline) := keeps_accepted fun _ _ => rfl
    refine ((keeps_token .backslash).before hany).map ?_
    rintro u t ⟨hut, haccept⟩
    rw [hut.text (by simpa using haccept)]
  have hplain : Keeps n Eq ((satisfy fun t =>
      t.kind != quote && t.kind != .backslash && t.kind != .newline).map Token.text) := by
    have hany : Keeps n (fun u t => IsMoved n u t ∧
          (t.kind != quote && t.kind != .backslash && t.kind != .newline) = true)
        (satisfy fun t => t.kind != quote && t.kind != .backslash && t.kind != .newline) :=
      keeps_accepted fun _ _ => rfl
    refine hany.map ?_
    rintro u t ⟨hut, haccept⟩
    simp only [Bool.and_eq_true, bne_iff_ne] at haccept
    exact hut.text haccept.2
  refine (((keeps_token quote).both (hescaped.orElse hplain).many).both (keeps_token quote)).map ?_
  rintro ⟨⟨first, parts⟩, last⟩ ⟨⟨first', parts'⟩, last'⟩ ⟨⟨hfirst, hparts⟩, hlast⟩
  dsimp only at hfirst hparts hlast ⊢
  rw [List.forall₂_eq_eq_eq] at hparts
  rw [hparts, hfirst.span, hlast.span]
  exact ⟨rfl, rfl⟩

theorem keeps_string : Keeps n (fun y x => y.1 = x.1 ∧ y.2 = moveSpan n x.2) Grammar.string :=
  (keeps_quotedBy _).orElse (keeps_quotedBy _)

theorem keeps_rawString : Keeps n (fun y x => y = withLineFeeds x) rawString := by
  have hby : ∀ quote, Keeps n (fun y x => y = withLineFeeds x) (rawBy quote) := by
    intro quote
    have hinside : Keeps n (IsMoved n) (satisfy fun t => t.kind != quote) :=
      keeps_satisfy fun _ _ => rfl
    refine (((keeps_token quote).before hinside.many).skip (keeps_token quote)).map ?_
    intro us ts h
    exact map_text_moved h
  exact (hby _).orElse (hby _)

theorem keeps_markupName : Keeps n Eq markupName := by
  have hhead : Keeps n Eq (Parser.single fun t =>
      if t.kind = .identifier then some t.text else none) := by
    refine keeps_single ?_
    intro t u hkind htext
    rw [hkind]
    by_cases hu : u.kind = .identifier
    · rw [htext (by rw [hu]; decide)]
    · rw [if_neg hu, if_neg hu]
  have hjoint : Keeps n Eq (Parser.single fun t =>
      if t.kind = .dot ∨ (t.kind = .punctuation ∧ t.text = "-") then some t.text else none) := by
    refine keeps_single ?_
    intro t u hkind htext
    rw [hkind]
    by_cases hu : u.kind = .newline
    · rw [hu]
      simp
    · rw [htext hu]
  have hsegment : Keeps n Eq (Parser.single fun t =>
      if t.kind = .identifier ∨ t.kind = .number then some t.text else none) := by
    refine keeps_single ?_
    intro t u hkind htext
    rw [hkind]
    by_cases hu : u.kind = .newline
    · rw [hu]
      simp
    · rw [htext hu]
  refine (hhead.both (hjoint.both hsegment).many).map ?_
  rintro ⟨first, rest⟩ ⟨first', rest'⟩ ⟨hfirst, hrest⟩
  dsimp only at hfirst hrest ⊢
  have hsame : rest = rest' := by
    rw [← List.forall₂_eq_eq_eq]
    exact hrest.imp fun _ _ h => Prod.ext h.1 h.2
  rw [hfirst, hsame]

/-! ## Elements -/

/-- A value and the same one recast. -/
def IsRelined (n : Nat → Nat) (recast : Recasting → α → α) (b a : α) : Prop :=
  b = recast (relined n) a

theorem eq_map_of_forall₂ {f : α → β} {bs : List β} {as : List α}
    (h : List.Forall₂ (fun b a => b = f a) bs as) : bs = as.map f := by
  induction h with
  | nil => rfl
  | cons hba _ ih => rw [hba, ih, List.map_cons]

theorem spanOf_moved {us ts : List Token} (h : List.Forall₂ (IsMoved n) us ts) (hts : ts ≠ []) :
    spanOf us = moveSpan n (spanOf ts) := by
  have hlast : us.getLast?.map (·.span.stop) = (ts.getLast?.map (·.span.stop)).map n := by
    induction h with
    | nil => rfl
    | @cons u t us ts hut hrest ih =>
      cases hrest with
      | nil => simp [hut.span, moveSpan]
      | cons hut' hrest' =>
        rw [List.getLast?_cons_cons, List.getLast?_cons_cons]
        exact ih (List.cons_ne_nil _ _)
  cases h with
  | nil => exact absurd rfl hts
  | @cons u t us ts hut hrest =>
    unfold spanOf
    rw [hlast]
    cases hstop : ((t :: ts).getLast?.map (·.span.stop)) <;> simp [hut.span, moveSpan]

section

variable {expr : Parser Expr} {element : Parser Element} (hexpr : Keeps n (IsRelined n Expr.recast) expr)
  (helement : Keeps n (IsRelined n Element.recast) element)

include hexpr

theorem keeps_attributeValue : Keeps n
    (fun f' f => ∀ name, f' name = (f name).recast (relined n)) (attributeValue expr) := by
  refine ((keeps_trivia.before keeps_rawString).map ?_).orElse
    ((((keeps_mark _).before hexpr).skip (keeps_mark _)).map ?_)
  · rintro _ raw rfl name
    rw [Attribute.recast]
    rfl
  · rintro _ e rfl name
    rw [Attribute.recast]

theorem keeps_tagAttribute : Keeps n (IsRelined n Attribute.recast) (tagAttribute expr) := by
  refine (((((keeps_mark _).before (keeps_mark _)).before hexpr).skip (keeps_mark _)).map ?_).orElse
    (((keeps_trivia.before keeps_markupName).both
      ((keeps_mark _).before (keeps_attributeValue hexpr)).optional).map ?_)
  · rintro _ e rfl
    rw [IsRelined, Attribute.recast]
  · rintro ⟨name', value'⟩ ⟨name, value⟩ ⟨hname, hvalue⟩
    dsimp only at hname hvalue ⊢
    rw [hname]
    cases hvalue with
    | none => rw [IsRelined, Attribute.recast]
    | some h => exact h name

theorem keeps_container : Keeps n (IsRelined n Child.recast) (container expr) := by
  refine (((keeps_token _).both hexpr.optional).both (keeps_mark _)).map ?_
  rintro ⟨⟨first', value'⟩, last'⟩ ⟨⟨first, value⟩, last⟩ ⟨⟨hfirst, hvalue⟩, hlast⟩
  dsimp only at hfirst hvalue hlast ⊢
  rw [hfirst.span, hlast.span]
  cases hvalue with
  | none =>
    rw [IsRelined, Child.recast]
    rfl
  | some h =>
    rw [IsRelined, Child.recast, h]
    rfl

omit hexpr in
theorem keeps_markupText : Keeps n (IsRelined n Child.recast) markupText := by
  have hinside : Keeps n (IsMoved n) (satisfy fun t => !t.endsText) := keeps_satisfy fun _ _ => rfl
  refine hinside.many1.map ?_
  rintro us ts ⟨h, hts⟩
  rw [IsRelined, Child.recast, MarkupText.recast, map_text_moved h, spanOf_moved h hts]
  rfl

include helement

theorem keeps_child : Keeps n (IsRelined n Child.recast) (child expr element) := by
  refine ((keeps_container hexpr).orElse (helement.map ?_)).orElse keeps_markupText
  rintro _ e rfl
  rw [IsRelined, Child.recast]

/-- The end of an element and the same one, recast. -/
inductive TailMoved (n : Nat → Nat) : Tail → Tail → Prop
  | selfClosing {u t : Token} (h : IsMoved n u t) : TailMoved n (.selfClosing u) (.selfClosing t)
  | children {cs : List Child} {closing : String} {u t : Token} (h : IsMoved n u t) :
      TailMoved n (.children (recastChildren (relined n) cs) closing u) (.children cs closing t)

omit hexpr helement in
theorem keeps_closingTag : Keeps n (fun y x => y.1 = x.1 ∧ IsMoved n y.2 x.2) closingTag :=
  (((keeps_token _).both (keeps_mark _)).before (keeps_trivia.before keeps_markupName)).both
    (keeps_mark _)

theorem keeps_tail : Keeps n (TailMoved n) (tail expr element) := by
  refine (((keeps_mark _).before (keeps_mark _)).map fun _ _ h => .selfClosing h).orElse
    ((((keeps_mark _).before (keeps_child hexpr helement).many).both keeps_closingTag).map ?_)
  rintro ⟨cs', closing', last'⟩ ⟨cs, closing, last⟩ ⟨hcs, hclosing, hlast⟩
  dsimp only at hcs hclosing hlast ⊢
  rw [eq_map_of_forall₂ hcs, ← recastChildren_eq, hclosing]
  exact .children hlast

theorem keeps_elementBody : Keeps n (IsRelined n Element.recast) (elementBody expr element) := by
  refine (refine (((((keeps_token _).both (keeps_trivia.before keeps_markupName)).both
    (keeps_tagAttribute hexpr).many).both (keeps_tail hexpr helement))) ?_).charged _
  rintro ⟨⟨⟨first', name'⟩, attributes'⟩, tail'⟩ ⟨⟨⟨first, name⟩, attributes⟩, tail⟩
    ⟨⟨⟨hfirst, hname⟩, hattributes⟩, htail⟩
  dsimp only at hfirst hname hattributes htail ⊢
  rw [hname, eq_map_of_forall₂ hattributes, ← recastAttributes_eq]
  cases htail with
  | selfClosing hlast =>
    refine .some ?_
    rw [IsRelined, Element.recast, Content.recast, hfirst.span, hlast.span]
    rfl
  | @children cs closing u t hlast =>
    by_cases hclosing : closing = name
    · simp only [assemble, if_pos hclosing]
      refine .some ?_
      rw [IsRelined, Element.recast, Content.recast, hfirst.span, hlast.span]
      rfl
    · simp only [assemble, if_neg hclosing]
      exact .none

omit helement in
theorem keeps_element : Keeps n (IsRelined n Element.recast) (Grammar.element expr) :=
  recursive fun _ h => keeps_elementBody hexpr h

end

/-! ## Expressions -/

theorem keeps_listed {R : α → α → Prop} {item : Parser α} (h : Keeps n R item)
    (opening closing : Kind) : Keeps n (List.Forall₂ R) (listed opening closing item) :=
  ((keeps_mark _).before (h.separated (keeps_mark _))).skip (keeps_mark _)

theorem keeps_params : Keeps n Eq params := by
  have hparam : Keeps n Eq param := by
    refine (keeps_name.map fun _ _ h => congrArg _ h).orElse ((keeps_listed keeps_name _ _).map ?_)
    intro us ts h
    rw [List.forall₂_eq_eq_eq] at h
    rw [h]
  refine ((keeps_listed hparam _ _).mono ?_).orElse (keeps_name.map ?_)
  · intro us ts h
    rwa [List.forall₂_eq_eq_eq] at h
  · rintro _ x rfl
    rfl

theorem keeps_literal : Keeps n (IsRelined n Expr.recast) literal := by
  have hfixed : ∀ w e, e.recast (relined n) = e →
      Keeps n (IsRelined n Expr.recast) ((satisfy (Token.isWord w)).map fun _ => e) := by
    intro w e he
    exact (keeps_word w).map fun _ _ _ => he.symm
  refine keeps_trivia.before (firstOf ?_)
  simp only [List.forall_mem_cons]
  refine ⟨keeps_string.map ?_, keeps_number.map ?_, hfixed _ _ ?_, hfixed _ _ ?_, hfixed _ _ ?_,
    hfixed _ _ ?_, nofun⟩
  · rintro y x ⟨h, -⟩
    rw [IsRelined, Expr.recast, h]
  · rintro _ x rfl
    rw [IsRelined, Expr.recast]
  all_goals rw [Expr.recast]

theorem keeps_key : Keeps n Eq key :=
  keeps_anyName.orElse ((keeps_trivia.before keeps_string).map fun _ _ h => h.1)

section

variable {expr : Parser Expr} (hexpr : Keeps n (IsRelined n Expr.recast) expr)
include hexpr

theorem keeps_declaration : Keeps n (IsRelined n Statement.recast) (declaration expr) := by
  have hintroducer := ((keeps_wordMark (n := n) "const").orElse (keeps_wordMark "let")).orElse
    (keeps_wordMark "var")
  refine (Keeps.map (((((keeps_wordMark "export").optional.skip hintroducer).both keeps_name).skip
    (keeps_mark .equals)).both hexpr |>.skip (keeps_mark .semicolon).optional) ?_).charged _
  rintro ⟨⟨exported', name'⟩, value'⟩ ⟨⟨exported, name⟩, value⟩ ⟨⟨hexported, hname⟩, hvalue⟩
  dsimp only at hexported hname hvalue ⊢
  rw [hname, IsRelined, Statement.recast, hvalue]
  cases hexported <;> rfl

theorem keeps_expressionStatement :
    Keeps n (IsRelined n Statement.recast) (expressionStatement expr) := by
  refine (hexpr.skip (keeps_mark .semicolon).optional).map ?_
  rintro _ e rfl
  rw [IsRelined, Statement.recast]

theorem keeps_blockStatement : Keeps n (IsRelined n Statement.recast) (blockStatement expr) := by
  refine ((keeps_declaration hexpr).orElse ?_).orElse (keeps_expressionStatement hexpr)
  refine (((keeps_wordMark "return").before hexpr.optional).skip
    (keeps_mark .semicolon).optional).map ?_
  intro value' value h
  cases h with
  | none => rw [IsRelined, Statement.recast]
  | some h => rw [IsRelined, Statement.recast, h]

theorem keeps_body : Keeps n (IsRelined n Body.recast) (body expr) := by
  refine ((((keeps_mark _).before (keeps_blockStatement hexpr).many).skip (keeps_mark _)).map
    ?_).orElse (hexpr.map ?_)
  · intro ss' ss h
    rw [IsRelined, Body.recast, eq_map_of_forall₂ h, recastStatements_eq]
  · rintro _ e rfl
    rw [IsRelined, Body.recast]

theorem keeps_arrow : Keeps n (IsRelined n Expr.recast) (arrow expr) := by
  refine ((keeps_params.skip (keeps_mark _)).both (keeps_body hexpr)).map ?_
  rintro ⟨ps', b'⟩ ⟨ps, b⟩ ⟨hps, hb⟩
  dsimp only at hps hb ⊢
  rw [hps, hb, IsRelined, Expr.recast]

theorem keeps_property : Keeps n (IsRelined n Property.recast) (property expr) := by
  refine firstOf ?_
  simp only [List.forall_mem_cons]
  refine ⟨((keeps_mark _).before hexpr).map ?_, ((keeps_key.skip (keeps_mark _)).both hexpr).map ?_,
    keeps_name.map ?_, nofun⟩
  · rintro _ e rfl
    rw [IsRelined, Property.recast]
  · rintro ⟨k', e'⟩ ⟨k, e⟩ ⟨hk, he⟩
    dsimp only at hk he ⊢
    rw [hk, he, IsRelined, Property.recast]
  · rintro _ x rfl
    rw [IsRelined, Property.recast]

theorem keeps_atom : Keeps n (IsRelined n Expr.recast) (atom expr) := by
  refine firstOf ?_
  simp only [List.forall_mem_cons]
  refine ⟨keeps_arrow hexpr, ?_, keeps_literal, (keeps_trivia.before (keeps_element hexpr)).map ?_,
    (keeps_listed hexpr _ _).map ?_, (keeps_listed (keeps_property hexpr) _ _).map ?_,
    keeps_name.map ?_, nofun⟩
  · refine (((keeps_mark _).before hexpr).skip (keeps_mark _)).map ?_
    rintro _ e rfl
    rw [IsRelined, Expr.recast]
    rfl
  · rintro _ e rfl
    rw [IsRelined, Expr.recast]
  · intro es' es h
    rw [IsRelined, Expr.recast, eq_map_of_forall₂ h, recastItems_eq]
  · intro ps' ps h
    rw [IsRelined, Expr.recast, eq_map_of_forall₂ h, recastProperties_eq]
  · rintro _ x rfl
    rw [IsRelined, Expr.recast]

/-- A step of a chain takes what is recast to what is recast. -/
theorem keeps_chainStep : Keeps n
    (fun f' f => ∀ e : Expr, f' (e.recast (relined n)) = (f e).recast (relined n))
    (chainStep expr) := by
  refine (((keeps_mark _).before keeps_anyName).map ?_).orElse ((keeps_listed hexpr _ _).map ?_)
  · rintro _ x rfl e
    rw [Expr.recast]
  · intro es' es h e
    rw [Expr.recast, eq_map_of_forall₂ h, recastItems_eq]

theorem keeps_expressionBody : Keeps n (IsRelined n Expr.recast) (expressionBody expr) := by
  refine (((keeps_atom hexpr).both (keeps_chainStep hexpr).many).map ?_).charged _
  rintro ⟨first', steps'⟩ ⟨first, steps⟩ ⟨hfirst, hsteps⟩
  dsimp only at hfirst hsteps ⊢
  induction hsteps generalizing first first' with
  | nil => exact hfirst
  | cons hstep _ ih =>
    rw [List.foldl_cons, List.foldl_cons]
    refine ih _ _ ?_
    rw [hfirst]
    exact hstep first

end

theorem keeps_expression : Keeps n (IsRelined n Expr.recast) expression :=
  recursive fun _ h => keeps_expressionBody h

/-! ## Modules -/

theorem keeps_importClause : Keeps n Eq importClause := by
  have hnamed : Keeps n Eq namedBindings := by
    have hbinding : Keeps n Eq namedBinding := by
      refine (keeps_anyName.both ((keeps_wordMark "as").before keeps_name).optional).map ?_
      rintro ⟨imported', local'⟩ ⟨imported, bound⟩ ⟨himported, hbound⟩
      dsimp only at himported hbound ⊢
      rw [himported]
      cases hbound with
      | none => rfl
      | some h => rw [h]
    refine (keeps_listed hbinding _ _).mono ?_
    intro us ts h
    rwa [List.forall₂_eq_eq_eq] at h
  have hspace : Keeps n Eq namespaceBinding := by
    refine (((keeps_mark _).before (keeps_wordMark "as")).before keeps_name).map ?_
    rintro _ x rfl
    rfl
  have hdefault : Keeps n Eq defaultBinding := by
    refine keeps_name.map ?_
    rintro _ x rfl
    rfl
  refine (((hdefault.both ((keeps_mark _).before (hnamed.orElse hspace)).optional).map ?_).orElse
    hnamed).orElse hspace
  rintro ⟨first', rest'⟩ ⟨first, rest⟩ ⟨hfirst, hrest⟩
  dsimp only at hfirst hrest ⊢
  rw [hfirst]
  cases hrest with
  | none => rfl
  | some h => rw [h]

theorem keeps_importStatement : Keeps n (IsRelined n Statement.recast) importStatement := by
  refine (Keeps.map ((((keeps_wordMark "import").both
    (keeps_importClause.skip (keeps_wordMark "from")).optional).both
      (keeps_trivia.before keeps_string)).both (keeps_mark .semicolon).optional) ?_).charged _
  rintro ⟨⟨⟨first', bindings'⟩, specifier', quoted'⟩, last'⟩
    ⟨⟨⟨first, bindings⟩, specifier, quoted⟩, last⟩ ⟨⟨⟨hfirst, hbindings⟩, hspecifier, hquoted⟩, hlast⟩
  dsimp only at hfirst hbindings hspecifier hquoted hlast ⊢
  rw [IsRelined, Statement.recast, Import.recast, hspecifier, hquoted, hfirst.span]
  cases hbindings with
  | none =>
    cases hlast with
    | none => rfl
    | some h =>
      rw [Option.map_some, Option.map_some, h.span]
      rfl
  | some hsame =>
    rw [hsame]
    cases hlast with
    | none => rfl
    | some h =>
      rw [Option.map_some, Option.map_some, h.span]
      rfl

theorem keeps_module : Keeps n (IsRelined n Module.recast) Grammar.module := by
  have hstatement : Keeps n (IsRelined n Statement.recast) statement :=
    (keeps_importStatement.orElse (keeps_declaration keeps_expression)).orElse
      (keeps_expressionStatement keeps_expression)
  refine ((hstatement.many.skip keeps_trivia).skip atEnd).map ?_
  intro ss' ss h
  rw [IsRelined, Module.recast, eq_map_of_forall₂ h, recastStatements_eq]

end Grammar

/-- Either text is a module if the other one is, and then the trees are the same but for raw texts and
spans. -/
theorem Module.parse_mixed {source source' : String} (h : Mixed source.toList source'.toList) :
    (∀ m', Module.parse source' = .ok m' → Module.parse source =
      .ok (m'.recast (relined (LineIndex.ofText source').normalized))) ∧
    ((∃ m, Module.parse source = .ok m) ↔ ∃ m', Module.parse source' = .ok m') := by
  obtain ⟨htokens, hregular⟩ := tokenize_mixed h
  have hboth := Grammar.keeps_module (n := (LineIndex.ofText source').normalized)
    (.ofTokens (tokenize source')) hregular
  have hmoved : Grammar.Input.moved (LineIndex.ofText source').normalized
      (.ofTokens (tokenize source')) = .ofTokens (tokenize source) := by
    rw [htokens]
    rfl
  rw [hmoved] at hboth
  unfold Module.parse parseWith
  generalize Grammar.module (.ofTokens (tokenize source)) = x at hboth ⊢
  generalize Grammar.module (.ofTokens (tokenize source')) = y at hboth ⊢
  cases hboth with
  | @done m m' r alt' alt hm hr =>
    refine ⟨?_, fun _ => ⟨m', rfl⟩, fun _ => ⟨m, rfl⟩⟩
    intro _ hm'
    cases hm'
    rw [hm]
  | failed => exact ⟨nofun, nofun, nofun⟩

end MarkupTrace.Source
