import MarkupTrace.Proofs.Blames

/-!
# Errors of refused texts

The failures of the whole grammar are placed, so an error points at the token over which the text was
refused, or at the end of the text where no token was left. Behind a wrong closing tag it points at the
end of the text too, whatever is left there.
-/

namespace MarkupTrace.Source

open Text

namespace Grammar

open Grammar.Parser

/-! ## Wrong closing tags -/

section

variable {i r : Input}

/-- At most one kind of mark can be read at a place. -/
theorem fails_mark_of_gives {k k' : Kind} {t : Token} (h : (mark k).Gives i t r) (hk : k ≠ k') :
    (mark k').Fails i := by
  refine (gives_or_fails (mark k') i).resolve_left ?_
  rintro ⟨t', r', h'⟩
  obtain ⟨m, u, hu, ht⟩ := gives_before.mp h
  obtain ⟨m', u', hu', ht'⟩ := gives_before.mp h'
  obtain ⟨rfl, rfl⟩ := hu.unique hu'
  obtain ⟨htokens, hkind⟩ := gives_token.mp ht
  obtain ⟨htokens', hkind'⟩ := gives_token.mp ht'
  rw [htokens] at htokens'
  obtain ⟨rfl, -⟩ := List.cons_eq_cons.mp htokens'
  exact hk (hkind.symm.trans hkind')

/-- It is what is read completely and then refused. -/
theorem closesWrongly_iff : ClosesWrongly i r ↔ ∃ first name attributes t,
    (tagHead.both (tail expression (element expression))).Gives i
      (((first, name), attributes), t) r ∧ assemble first name attributes t = none := by
  constructor
  · rintro @⟨m, n, k, first, greater, last, name, other, attributes, cs, hhead, hgreater, hchildren,
      hclosing, hname⟩
    -- the tag did not close itself, as its next mark is another one
    have hslash : ((mark .slash).before (mark .greater) |>.map Tail.selfClosing).Fails m :=
      fails_map.mpr (fails_before.mpr (.inl (fails_mark_of_gives hgreater (by decide))))
    have htail : (tail expression (element expression)).Gives m (.children cs other last) r := by
      have hcontent := gives_before.mpr ⟨n, greater, hgreater, gives_many.mpr hchildren⟩
      refine gives_orElse.mpr (.inr ⟨hslash, gives_map.mpr ⟨(cs, other, last), ?_, rfl⟩⟩)
      exact gives_both.mpr ⟨k, hcontent, hclosing⟩
    exact ⟨first, name, attributes, _, gives_both.mpr ⟨m, hhead, htail⟩, if_neg hname⟩
  · rintro ⟨first, name, attributes, t, hgives, hnone⟩
    obtain ⟨m, hhead, htail⟩ := gives_both.mp hgives
    rcases gives_orElse.mp htail with htail | ⟨-, htail⟩
    · obtain ⟨last, -, rfl⟩ := gives_map.mp htail
      cases hnone
    · obtain ⟨⟨cs, closing, last⟩, hinner, rfl⟩ := gives_map.mp htail
      obtain ⟨k, hcontent, hclosing⟩ := gives_both.mp hinner
      obtain ⟨n, greater, hgreater, hchildren⟩ := gives_before.mp hcontent
      simp only [assemble] at hnone
      split_ifs at hnone with hname
      exact ⟨hhead, hgreater, gives_many.mp hchildren, hclosing, hname⟩

/-- The exception always happens: whatever is left behind a wrong closing tag, the element fails there
over no token. -/
theorem ClosesWrongly.element_eq_failed (h : ClosesWrongly i r) :
    element expression i = .failed ⟨r.left, none, .one "markup element"⟩ := by
  obtain ⟨first, name, attributes, t, ⟨alt, hgives⟩, hnone⟩ := closesWrongly_iff.mp h
  have hbody : elementBody expression (element expression) i =
      .failed ⟨r.left, none, .one "markup element"⟩ := by
    unfold tagHead at hgives
    unfold elementBody Parser.charged Parser.refine
    rw [hgives]
    dsimp only
    rw [hnone]
    rfl
  rwa [← element_eq] at hbody

end

/-! ## The grammar -/

section

variable {n : Nat}

theorem token_places (k : Kind) : (token k).Places n := .satisfy _

theorem trivia_places : trivia.Places n := by
  refine .map (.many (.orElse (.orElse (.map (.satisfy _) _) (.map ?_ _)) (.map ?_ _))) _
  · exact .both (.both (token_places _) (token_places _)) (.many (.satisfy _))
  · exact .both (.both (token_places _) (token_places _))
      (.through (.both (token_places _) (token_places _)))

theorem mark_places (k : Kind) : (mark k).Places n := .before trivia_places (token_places k)

theorem word_places (w : String) : (word w).Places n := .before trivia_places (.satisfy _)

theorem name_places : name.Places n := .before trivia_places (.single _)

theorem anyName_places : anyName.Places n := .before trivia_places (.single _)

theorem string_places : Grammar.string.Places n := by
  have hquoted : ∀ quote, (quotedBy quote).Places n := fun quote =>
    .map (.both (.both (token_places _) (.many (.orElse
      (.map (.before (token_places _) (.satisfy _)) _) (.map (.satisfy _) _)))) (token_places _)) _
  exact .orElse (hquoted _) (hquoted _)

theorem rawString_places : rawString.Places n := by
  have hraw : ∀ quote, (rawBy quote).Places n := fun quote =>
    .map (.skip (.before (token_places _) (.many (.satisfy _))) (token_places _)) _
  exact .orElse (hraw _) (hraw _)

theorem markupName_places : markupName.Places n :=
  .map (.both (.single _) (.many (.both (.single _) (.single _)))) _

theorem number_places : Grammar.number.Places n := .single _

theorem listed_places {α : Type} {item : Parser α} [Leaves item] (h : item.Places n)
    (opening closing : Kind) : (listed opening closing item).Places (n + 1) :=
  .skip (.before_advances (mark_places _) (h.separated (mark_places _))) (mark_places _)

theorem listed_places_of_all {α : Type} {item : Parser α} [Leaves item] (h : ∀ k, item.Places k)
    (opening closing : Kind) : (listed opening closing item).Places n :=
  (listed_places (h n) opening closing).mono (Nat.le_succ n)

theorem literal_places : literal.Places n := by
  refine .before trivia_places (.firstOf ?_)
  simp only [List.forall_mem_cons, List.not_mem_nil, false_imp_iff, implies_true, and_true]
  exact ⟨string_places.map _, number_places.map _, .map (.satisfy _) _, .map (.satisfy _) _,
    .map (.satisfy _) _, .map (.satisfy _) _⟩

theorem param_places : param.Places n :=
  .orElse (name_places.map _) ((listed_places_of_all (fun _ => name_places) _ _).map _)

theorem params_places : params.Places n :=
  .orElse (listed_places_of_all (fun _ => param_places) _ _) (name_places.map _)

theorem semicolon_places : semicolon.Places n := (mark_places _).optional

theorem key_places : key.Places n :=
  .orElse anyName_places (.map (.before trivia_places string_places) _)

/-- Where fewer than `n` tokens are left, both halves of the grammar are placed. -/
structure InsidePlaced (n : Nat) : Prop where
  expr : expression.Places n
  element : (element expression).Places n

namespace InsidePlaced

variable (h : InsidePlaced n)
include h

theorem attributeValue : (attributeValue expression).Places n :=
  .orElse (.map (.before trivia_places rawString_places) _)
    (.map (.skip (.before (mark_places _) h.expr) (mark_places _)) _)

theorem tagAttribute : (tagAttribute expression).Places n := by
  refine .orElse (.map (.skip (.before ?_ h.expr) (mark_places _)) _) (.map (.both ?_ ?_) _)
  · exact .before (mark_places _) (mark_places _)
  · exact .before trivia_places markupName_places
  · exact .optional (.before (mark_places _) h.attributeValue)

theorem child : (child expression (Grammar.element expression)).Places n := by
  refine .orElse (.orElse (.map (.both (.both ?_ ?_) ?_) _) (h.element.map _)) (.map ?_ _)
  · exact token_places _
  · exact h.expr.optional
  · exact mark_places _
  · exact .many1 (.satisfy _)

theorem tail : (tail expression (Grammar.element expression)).Places n := by
  refine .orElse (.map (.before (mark_places _) (mark_places _)) _) (.map (.both ?_ ?_) _)
  · exact .before (mark_places _) h.child.many
  · exact .both (.before (.both (token_places _) (mark_places _))
      (.before trivia_places markupName_places)) (mark_places _)

/-- The one place where what was read is refused. -/
theorem element_succ : (Grammar.element expression).Places (n + 1) := by
  rw [element_eq]
  refine .charged (.refine (.both_advances (.both_advances ?_ h.tagAttribute.many) h.tail) ?_) _
  · exact .both (token_places _) (.before trivia_places markupName_places)
  · rintro i ⟨⟨⟨first, name⟩, attributes⟩, t⟩ r - hgives hnone
    have hwrong := closesWrongly_iff.mpr ⟨first, name, attributes, t, hgives, hnone⟩
    exact ⟨r.tokens, Leaves.suffix hgives, r.left_eq,
      .inr ⟨rfl, i, r, List.suffix_refl _, hwrong, rfl⟩⟩

theorem declaration : (declaration expression).Places n := by
  refine .charged (.map (.skip (.both (.skip (.both ?_ name_places) (mark_places _)) h.expr)
    semicolon_places) _) _
  exact .skip (.optional (word_places _)) (.orElse (.orElse (word_places _) (word_places _))
    (word_places _))

theorem expressionStatement : (expressionStatement expression).Places n :=
  .map (h.expr.skip semicolon_places) _

theorem blockStatement : (blockStatement expression).Places n :=
  .orElse (.orElse h.declaration
    (.map (.skip (.before (word_places _) h.expr.optional) semicolon_places) _))
    h.expressionStatement

theorem body : (body expression).Places n :=
  .orElse (.map (.skip (.before (mark_places _) h.blockStatement.many) (mark_places _)) _)
    (h.expr.map _)

theorem property : (property expression).Places n := by
  refine .firstOf ?_
  simp only [List.forall_mem_cons, List.not_mem_nil, false_imp_iff, implies_true, and_true]
  exact ⟨.map (.before (mark_places _) h.expr) _,
    .map (.both (key_places.skip (mark_places _)) h.expr) _, name_places.map _⟩

theorem atom_succ : (atom expression).Places (n + 1) := by
  refine .firstOf ?_
  simp only [List.forall_mem_cons, List.not_mem_nil, false_imp_iff, implies_true, and_true]
  refine ⟨.map (.both_advances ?_ h.body) _, .map (.skip ?_ (mark_places _)) _, literal_places,
    .map (.before trivia_places h.element_succ) _, .map (listed_places h.expr _ _) _,
    .map (listed_places h.property _ _) _, name_places.map _⟩
  · exact params_places.skip (mark_places _)
  · exact .before_advances (mark_places _) h.expr

theorem expression_succ : expression.Places (n + 1) := by
  rw [expression_eq]
  refine .charged (.map (.both_advances h.atom_succ (.many (.orElse (.map ?_ _) (.map ?_ _)))) _) _
  · exact .before (mark_places _) anyName_places
  · exact (listed_places h.expr _ _).mono (Nat.le_succ n)

end InsidePlaced

/-- By induction on the number of tokens left. -/
theorem insidePlaced (n : Nat) : InsidePlaced n := by
  induction n with
  | zero => exact ⟨fun _ hi => absurd hi (Nat.not_lt_zero _), fun _ hi => absurd hi (Nat.not_lt_zero _)⟩
  | succ n ih => exact ⟨ih.expression_succ, ih.element_succ⟩

theorem namedBindings_places : namedBindings.Places n :=
  listed_places_of_all (fun _ => .map (.both anyName_places
    (.optional (.before (word_places _) name_places))) _) _ _

theorem namespaceBinding_places : namespaceBinding.Places n :=
  .map (.before (.before (mark_places _) (word_places _)) name_places) _

theorem importClause_places : importClause.Places n := by
  refine .orElse (.orElse (.map (.both (name_places.map _) (.optional ?_)) _) namedBindings_places)
    namespaceBinding_places
  exact .before (mark_places _) (namedBindings_places.orElse namespaceBinding_places)

theorem importStatement_places : importStatement.Places n := by
  refine .charged (.map (.both (.both (.both (word_places _) (.optional ?_)) ?_) semicolon_places) _) _
  · exact importClause_places.skip (word_places _)
  · exact .before trivia_places string_places

theorem statement_places : statement.Places n :=
  .orElse (.orElse importStatement_places (insidePlaced n).declaration)
    (insidePlaced n).expressionStatement

theorem module_places : module.Places n :=
  .map (.skip (.skip statement_places.many trivia_places) .atEnd) _

theorem wholeExpression_places : wholeExpression.Places n :=
  .skip ((insidePlaced n).expr.skip trivia_places) .atEnd

end

end Grammar

open Grammar

/-! ## Errors -/

/-- No token is described as the end of the input is. -/
theorem Token.exists_head_describe (t : Token) : ∃ c ∈ t.describe.toList.head?, c ≠ 'e' := by
  unfold describe
  split
  case h_7 => cases t.kind <;> exact ⟨_, rfl, by decide⟩
  all_goals simp

theorem Token.message_ne_end (t : Token) (more rest : String) :
    "unexpected " ++ t.describe ++ more ≠ "unexpected end of input" ++ rest := by
  intro h
  obtain ⟨c, hc, hne⟩ := t.exists_head_describe
  obtain ⟨cs, hcs⟩ := List.head?_eq_some_iff.mp hc
  obtain ⟨heq, -⟩ : c = 'e' ∧ cs ++ more.toList = "nd of input".toList ++ rest.toList := by
    simpa [hcs] using congrArg String.toList h
  exact hne heq

/-- The empty range at the end of the text. -/
def endOf (source : String) : Span := ⟨byteLength source.toList, byteLength source.toList⟩

namespace ParseError

/-- Where an error points, when it comes from this failure. Its range is the empty one at the end of the
text, and its message speaks of the end of the input, only where no token was left or behind a wrong
closing tag. Any other range is that of the token over which the text was refused. -/
structure Points (source : String) (b : Blame) (e : ParseError) : Prop where
  eq : e = ofBlame source b
  consumed : e.span = endOf source →
    b.left = 0 ∨ ∃ us, us ≠ [] ∧ b.left = us.length ∧ WrongBefore (tokenize source) us
  offending : e.span ≠ endOf source →
    ∃ ts t us, tokenize source = ts ++ t :: us ∧ b.left = us.length + 1 ∧ e.span = t.span
  message : (∃ rest, e.message = "unexpected end of input" ++ rest) ↔
    e.span = endOf source

variable {source : String} {b : Blame}

theorem exists_message (source : String) (b : Blame) : ∃ rest, (ofBlame source b).message =
    (match b.found with
      | some t => "unexpected " ++ t.describe
      | none => "unexpected end of input") ++ rest := by
  unfold ofBlame
  dsimp only
  split
  · exact ⟨_, String.append_assoc⟩
  · exact ⟨"", String.append_empty.symm⟩

theorem points_of_token {t : Token} {us : List Token} (hus : t :: us <:+ tokenize source)
    (hleft : b.left = us.length + 1) (hfound : b.found = some t) :
    (ofBlame source b).Points source b := by
  have hspan : (ofBlame source b).span = t.span := by
    unfold ofBlame
    rw [hfound]
  have hlt := Source.offset_lt (show [t] ++ us <:+ tokenize source from hus) nofun
  have hwide : t.span ≠ endOf source := by
    rw [span_eq_offsets hus]
    intro h
    obtain ⟨hstart, hstop⟩ := Span.mk.inj h
    exact Nat.ne_of_lt hlt (hstart.trans hstop.symm)
  refine ⟨rfl, fun h => absurd (hspan.symm.trans h) hwide, fun _ => ?_, ?_⟩
  · obtain ⟨ts, hts⟩ := hus
    exact ⟨ts, t, us, hts.symm, hleft, hspan⟩
  · obtain ⟨more, hmore⟩ := exists_message source b
    rw [hfound] at hmore
    rw [hspan, hmore]
    constructor
    · rintro ⟨rest, hrest⟩
      exact absurd hrest (t.message_ne_end more rest)
    · intro h
      exact absurd h hwide

theorem points_of_none (hfound : b.found = none)
    (hleft : b.left = 0 ∨ ∃ us, us ≠ [] ∧ b.left = us.length ∧ WrongBefore (tokenize source) us) :
    (ofBlame source b).Points source b := by
  have hspan : (ofBlame source b).span = endOf source := by
    unfold ofBlame
    rw [hfound]
    rfl
  obtain ⟨rest, hrest⟩ := exists_message source b
  rw [hfound] at hrest
  exact ⟨rfl, fun _ => hleft, fun h => absurd hspan h, ⟨fun _ => hspan, fun _ => ⟨rest, hrest⟩⟩⟩

theorem points_of_placed (h : b.Placed (tokenize source)) : (ofBlame source b).Points source b := by
  obtain ⟨us, hus, hleft, hfound⟩ := h
  cases us with
  | nil =>
    -- at the very end a wrong closing tag finds what everything else finds there
    have hnone : b.found = none := hfound.elim id And.left
    exact points_of_none hnone (.inl hleft)
  | cons t us =>
    rcases hfound with hfound | ⟨hfound, hwrong⟩
    · exact points_of_token hus hleft hfound
    · exact points_of_none hfound (.inr ⟨t :: us, nofun, hleft, hwrong⟩)

theorem exists_points {α : Type} {p : Parser α} (hp : ∀ n, p.Places n) {e : ParseError}
    (h : parseWith p source = .error e) :
    ∃ b, p (Input.ofTokens (tokenize source)) = .failed b ∧ e.Points source b := by
  have hplaced := hp _ (Input.ofTokens (tokenize source)) (Nat.lt_succ_self _)
  unfold parseWith at h
  split at h
  · cases h
  · rename_i b hb
    cases h
    rw [hb] at hplaced
    exact ⟨b, hb, points_of_placed hplaced⟩

end ParseError

/-- Whenever a text is refused, as a module or as an expression, the error points at the token over which
it was, or at the end where no token was left, but for wrong closing tags. -/
theorem refused_texts_point (source : String) :
    (∀ e, Module.parse source = .error e → ∃ b,
      Grammar.module (Input.ofTokens (tokenize source)) = .failed b ∧ e.Points source b) ∧
    ∀ e, Expr.parse source = .error e → ∃ b,
      wholeExpression (Input.ofTokens (tokenize source)) = .failed b ∧ e.Points source b :=
  ⟨fun _ => ParseError.exists_points fun _ => module_places,
    fun _ => ParseError.exists_points fun _ => wholeExpression_places⟩

/-- How many tokens are left where a text is refused, and the range that is reported. -/
def reported {α : Type} (p : Parser α) (source : String) : Option (Nat × Span) :=
  match p (Input.ofTokens (tokenize source)) with
  | .done _ _ _ => none
  | .failed b => some (b.left, (ParseError.ofBlame source b).span)

theorem exists_of_reported {α : Type} {p : Parser α} {source : String} {left : Nat} {range : Span}
    (h : reported p source = some (left, range)) : ∃ e, parseWith p source = .error e ∧
      e.span = range ∧ ∀ b, p (Input.ofTokens (tokenize source)) = .failed b → b.left = left := by
  revert h
  unfold reported parseWith
  cases p (Input.ofTokens (tokenize source)) with
  | done a r alt => exact nofun
  | failed b =>
    rintro ⟨⟩
    refine ⟨_, rfl, rfl, ?_⟩
    rintro b' ⟨⟩
    rfl

/-- An element with a wrong closing tag, and two tokens behind it. -/
def wrongSource : String := "const a = <a></b>;\n"

theorem reported_wrongSource : reported Grammar.module wrongSource = some (2, ⟨19, 19⟩) := by
  decide +kernel

theorem reported_list : reported wholeExpression "[1; 2]" = some (4, ⟨2, 3⟩) := by decide +kernel

/-- A list is refused over the mark in it. The wrong closing tag is refused at the end of the text,
where two tokens are left. -/
theorem refused_texts_point_wrong :
    (∃ e b, Module.parse wrongSource = .error e ∧ e.Points wrongSource b ∧ e.span = ⟨19, 19⟩ ∧
      b.left = 2 ∧ ∃ us, us.length = 2 ∧ WrongBefore (tokenize wrongSource) us) ∧
    ∃ e b, Expr.parse "[1; 2]" = .error e ∧ e.Points "[1; 2]" b ∧ e.span = ⟨2, 3⟩ ∧ b.left = 4 := by
  constructor
  · obtain ⟨e, he, hspan, hleft⟩ := exists_of_reported reported_wrongSource
    obtain ⟨b, hb, hpoints⟩ := (refused_texts_point wrongSource).1 e he
    have htwo : b.left = 2 := hleft b hb
    obtain hzero | ⟨us, -, hus, hwrong⟩ := hpoints.consumed hspan
    · omega
    · exact ⟨e, b, he, hpoints, hspan, htwo, us, hus.symm.trans htwo, hwrong⟩
  · obtain ⟨e, he, hspan, hleft⟩ := exists_of_reported reported_list
    obtain ⟨b, hb, hpoints⟩ := (refused_texts_point "[1; 2]").2 e he
    exact ⟨e, b, he, hpoints, hspan, hleft b hb⟩

end MarkupTrace.Source
