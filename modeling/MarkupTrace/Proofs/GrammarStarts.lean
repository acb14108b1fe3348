import MarkupTrace.Proofs.PrintedTokens

/-!
# What expressions start with and what ends them

Expressions, statements and their parts begin with trivia and a few sorts of tokens. A printed
expression stands before a closing mark, a comma or a semicolon, or it goes on with a point or an
opening parenthesis.
-/

namespace MarkupTrace.Source.Grammar

open Text Grammar.Parser

/-! ## Padded and advancing parsers -/

section

variable {α : Type} {p p' : Parser α} {expr : Parser Expr}

instance : Advances (firstOf ([] : List (Parser α))) where
  left_lt := fun h => absurd h not_gives_firstOf_nil

instance {ps : List (Parser α)} [Advances p] [Advances (firstOf ps)] :
    Advances (firstOf (p :: ps)) where
  left_lt := by
    intro i a r h
    rcases gives_firstOf_cons.mp h with h | ⟨-, h⟩
    · exact Advances.left_lt h
    · exact Advances.left_lt h

instance [Advances p] (name : String) : Advances (p.charged name) where
  left_lt h := Advances.left_lt (gives_charged.mp h)

instance {β : Type} [Advances p] (f : α → Option β) : Advances (p.refine f) where
  left_lt := by
    intro i b r hb
    obtain ⟨a, ha, -⟩ := gives_refine.mp hb
    exact Advances.left_lt ha

instance : Advances anyName := by
  unfold anyName
  infer_instance

instance : Advances Grammar.string := by
  unfold Grammar.string quotedBy escaped
  infer_instance

instance : Advances literal := by
  unfold literal number
  infer_instance

instance : Advances param := by
  unfold param
  infer_instance

instance [Leaves expr] : Advances (arrow expr) := by
  unfold arrow
  infer_instance

instance [Leaves expr] : Advances (paren expr) := by
  unfold paren
  infer_instance

instance [Leaves expr] : Advances (property expr) := by
  unfold property
  infer_instance

instance [Leaves expr] : Advances (element expr) := by
  rw [element_eq]
  unfold elementBody
  infer_instance

instance [Leaves expr] : Advances (atom expr) := by
  unfold atom markup array object
  infer_instance

instance [Leaves expr] : Advances (chainStep expr) := by
  unfold chainStep
  infer_instance

instance : Advances expression := by
  rw [expression_eq]
  unfold expressionBody
  infer_instance

instance : Advances (declaration expression) := by
  unfold declaration
  infer_instance

instance : Advances (blockStatement expression) := by
  unfold blockStatement returnStatement expressionStatement
  infer_instance

instance : Advances importStatement := by
  unfold importStatement importClause namedBindings namedBinding namespaceBinding defaultBinding
  infer_instance

instance : Advances statement := by
  unfold statement expressionStatement
  infer_instance

instance {β : Type} {q : Parser β} [Padded p] [Padded q] : Padded (p.optional.skip q) := by
  unfold Parser.skip
  infer_instance

instance (k : Kind) : Padded (mark k) := by
  unfold mark
  infer_instance

instance (w : String) : Padded (word w) := by
  unfold word
  infer_instance

instance : Padded name := by
  unfold name
  infer_instance

instance : Padded anyName := by
  unfold anyName
  infer_instance

instance (opening closing : Kind) (item : Parser α) : Padded (listed opening closing item) := by
  unfold listed
  infer_instance

instance : Padded literal := by
  unfold literal
  infer_instance

instance : Padded param := by
  unfold param
  infer_instance

instance : Padded params := by
  unfold params
  infer_instance

instance : Padded key := by
  unfold key
  infer_instance

instance : Padded (property expr) := by
  unfold property
  infer_instance

instance : Padded (atom expr) := by
  unfold atom arrow paren markup array object
  infer_instance

instance : Padded expression := by
  rw [expression_eq]
  unfold expressionBody
  infer_instance

instance : Padded (declaration expr) := by
  unfold declaration
  infer_instance

instance : Padded (returnStatement expr) := by
  unfold returnStatement
  infer_instance

instance [Padded expr] : Padded (blockStatement expr) := by
  unfold blockStatement expressionStatement
  infer_instance

instance : Padded importStatement := by
  unfold importStatement
  infer_instance

instance : Padded statement := by
  unfold statement expressionStatement
  infer_instance

instance [Padded expr] : Padded (body expr) := by
  unfold body
  infer_instance

end

/-! ## First tokens of the grammar -/

/-- Words that statements start with. -/
def statementWords : List String := ["import", "export", "const", "let", "var", "return"]

def literalWords : List String := ["true", "false", "null", "this"]

section

variable {expr : Parser Expr}

theorem param_starts : param.Starts fun t => t.kind = .openBrace ∨
    t.kind = .identifier ∧ isReserved t.text = false :=
  .orElse ((name_starts.map _).mono fun _ => .inr) (((listed_starts _ _ _).map _).mono fun _ => .inl)

theorem params_starts : params.Starts fun t => t.kind = .openParen ∨
    t.kind = .identifier ∧ isReserved t.text = false :=
  .orElse ((listed_starts _ _ _).mono fun _ => .inl) ((name_starts.map _).mono fun _ => .inr)

theorem arrow_starts : (arrow expr).Starts fun t => t.kind = .openParen ∨
    t.kind = .identifier ∧ isReserved t.text = false :=
  ((params_starts.skip _).both _).map _

theorem paren_starts : (paren expr).Starts fun t => t.kind = .openParen :=
  (((mark_starts _).before _).skip _).map _

theorem array_starts : (array expr).Starts fun t => t.kind = .openBracket :=
  (listed_starts _ _ _).map _

theorem object_starts : (object expr).Starts fun t => t.kind = .openBrace :=
  (listed_starts _ _ _).map _

theorem element_takes [Leaves expr] : (element expr).Takes fun t => t.kind = .less := by
  intro i e r h
  rw [element_eq] at h
  obtain ⟨c, hc, -⟩ := gives_refine.mp (gives_charged.mp h)
  exact (((takes_token .less).both _).both _).both _ i c r hc

theorem markup_starts [Leaves expr] : (markup expr).Starts fun t => t.kind = .less :=
  element_takes.starts.map _

theorem string_takes : Grammar.string.Takes fun t => t.kind = .doubleQuote ∨ t.kind = .singleQuote :=
  .orElse (((((takes_token _).both _).both _).map _).mono fun _ => .inl)
    (((((takes_token _).both _).both _).map _).mono fun _ => .inr)

theorem number_takes : Grammar.number.Takes fun t => t.kind = .number := by
  refine takes_single fun t n h => ?_
  split at h
  · assumption
  · cases h

theorem literal_starts : literal.Starts fun t => t.kind ∈ [.doubleQuote, .singleQuote, .number] ∨
    t.kind = .identifier ∧ t.text ∈ literalWords := by
  have hword : ∀ (w : String) (e : Expr), w ∈ literalWords →
      ((satisfy (Token.isWord w)).map fun _ => e).Takes fun t =>
        t.kind ∈ [.doubleQuote, .singleQuote, .number] ∨
          t.kind = .identifier ∧ t.text ∈ literalWords := by
    intro w e hw
    refine .map (takes_satisfy fun t ht => .inr ?_) _
    simp only [Token.isWord, Bool.and_eq_true, beq_iff_eq] at ht
    exact ⟨ht.1, ht.2 ▸ hw⟩
  refine (Takes.firstOf ?_).starts
  simp only [List.forall_mem_cons, List.not_mem_nil, false_imp_iff, implies_true, and_true]
  refine ⟨(string_takes.map _).mono ?_, (number_takes.map _).mono ?_, hword _ _ (by decide),
    hword _ _ (by decide), hword _ _ (by decide), hword _ _ (by decide)⟩
  · rintro t (ht | ht) <;> simp [ht]
  · intro t ht
    simp [ht]

theorem key_starts : key.Starts fun t => t.kind ∈ [.identifier, .doubleQuote, .singleQuote] := by
  refine .orElse (anyName_starts.mono fun t h => ?_) ((string_takes.starts.map _).mono fun t h => ?_)
  · rw [h]
    decide
  · rcases h with h | h <;> rw [h] <;> decide

theorem property_starts : (property expr).Starts fun t =>
    t.kind ∈ [.ellipsis, .identifier, .doubleQuote, .singleQuote] := by
  refine .firstOf ?_
  simp only [List.forall_mem_cons, List.not_mem_nil, false_imp_iff, implies_true, and_true]
  refine ⟨(((mark_starts _).before _).map _).mono fun t h => ?_,
    (((key_starts.skip _).both _).map _).mono fun t h => List.mem_cons_of_mem _ h,
    (name_starts.map _).mono fun t h => ?_⟩
  · rw [h]
    decide
  · rw [h.1]
    decide

/-- The kinds of first tokens of expressions. -/
def openingKinds : List Kind :=
  [.openParen, .doubleQuote, .singleQuote, .number, .less, .openBracket, .openBrace, .identifier]

theorem atom_starts [Leaves expr] : (atom expr).Starts fun t => t.kind ∈ openingKinds := by
  refine .firstOf ?_
  simp only [List.forall_mem_cons, List.not_mem_nil, false_imp_iff, implies_true, and_true]
  refine ⟨arrow_starts.mono ?_, paren_starts.mono ?_, literal_starts.mono ?_, markup_starts.mono ?_,
    array_starts.mono ?_, object_starts.mono ?_, (name_starts.map _).mono ?_⟩
  · rintro t (h | ⟨h, -⟩) <;> rw [h] <;> decide
  · rintro t h
    rw [h]
    decide
  · rintro t (h | ⟨h, -⟩)
    · simp only [List.mem_cons, List.not_mem_nil, or_false] at h
      rcases h with h | h | h <;> rw [h] <;> decide
    · rw [h]
      decide
  all_goals
    intro t h
    first | rw [h] | rw [h.1]
    decide

theorem expression_starts : expression.Starts fun t => t.kind ∈ openingKinds := by
  rw [expression_eq]
  exact ((atom_starts.both _).map _).charged _

theorem chainStep_starts : (chainStep expr).Starts fun t => t.kind = .dot ∨ t.kind = .openParen :=
  .orElse ((((mark_starts _).before _).map _).mono fun _ => .inl)
    (((listed_starts _ _ _).map _).mono fun _ => .inr)

theorem isWord_of_mem {l : List String} {w : String} (hw : w ∈ l) {t : Token}
    (h : t.isWord w = true) : t.kind = .identifier ∧ t.text ∈ l := by
  simp only [Token.isWord, Bool.and_eq_true, beq_iff_eq] at h
  exact ⟨h.1, h.2 ▸ hw⟩

theorem declaration_starts : (declaration expr).Starts fun t =>
    t.kind = .identifier ∧ t.text ∈ statementWords := by
  have hword : ∀ w ∈ statementWords, (word w).Starts fun t =>
      t.kind = .identifier ∧ t.text ∈ statementWords :=
    fun w hw => (word_starts w).mono fun t => isWord_of_mem hw
  refine .charged (.map (.skip (.both (.skip (.both (.map (.optional_both (hword _ (by decide))
    (.orElse (.orElse (hword _ (by decide)) (hword _ (by decide))) (hword _ (by decide)))) _)
    _) _) _) _) _) _

theorem returnStatement_starts : (returnStatement expr).Starts fun t =>
    t.kind = .identifier ∧ t.text ∈ statementWords :=
  ((((word_starts _).before _).skip _).map _).mono fun _ => isWord_of_mem (by decide)

theorem importStatement_starts : importStatement.Starts fun t =>
    t.kind = .identifier ∧ t.text ∈ statementWords :=
  ((((((word_starts _).both _).both _).both _).map _).charged _).mono fun _ => isWord_of_mem (by decide)

theorem blockStatement_starts : (blockStatement expression).Starts fun t => t.kind ∈ openingKinds := by
  have hstatement : ∀ t : Token, t.kind = .identifier ∧ t.text ∈ statementWords →
      t.kind ∈ openingKinds := by
    rintro t ⟨h, -⟩
    rw [h]
    decide
  exact .orElse (.orElse (declaration_starts.mono hstatement) (returnStatement_starts.mono hstatement))
    ((expression_starts.skip _).map _)

theorem statement_starts : statement.Starts fun t => t.kind ∈ openingKinds := by
  have hstatement : ∀ t : Token, t.kind = .identifier ∧ t.text ∈ statementWords →
      t.kind ∈ openingKinds := by
    rintro t ⟨h, -⟩
    rw [h]
    decide
  exact .orElse (.orElse (importStatement_starts.mono hstatement)
    (declaration_starts.mono hstatement)) ((expression_starts.skip _).map _)

end

/-! ## What stands behind expressions -/

/-- The marks that stand behind a printed expression. -/
def closingKinds : List Kind := [.closeParen, .comma, .closeBracket, .closeBrace, .semicolon]

/-- A closing mark stands next, perhaps behind a space. -/
def Ends (s : List Char) : Prop :=
  ∃ k c rest, k ∈ closingKinds ∧ k.character? = some c ∧ (s = c :: rest ∨ s = ' ' :: c :: rest)

/-- A member or a call stands next. -/
def Extends (s : List Char) : Prop :=
  (∃ c rest, s = '.' :: c :: rest ∧ isIdentifierStart c = true) ∨ ∃ rest, s = '(' :: rest

/-- A member, a call or a closing mark stands next. -/
def Breaks (s : List Char) : Prop := Ends s ∨ Extends s

theorem ends_of_character {k : Kind} {c : Char} (hk : k ∈ closingKinds) (h : k.character? = some c)
    (rest : List Char) : Ends (c :: rest) := ⟨k, c, rest, hk, h, .inl rfl⟩

theorem ends_space {k : Kind} {c : Char} (hk : k ∈ closingKinds) (h : k.character? = some c)
    (rest : List Char) : Ends (' ' :: c :: rest) := ⟨k, c, rest, hk, h, .inr rfl⟩

section

variable {s : List Char}

theorem Ends.front (h : Ends s) : Front s fun t => t.kind ∈ closingKinds := by
  obtain ⟨k, c, rest, hk, hc, hs⟩ := h
  have hsolid := solid_of_character hc (by rintro rfl; revert hk; decide) rest
  have hskips : Skips s (c :: rest) := by
    rcases hs with rfl | rfl
    · exact hsolid.skips
    · exact hsolid.skips_space
  exact hskips.front (t := []) (lexeme_of_character hc rest) fun _ => hk

theorem Ends.head (h : Ends s) : ∀ c ∈ s.head?, c ∈ [' ', ')', ',', ']', '\x7d', ';'] := by
  obtain ⟨k, c, rest, hk, hc, hs⟩ := h
  rcases hs with rfl | rfl <;> rintro x ⟨⟩
  · cases k <;> cases hc <;> first | decide | exact absurd hk (by decide)
  · decide

theorem Extends.front (h : Extends s) : Front s fun t => t.kind = .dot ∨ t.kind = .openParen := by
  rcases h with ⟨c, rest, rfl, hc⟩ | ⟨rest, rfl⟩
  · have hlexeme : lexeme '.' (c :: rest) = (.dot, 0) := by
      refine if_neg fun heq => ?_
      obtain ⟨rfl, -⟩ := List.cons_eq_cons.mp heq
      cases hc
    exact (solid_cons hlexeme (by decide)).skips.front (t := []) hlexeme fun _ => .inl rfl
  · exact (front_character (k := .openParen) rfl (by decide) rest).mono fun _ => .inr

theorem Breaks.front (h : Breaks s) :
    Front s fun t => t.kind ∈ .dot :: .openParen :: closingKinds := by
  rcases h with h | h
  · exact h.front.mono fun t ht => by simp [ht]
  · exact h.front.mono fun t ht => by rcases ht with ht | ht <;> simp [ht]

theorem Breaks.head (h : Breaks s) :
    ∀ c ∈ s.head?, c ∈ [' ', ')', ',', ']', '\x7d', ';', '.', '('] := by
  rcases h with h | ⟨c, rest, rfl, -⟩ | ⟨rest, rfl⟩
  · intro c hc
    have := h.head c hc
    simp only [List.mem_cons] at this ⊢
    tauto
  · rintro x ⟨⟩
    decide
  · rintro x ⟨⟩
    decide

theorem Breaks.endsWord (h : Breaks s) : EndsWord s := by
  intro c hc
  have := h.head c hc
  revert this
  simp only [List.mem_cons, List.not_mem_nil, or_false]
  rintro (rfl | rfl | rfl | rfl | rfl | rfl | rfl | rfl) <;> rfl

theorem Breaks.endsNumber (h : Breaks s) : EndsNumber s := by
  refine ⟨fun c hc => ?_, ?_⟩
  · have := h.endsWord c hc
    simp only [isIdentifierPart, Bool.or_eq_false_iff] at this
    exact this.2
  · rintro d rest rfl
    rcases h with h | ⟨c, more, heq, hc⟩ | ⟨more, heq⟩
    · exact absurd (h.head '.' rfl) (by decide)
    · cases heq
      rw [← Bool.not_eq_true]
      intro hd
      rw [isIdentifierStart_of_isDigit hd] at hc
      cases hc
    · cases heq

theorem Ends.breaks (h : Ends s) : Breaks s := .inl h

theorem Extends.breaks (h : Extends s) : Breaks s := .inr h

theorem Breaks.mark_refuses (h : Breaks s) {k : Kind} (hk : k ∉ .dot :: .openParen :: closingKinds) :
    (mark k).Refuses s :=
  (mark_starts k).refuses h.front fun _ ht hkind => hk (hkind ▸ ht)

theorem Ends.chainStep_refuses (h : Ends s) : (chainStep expression).Refuses s := by
  refine chainStep_starts.refuses h.front fun t ht hkind => ?_
  rcases hkind with hkind | hkind <;> rw [hkind] at ht <;> revert ht <;> decide

theorem Ends.expression_refuses (h : Ends s) : expression.Refuses s := by
  refine expression_starts.refuses h.front fun t ht hkind => ?_
  generalize t.kind = k at *
  revert k
  decide

end

end MarkupTrace.Source.Grammar
