import MarkupTrace.Proofs.ReadParts
import MarkupTrace.Proofs.LineEndings

/-!
# Which tokens an element takes

An element takes the tokens from its first mark to its last. In between stand those of its children,
one after the other, and a text has just the tokens that it takes.
-/

namespace MarkupTrace.Source

open Text

/-! ## Tokens of one character -/

/-- The character of a mark. -/
def Kind.character? : Kind → Option Char
  | less => some '<'
  | greater => some '>'
  | slash => some '/'
  | openBrace => some '\x7b'
  | closeBrace => some '\x7d'
  | openParen => some '('
  | closeParen => some ')'
  | openBracket => some '['
  | closeBracket => some ']'
  | comma => some ','
  | colon => some ':'
  | semicolon => some ';'
  | star => some '*'
  | doubleQuote => some '"'
  | singleQuote => some '\''
  | backslash => some '\\'
  | _ => none

theorem lexeme_character {c x : Char} {cs : List Char}
    (h : (lexeme c cs).1.character? = some x) : c = x ∧ (lexeme c cs).2 = 0 := by
  unfold lexeme at h ⊢
  split at h
  case h_13 => split_ifs at h <;> cases h
  case h_14 => split_ifs at h <;> cases h
  case h_20 => split_ifs at h <;> cases h
  case h_21 => split_ifs at h <;> cases h
  all_goals first | (cases h; exact ⟨rfl, rfl⟩) | cases h

theorem mem_tokensFrom {offset : Nat} {cs : List Char} {t : Token} (h : t ∈ tokensFrom offset cs) :
    ∃ c rest, t.kind = (lexeme c rest).1 ∧
      t.text = String.ofList (c :: rest.take (lexeme c rest).2) := by
  obtain ⟨ts, us, hts⟩ := List.append_of_mem h
  obtain ⟨b, -, -, hus⟩ := tokensFrom_eq_append hts
  cases b with
  | nil =>
    rw [tokensFrom] at hus
    cases hus
  | cons c rest =>
    rw [tokensFrom_cons] at hus
    obtain ⟨rfl, -⟩ := List.cons_eq_cons.mp hus
    exact ⟨c, rest, rfl, rfl⟩

theorem toList_text_of_character {source : String} {t : Token} {x : Char}
    (ht : t ∈ tokenize source) (h : t.kind.character? = some x) : t.text.toList = [x] := by
  obtain ⟨c, rest, hkind, htext⟩ := mem_tokensFrom ht
  rw [hkind] at h
  obtain ⟨rfl, hmore⟩ := lexeme_character h
  rw [htext, hmore, String.toList_ofList]
  rfl

/-- A token stands behind the characters of those before it. -/
theorem span_of_tokenize {source : String} {ts us : List Token} {t : Token}
    (h : tokenize source = ts ++ t :: us) :
    t.span = ⟨byteLength (textOf ts), byteLength (textOf (ts ++ [t]))⟩ := by
  obtain ⟨b, -, -, hus⟩ := tokensFrom_eq_append h
  cases b with
  | nil =>
    rw [tokensFrom] at hus
    cases hus
  | cons c rest =>
    rw [tokensFrom_cons, Nat.zero_add] at hus
    obtain ⟨rfl, -⟩ := List.cons_eq_cons.mp hus
    simp [textOf]

namespace Grammar

open Grammar.Parser

/-! ## Reading from tokens -/

/-- The parser reads a value from these tokens, with others behind them. -/
def Parser.Reads {α : Type} (p : Parser α) (ts : List Token) (a : α) (us : List Token) : Prop :=
  p.Gives (.ofTokens (ts ++ us)) a (.ofTokens us)

theorem Input.ofTokens_tokens (i : Input) : Input.ofTokens i.tokens = i := Input.ext rfl

theorem Parser.Gives.exists_reads {α : Type} {p : Parser α} [Leaves p] {i r : Input} {a : α}
    (h : p.Gives i a r) : ∃ ts, i.tokens = ts ++ r.tokens ∧ p.Reads ts a r.tokens := by
  obtain ⟨ts, hts⟩ := Leaves.suffix h
  refine ⟨ts, hts.symm, ?_⟩
  unfold Parser.Reads
  rw [hts, Input.ofTokens_tokens, Input.ofTokens_tokens]
  exact h

/-- Values that are read one after the other, each from its own tokens. -/
inductive Sequence {α : Type} (p : Parser α) : List (List Token) → List α → List Token → Prop
  | nil {us : List Token} : Sequence p [] [] us
  | cons {ts us : List Token} {parts : List (List Token)} {a : α} {as : List α}
      (head : p.Reads ts a (parts.flatten ++ us)) (tail : Sequence p parts as us) :
      Sequence p (ts :: parts) (a :: as) us

theorem Parser.Repeats.exists_sequence {α : Type} {p : Parser α} [Leaves p] {i r : Input}
    {as : List α} (h : Repeats p i as r) :
    ∃ parts, i.tokens = parts.flatten ++ r.tokens ∧ Sequence p parts as r.tokens := by
  induction h with
  | stop h => exact ⟨[], rfl, .nil⟩
  | more h hlt hrest ih =>
    obtain ⟨parts, hparts, hsequence⟩ := ih
    obtain ⟨ts, hts, hreads⟩ := h.exists_reads
    rw [hparts] at hts hreads
    refine ⟨ts :: parts, ?_, .cons hreads hsequence⟩
    rw [hts, List.flatten_cons, List.append_assoc]
  | idle h hlt =>
    obtain ⟨ts, hts, hreads⟩ := h.exists_reads
    refine ⟨[ts], ?_, .cons hreads .nil⟩
    rw [hts, List.flatten_singleton]

theorem gives_mark {k : Kind} {i r : Input} {t : Token} (h : (mark k).Gives i t r) :
    ∃ blanks, i.tokens = blanks ++ t :: r.tokens ∧ t.kind = k := by
  obtain ⟨m, u, hu, ht⟩ := gives_before.mp h
  obtain ⟨hm, hkind⟩ := gives_token.mp ht
  obtain ⟨blanks, hblanks⟩ := Leaves.suffix hu
  exact ⟨blanks, by rw [← hblanks, hm], hkind⟩

/-! ## Elements -/

/-- The tokens of an element: its first mark, the rest of the opening tag, those of each child, and
the closing tag up to the last mark. -/
theorem element_reads {ts us : List Token} {e : Element}
    (h : (element expression).Reads ts e us) : ∃ first opening parts closing last,
      ts = first :: opening ++ parts.flatten ++ closing ++ [last] ∧ first.kind = .less ∧
        last.kind = .greater ∧ e.span = ⟨first.span.start, last.span.stop⟩ ∧
        Sequence (child expression (element expression)) parts e.content.toList
          (closing ++ last :: us) := by
  unfold Parser.Reads at h
  rw [element_eq] at h
  obtain ⟨⟨⟨⟨first, name⟩, attributes⟩, t⟩, h, hassemble⟩ := gives_refine.mp (gives_charged.mp h)
  obtain ⟨i₃, h, htail⟩ := gives_both.mp h
  obtain ⟨i₂, h, hattributes⟩ := gives_both.mp h
  obtain ⟨i₁, hfirst, hname⟩ := gives_both.mp h
  dsimp only at hfirst hname hattributes htail
  obtain ⟨hstart, hless⟩ := gives_token.mp hfirst
  obtain ⟨opening, hopening⟩ := (Leaves.suffix hattributes).trans (Leaves.suffix hname)
  rw [Input.tokens_ofTokens, ← hopening] at hstart
  rcases gives_orElse.mp htail with htail | ⟨-, htail⟩
  · obtain ⟨last, hlast, rfl⟩ := gives_map.mp htail
    obtain ⟨i₄, slash, hslash, hgreater⟩ := gives_before.mp hlast
    obtain ⟨blanks, hblanks, -⟩ := gives_mark hslash
    obtain ⟨further, hfurther, hkind⟩ := gives_mark hgreater
    cases hassemble
    refine ⟨first, opening ++ blanks ++ slash :: further, [], [], last, ?_, hless, hkind, rfl, .nil⟩
    rw [hblanks, hfurther, Input.tokens_ofTokens] at hstart
    refine (List.append_left_inj us).mp ?_
    simpa using hstart
  · obtain ⟨⟨cs, closing, last⟩, hinner, rfl⟩ := gives_map.mp htail
    obtain ⟨i₆, hcontent, hclosing⟩ := gives_both.mp hinner
    obtain ⟨i₅, mark, hmark, hchildren⟩ := gives_before.mp hcontent
    obtain ⟨blanks, hblanks, -⟩ := gives_mark hmark
    obtain ⟨parts, hparts, hsequence⟩ := (gives_many.mp hchildren).exists_sequence
    obtain ⟨i₇, hbefore, hlast⟩ := gives_both.mp hclosing
    obtain ⟨further, hfurther, hkind⟩ := gives_mark hlast
    obtain ⟨between, hbetween⟩ := Leaves.suffix hbefore
    rw [← hbetween, hfurther, Input.tokens_ofTokens] at hparts hsequence
    have he : e = ⟨name, attributes, .children cs, ⟨first.span.start, last.span.stop⟩⟩ := by
      simp only [assemble] at hassemble
      split_ifs at hassemble
      cases hassemble
      rfl
    subst he
    refine ⟨first, opening ++ blanks ++ [mark], parts, between ++ further, last, ?_, hless, hkind,
      rfl, ?_⟩
    · rw [hblanks, hparts] at hstart
      refine (List.append_left_inj us).mp ?_
      simpa using hstart
    · rw [List.append_assoc]
      exact hsequence

theorem repeats_satisfy {accept : Token → Bool} {i r : Input} {ts : List Token}
    (h : Repeats (satisfy accept) i ts r) : i.tokens = ts ++ r.tokens := by
  induction h with
  | stop h => rfl
  | more h hlt hrest ih =>
    rw [(gives_satisfy.mp h).1, ih]
    rfl
  | idle h hlt => rw [(gives_satisfy.mp h).1]; rfl

/-- How the tokens of a child make it up. -/
def Spells (ts us : List Token) : Child → Prop
  | .text t => ts ≠ [] ∧ t = ⟨String.join (ts.map Token.text), spanOf ts⟩
  | .container _ span | .emptyContainer span => ∃ first inner last, ts = first :: inner ++ [last] ∧
      first.kind = .openBrace ∧ last.kind = .closeBrace ∧
      span = ⟨first.span.start, last.span.stop⟩
  | .element e => (element expression).Reads ts e us

theorem child_reads {ts us : List Token} {c : Child}
    (h : (child expression (element expression)).Reads ts c us) : Spells ts us c := by
  rcases gives_orElse.mp h with h | ⟨-, h⟩
  · rcases gives_orElse.mp h with h | ⟨-, h⟩
    · obtain ⟨⟨⟨first, value⟩, last⟩, hcontainer, rfl⟩ := gives_map.mp h
      obtain ⟨i₂, hinside, hlast⟩ := gives_both.mp hcontainer
      obtain ⟨i₁, hfirst, hvalue⟩ := gives_both.mp hinside
      obtain ⟨hstart, hopen⟩ := gives_token.mp hfirst
      obtain ⟨inner, hinner⟩ := Leaves.suffix hvalue
      obtain ⟨blanks, hblanks, hclose⟩ := gives_mark hlast
      have hts : ts = first :: (inner ++ blanks) ++ [last] := by
        refine (List.append_left_inj us).mp ?_
        rw [Input.tokens_ofTokens, ← hinner, hblanks, Input.tokens_ofTokens] at hstart
        simpa using hstart
      cases value with
      | none => exact ⟨first, inner ++ blanks, last, hts, hopen, hclose, rfl⟩
      | some v => exact ⟨first, inner ++ blanks, last, hts, hopen, hclose, rfl⟩
    · obtain ⟨e, helement, rfl⟩ := gives_map.mp h
      exact helement
  · obtain ⟨us', hmany, rfl⟩ := gives_map.mp h
    obtain ⟨t, m, rest, ht, hrest, rfl⟩ := gives_many1.mp hmany
    have hts : ts = t :: rest := by
      refine (List.append_left_inj us).mp ?_
      have htokens := (gives_satisfy.mp ht).1
      rw [repeats_satisfy hrest] at htokens
      exact htokens
    subst hts
    exact ⟨nofun, rfl⟩

end Grammar

end MarkupTrace.Source
