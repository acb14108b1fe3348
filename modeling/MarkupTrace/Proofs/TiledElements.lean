import MarkupTrace.Proofs.Locations
import MarkupTrace.Proofs.ReadableModules

/-!
# Ranges tile the text

Tokens follow each other without gaps, so what is read from some of them stands in the text from the
first to the last. The children of an element stand one right behind the other between its tags, and
whatever is inside an element, a child or an attribute was read from tokens inside it.
-/

namespace MarkupTrace

namespace Text

/-- The ends of the span lie between characters, and this is the text between them. -/
def StandsAt (cs : List Char) (span : Span) (text : List Char) : Prop :=
  ∃ a c, cs = a ++ text ++ c ∧ span = ⟨byteLength a, byteLength (a ++ text)⟩

theorem StandsAt.slice_eq {cs text : List Char} {span : Span} (h : StandsAt cs span text) :
    slice cs span = text := by
  obtain ⟨a, c, rfl, rfl⟩ := h
  rw [byteLength_append]
  exact slice_middle a text c

theorem byteLength_pos {cs : List Char} (h : cs ≠ []) : 0 < byteLength cs := by
  obtain ⟨c, rest, rfl⟩ := List.exists_cons_of_ne_nil h
  have := c.utf8Size_pos
  rw [byteLength_cons]
  omega

/-- Spans of some width that follow each other without gaps from one offset to another. -/
def Tiles : Nat → List Span → Nat → Prop
  | start, [], stop => start = stop
  | start, span :: spans, stop => span.start = start ∧ start < span.stop ∧ Tiles span.stop spans stop

/-- One span is inside the other and reaches neither of its ends. -/
def Span.Inside (inner outer : Span) : Prop := outer.start < inner.start ∧ inner.stop < outer.stop

theorem Tiles.bounds {start stop : Nat} {spans : List Span} (h : Tiles start spans stop) :
    start ≤ stop ∧ ∀ span ∈ spans, start ≤ span.start ∧ span.stop ≤ stop := by
  induction spans generalizing start with
  | nil => exact ⟨Nat.le_of_eq h, nofun⟩
  | cons span spans ih =>
    obtain ⟨rfl, hwide, hrest⟩ := h
    obtain ⟨hle, hall⟩ := ih hrest
    refine ⟨by omega, List.forall_mem_cons.mpr ⟨⟨Nat.le_refl _, hle⟩, ?_⟩⟩
    intro other hother
    have := hall other hother
    omega

end Text

namespace Source

open Text

/-! ## Offsets of tokens -/

theorem textOf_tokenize (source : String) : textOf (tokenize source) = source.toList :=
  flatMap_text_tokensFrom 0 source.toList

theorem text_ne_nil {source : String} {t : Token} (h : t ∈ tokenize source) :
    t.text.toList ≠ [] := by
  obtain ⟨c, rest, -, htext⟩ := mem_tokensFrom h
  rw [htext, String.toList_ofList]
  exact nofun

/-- The offset in the source behind which these tokens are the last ones. -/
def offset (source : String) (us : List Token) : Nat :=
  byteLength source.toList - byteLength (textOf us)

section

variable {source : String} {ts us vs : List Token}

theorem offset_eq (h : tokenize source = ts ++ us) : offset source us = byteLength (textOf ts) := by
  rw [offset, ← textOf_tokenize, h, textOf_append, byteLength_append, Nat.add_sub_cancel]

/-- What stands from one place to a later one. -/
theorem standsAt_offsets (h : us ++ vs <:+ tokenize source) :
    StandsAt source.toList ⟨offset source (us ++ vs), offset source vs⟩ (textOf us) := by
  obtain ⟨ts, hts⟩ := h
  refine ⟨textOf ts, textOf vs, ?_, ?_⟩
  · rw [← textOf_tokenize, ← hts, textOf_append, textOf_append, List.append_assoc]
  · have hbehind : tokenize source = ts ++ us ++ vs := by rw [← hts, List.append_assoc]
    rw [offset_eq hts.symm, offset_eq hbehind, textOf_append]

theorem offset_le (source : String) (h : vs <:+ us) : offset source us ≤ offset source vs := by
  obtain ⟨ws, rfl⟩ := h
  rw [offset, offset, textOf_append, byteLength_append]
  omega

theorem offset_lt (h : us ++ vs <:+ tokenize source) (hus : us ≠ []) :
    offset source (us ++ vs) < offset source vs := by
  obtain ⟨ts, hts⟩ := h
  obtain ⟨t, rest, rfl⟩ := List.exists_cons_of_ne_nil hus
  have ht : t ∈ tokenize source := by
    rw [← hts]
    simp
  have hpos := byteLength_pos (text_ne_nil ht)
  have hbehind : tokenize source = ts ++ t :: rest ++ vs := by rw [← hts, List.append_assoc]
  rw [offset_eq hts.symm, offset_eq hbehind]
  simp only [textOf_append, textOf_cons, byteLength_append]
  omega

/-- Each token stands in front of those behind it. -/
theorem span_eq_offsets {t : Token} (h : t :: us <:+ tokenize source) :
    t.span = ⟨offset source (t :: us), offset source us⟩ := by
  obtain ⟨ts, hts⟩ := h
  have hbehind : tokenize source = ts ++ [t] ++ us := by rw [← hts, List.append_assoc]; rfl
  rw [span_of_tokenize hts.symm, offset_eq hts.symm, offset_eq hbehind]

end

/-! ## Ranges of children -/

namespace Child

/-- The range of a child, for a text with the blanks at its ends. -/
def span : Child → Span
  | text t => t.span
  | container _ span | emptyContainer span => span
  | element e => e.span

end Child

namespace Grammar

open Grammar.Parser

section

variable {source : String} {i r : Input}

theorem suffix_of_gives {α : Type} {p : Parser α} [Leaves p] {a : α}
    (hi : i.tokens <:+ tokenize source) (h : p.Gives i a r) : r.tokens <:+ tokenize source :=
  (Leaves.suffix h).trans hi

/-- An element stands where it was read. -/
theorem span_of_element {e : Element} (hi : i.tokens <:+ tokenize source)
    (h : (element expression).Gives i e r) :
    e.span = ⟨offset source i.tokens, offset source r.tokens⟩ := by
  obtain ⟨us, hus, hreads⟩ := h.exists_reads
  obtain ⟨ts, hts⟩ := hi
  rw [hus] at hts
  have htokens : tokenize source = ts ++ us ++ r.tokens := by rw [← hts, List.append_assoc]
  rw [Annotate.span_of_reads htokens hreads, hus, offset_eq hts.symm, offset_eq htokens]

/-- What is read from some tokens leaves those behind them. -/
theorem Parser.Gives.offset_lt {α : Type} {p : Parser α} [Leaves p] [Advances p] {a : α}
    (hi : i.tokens <:+ tokenize source) (h : p.Gives i a r) :
    offset source i.tokens < offset source r.tokens := by
  obtain ⟨us, hus⟩ := Leaves.suffix h
  rw [← hus] at hi ⊢
  refine Source.offset_lt hi ?_
  rintro rfl
  have hlt := Advances.left_lt h
  rw [i.left_eq, r.left_eq, ← hus] at hlt
  exact Nat.lt_irrefl _ hlt

/-- The tokens of a child, which spell it. -/
theorem exists_spells {c : Child} (hi : i.tokens <:+ tokenize source)
    (h : (child expression (element expression)).Gives i c r) : ∃ us, i.tokens = us ++ r.tokens ∧
      us ≠ [] ∧ Spells us r.tokens c ∧
      c.span = ⟨offset source i.tokens, offset source r.tokens⟩ := by
  obtain ⟨us, hus, hreads⟩ := h.exists_reads
  have hspells := child_reads hreads
  obtain ⟨ts, hts⟩ := hi
  rw [hus] at hts
  have htokens : tokenize source = ts ++ us ++ r.tokens := by rw [← hts, List.append_assoc]
  rw [hus, offset_eq hts.symm, offset_eq htokens]
  refine ⟨us, rfl, ?_, hspells, ?_⟩
  · cases c with
    | text t => exact hspells.1
    | container value span | emptyContainer span =>
      obtain ⟨first, inner, last, rfl, -⟩ := hspells
      exact nofun
    | element e =>
      obtain ⟨first, opening, parts, closing, last, rfl, -⟩ := element_reads hspells
      exact nofun
  · cases c with
    | text t =>
      obtain ⟨hne, rfl⟩ := hspells
      exact spanOf_tokens htokens hne
    | container value span | emptyContainer span =>
      obtain ⟨first, inner, last, rfl, -, -, rfl⟩ := hspells
      exact Annotate.span_between htokens
    | element e => exact Annotate.span_of_reads htokens hspells

theorem span_of_child {c : Child} (hi : i.tokens <:+ tokenize source)
    (h : (child expression (element expression)).Gives i c r) :
    c.span = ⟨offset source i.tokens, offset source r.tokens⟩ ∧
      offset source i.tokens < offset source r.tokens := by
  obtain ⟨us, hus, hne, -, hspan⟩ := exists_spells hi h
  rw [hus] at hi
  refine ⟨hspan, ?_⟩
  rw [hus]
  exact offset_lt hi hne

/-- Children that are read one after the other tile the text. -/
theorem tiles_children {cs : List Child} (hi : i.tokens <:+ tokenize source)
    (h : Repeats (child expression (element expression)) i cs r) :
    Tiles (offset source i.tokens) (cs.map Child.span) (offset source r.tokens) := by
  induction h with
  | stop h => rfl
  | more h hlt hrest ih =>
    obtain ⟨hspan, hlt'⟩ := span_of_child hi h
    rw [List.map_cons, hspan]
    exact ⟨rfl, hlt', ih (suffix_of_gives hi h)⟩
  | idle h hlt =>
    obtain ⟨hspan, hlt'⟩ := span_of_child hi h
    rw [List.map_cons, hspan]
    exact ⟨rfl, hlt', rfl⟩

/-! ## Tags -/

/-- An opening tag up to the attributes. -/
def tagHead : Parser ((Token × String) × List Attribute) :=
  ((token .less).both (trivia.before markupName)).both (tagAttribute expression).many

instance : Leaves tagHead := by
  unfold tagHead
  infer_instance

instance : Advances tagHead := by
  unfold tagHead
  infer_instance

instance : Advances closingTag := by
  unfold closingTag
  infer_instance

/-- What an element is read from: a tag that closes itself, or an opening tag, children and a closing
tag of the same name. -/
inductive ReadAs (i : Input) (e : Element) (r : Input) : Prop
  | selfClosing {first last slash : Token} {m n : Input} (content : e.content = .selfClosing)
      (head : tagHead.Gives i ((first, e.name), e.attributes) m)
      (slash : (mark .slash).Gives m slash n) (greater : (mark .greater).Gives n last r)
      (span : e.span = ⟨first.span.start, last.span.stop⟩)
  | children {first greater last : Token} {m n k : Input} {cs : List Child}
      (content : e.content = .children cs)
      (head : tagHead.Gives i ((first, e.name), e.attributes) m)
      (greater : (mark .greater).Gives m greater n)
      (children : Repeats (child expression (element expression)) n cs k)
      (closing : closingTag.Gives k (e.name, last) r)
      (span : e.span = ⟨first.span.start, last.span.stop⟩)

theorem readAs_of_gives {e : Element} (h : (element expression).Gives i e r) : ReadAs i e r := by
  rw [element_eq] at h
  obtain ⟨⟨⟨⟨first, name⟩, attributes⟩, t⟩, h, hassemble⟩ := gives_refine.mp (gives_charged.mp h)
  obtain ⟨m, hhead, htail⟩ := gives_both.mp h
  dsimp only at hhead htail
  rcases gives_orElse.mp htail with htail | ⟨-, htail⟩
  · obtain ⟨last, hlast, rfl⟩ := gives_map.mp htail
    obtain ⟨n, slash, hslash, hgreater⟩ := gives_before.mp hlast
    cases hassemble
    exact .selfClosing rfl hhead hslash hgreater rfl
  · obtain ⟨⟨cs, closing, last⟩, hinner, rfl⟩ := gives_map.mp htail
    obtain ⟨k, hcontent, hclosing⟩ := gives_both.mp hinner
    obtain ⟨n, greater, hgreater, hchildren⟩ := gives_before.mp hcontent
    simp only [assemble] at hassemble
    split_ifs at hassemble with hname
    cases hassemble
    subst hname
    exact .children rfl hhead hgreater (gives_many.mp hchildren) hclosing rfl

/-- An element has its attributes before its last mark, and its children between its first and its
last one. -/
theorem exists_marks {e : Element} (hi : i.tokens <:+ tokenize source)
    (h : (element expression).Gives i e r) : ∃ first m,
      tagHead.Gives i ((first, e.name), e.attributes) m ∧
        offset source m.tokens < offset source r.tokens ∧
        (e.content = .selfClosing ∨ ∃ cs n k, e.content = .children cs ∧
          n.tokens <:+ tokenize source ∧
          Repeats (child expression (element expression)) n cs k ∧
          offset source i.tokens < offset source n.tokens ∧
          offset source k.tokens < offset source r.tokens) := by
  rcases readAs_of_gives h with ⟨hcontent, hhead, hslash, hgreater, -⟩ |
    ⟨hcontent, hhead, hgreater, hchildren, hclosing, -⟩
  · have hm := suffix_of_gives hi hhead
    have hslash' := hslash.offset_lt hm
    have hgreater' := hgreater.offset_lt (suffix_of_gives hm hslash)
    exact ⟨_, _, hhead, by omega, .inl hcontent⟩
  · have hm := suffix_of_gives hi hhead
    have hn := suffix_of_gives hm hgreater
    have hk : _ <:+ tokenize source := hchildren.suffix.trans hn
    have hhead' := hhead.offset_lt hi
    have hgreater' := hgreater.offset_lt hm
    have hclosing' := hclosing.offset_lt hk
    have hle := offset_le source hchildren.suffix
    exact ⟨_, _, hhead, by omega, .inr ⟨_, _, _, hcontent, hn, hchildren, by omega, hclosing'⟩⟩

/-! ## What is inside -/

/-- What was read between two places stands between them. -/
theorem AllBetween.bounds {ts us : List Token} {xs : List Part} (h : AllBetween ts us xs)
    (hts : ts <:+ tokenize source) {e : Element} (he : .element e ∈ xs) :
    offset source ts ≤ e.span.start ∧ e.span.stop ≤ offset source us := by
  obtain ⟨i, r, hi, hr, hgives⟩ := h _ he
  rw [span_of_element (hi.trans hts) hgives]
  exact ⟨offset_le source hi, offset_le source hr⟩

theorem gives_tagHead {first : Token} {name : String} {as : List Attribute}
    (h : tagHead.Gives i ((first, name), as) r) : ∃ m, i.tokens = first :: m.tokens ∧
      first.kind = .less ∧ ∃ n, (trivia.before markupName).Gives m name n ∧
        (tagAttribute expression).many.Gives n as r := by
  obtain ⟨n, hstart, hattributes⟩ := gives_both.mp h
  obtain ⟨m, hfirst, hname⟩ := gives_both.mp hstart
  obtain ⟨htokens, hkind⟩ := gives_token.mp hfirst
  exact ⟨m, htokens, hkind, n, hname, hattributes⟩

/-- Attributes are read behind the first mark. -/
theorem exists_attributes {first : Token} {name : String} {as : List Attribute}
    (hi : i.tokens <:+ tokenize source) (h : tagHead.Gives i ((first, name), as) r) : ∃ n,
      n.tokens <:+ tokenize source ∧ offset source i.tokens < offset source n.tokens ∧
        (tagAttribute expression).many.Gives n as r := by
  obtain ⟨m, htokens, -, n, hname, hattributes⟩ := gives_tagHead h
  rw [htokens] at hi ⊢
  have hfirst := offset_lt (show [first] ++ m.tokens <:+ tokenize source from hi) nofun
  have hle := offset_le source (Leaves.suffix hname)
  have hm := (List.suffix_cons _ _).trans hi
  exact ⟨n, suffix_of_gives hm hname, Nat.lt_of_lt_of_le hfirst hle, hattributes⟩

theorem attributes_between {as : List Attribute}
    (h : (tagAttribute expression).many.Gives i as r) :
    AllBetween i.tokens r.tokens (partsOfAttributes as) := by
  rw [partsOfAttributes_eq]
  exact .flatMap ((tagAttribute_yieldsBetween (expression_yieldsBetween _ _)).many i as r
    (List.suffix_refl _) (List.suffix_refl _) h)

theorem children_between {cs : List Child}
    (h : Repeats (child expression (element expression)) i cs r) :
    AllBetween i.tokens r.tokens (partsOfChildren cs) := by
  have hexpression := expression_yieldsBetween i.tokens r.tokens
  rw [partsOfChildren_eq]
  exact .flatMap ((child_yieldsBetween hexpression
    (element_yieldsBetween hexpression fun _ _ => rfl)).many i cs r (List.suffix_refl _)
    (List.suffix_refl _) (gives_many.mpr h))

/-- The value in a container is read between its braces. -/
theorem gives_container {value : Expr} {span : Span}
    (h : (child expression (element expression)).Gives i (.container value span) r) :
    ∃ opening closing m n, (token .openBrace).Gives i opening m ∧ expression.Gives m value n ∧
      (mark .closeBrace).Gives n closing r := by
  rcases gives_orElse.mp h with h | ⟨-, h⟩
  · rcases gives_orElse.mp h with h | ⟨-, h⟩
    · obtain ⟨⟨⟨opening, given⟩, closing⟩, hcontainer, heq⟩ := gives_map.mp h
      obtain ⟨n, hinside, hclosing⟩ := gives_both.mp hcontainer
      obtain ⟨m, hopening, hvalue⟩ := gives_both.mp hinside
      cases given with
      | none => cases heq
      | some v =>
        cases heq
        rcases gives_optional.mp hvalue with ⟨w, hw, hgives⟩ | ⟨hnone, -, -⟩
        · cases hw
          exact ⟨opening, closing, m, n, hopening, hgives, hclosing⟩
        · cases hnone
    · obtain ⟨e, -, heq⟩ := gives_map.mp h
      cases heq
  · obtain ⟨us, -, heq⟩ := gives_map.mp h
    cases heq

/-- Every part of an element was read behind its first mark and before its last. -/
theorem inside_element {e : Element} (hi : i.tokens <:+ tokenize source)
    (h : (element expression).Gives i e r) {f : Element}
    (hf : .element f ∈ partsOfAttributes e.attributes ++ e.content.parts) :
    f.span.Inside e.span := by
  rw [span_of_element hi h]
  obtain ⟨first, m, hhead, hm, hcontent⟩ := exists_marks hi h
  rcases List.mem_append.mp hf with hf | hf
  · obtain ⟨n, hn, hlt, hattributes⟩ := exists_attributes hi hhead
    have hbounds := (attributes_between hattributes).bounds hn hf
    exact ⟨by dsimp only; omega, by dsimp only; omega⟩
  · rcases hcontent with hcontent | ⟨cs, n, k, hcontent, hn, hchildren, hlt, hk⟩
    · rw [hcontent, Content.parts] at hf
      cases hf
    · rw [hcontent, Content.parts] at hf
      have hbounds := (children_between hchildren).bounds hn hf
      exact ⟨by dsimp only; omega, by dsimp only; omega⟩

/-! ## Quoted texts -/

/-- A text stands in quotes between two places. -/
def QuotedBetween (source : String) (ts us : List Token) (raw : String) : Prop :=
  ∃ span quote, (quote = '"' ∨ quote = '\'') ∧
    StandsAt source.toList span (quote :: raw.toList ++ [quote]) ∧
    offset source ts ≤ span.start ∧ span.stop ≤ offset source us

theorem rawBy_quoted {ts us : List Token} (hts : ts <:+ tokenize source) {quote : Kind} {x : Char}
    (hquote : quote.character? = some x) (hx : x = '"' ∨ x = '\'') :
    (rawBy quote).YieldsBetween ts us (QuotedBetween source ts us) := by
  intro i raw r hi hr h
  obtain ⟨inner, hquoted, rfl⟩ := gives_map.mp h
  obtain ⟨n, closing, hbefore, hclosing⟩ := gives_skip.mp hquoted
  obtain ⟨m, opening, hopening, hinner⟩ := gives_before.mp hbefore
  obtain ⟨hm, hfirst⟩ := gives_token.mp hopening
  obtain ⟨hn, hlast⟩ := gives_token.mp hclosing
  rw [repeats_satisfy (gives_many.mp hinner), hn] at hm
  have htokens : i.tokens = opening :: inner ++ [closing] ++ r.tokens := by
    rw [hm]
    simp
  have hsuffix := hi.trans hts
  rw [htokens] at hsuffix
  have hstands := standsAt_offsets hsuffix
  obtain ⟨before, hsource⟩ := hsuffix
  rw [← List.append_assoc] at hsource
  have htext := Annotate.textOf_between hsource.symm (hfirst ▸ hquote) (hlast ▸ hquote)
  rw [htext, ← htokens] at hstands
  have hraw : (String.join (inner.map Token.text)).toList = textOf inner := toList_join inner
  rw [← hraw] at hstands
  exact ⟨_, x, hx, hstands, offset_le source hi, offset_le source hr⟩

theorem rawString_quoted {ts us : List Token} (hts : ts <:+ tokenize source) :
    rawString.YieldsBetween ts us (QuotedBetween source ts us) :=
  (rawBy_quoted hts rfl (.inl rfl)).orElse (rawBy_quoted hts rfl (.inr rfl))

theorem tagAttribute_quoted {ts us : List Token} (hts : ts <:+ tokenize source) :
    (tagAttribute expression).YieldsBetween ts us fun a =>
      ∀ name raw, a = .text name raw → QuotedBetween source ts us raw := by
  have hvalue : (attributeValue expression).YieldsBetween ts us fun f =>
      ∀ name name' raw, f name = .text name' raw → QuotedBetween source ts us raw := by
    refine .orElse (.map (.before _ (rawString_quoted hts)) ?_) (.map (.any ts us _) ?_)
    · rintro raw hraw name name' raw' ⟨⟩
      exact hraw
    · exact fun _ _ _ _ _ => nofun
  refine .orElse (.map (.any ts us _) fun _ _ _ _ => nofun)
    (.map (.both (.any ts us _) (.optional (.before _ hvalue))) ?_)
  rintro ⟨name, value⟩ ⟨-, h⟩ name' raw heq
  cases value with
  | none => cases heq
  | some f => exact h f rfl name name' raw heq

end

/-! ## Elements -/

/-- The children of an element tile what is between the mark that ends its opening tag and the one
that begins its closing tag. -/
inductive BetweenTags (source : String) (e : Element) (cs : List Child) : Prop
  | intro {i m n k r : Input} {first greater less last : Token}
      (place : i.tokens <:+ tokenize source)
      (head : tagHead.Gives i ((first, e.name), e.attributes) m)
      (opened : (mark .greater).Gives m greater n)
      (children : Repeats (child expression (element expression)) n cs k)
      (closing : closingTag.Gives k (e.name, last) r) (mark : k.tokens.head? = some less)
      (span : e.span = ⟨first.span.start, last.span.stop⟩)
      (ends : StandsAt source.toList greater.span ['>'])
      (begins : StandsAt source.toList less.span ['<'])
      (tiles : Tiles greater.span.stop (cs.map Child.span) less.span.start)

/-- All ranges in an element lie between characters and have the text that they should have. What is
inside has a range inside. -/
structure Tiled (source : String) (e : Element) : Prop where
  whole : ∃ inner, StandsAt source.toList e.span ('<' :: inner ++ ['>'])
  tags : ∀ cs, e.content = .children cs → BetweenTags source e cs
  texts : ∀ t, .text t ∈ e.content.toList → t.raw ≠ "" ∧
    StandsAt source.toList t.span t.raw.toList
  apart : e.content.toList.IsChain fun c d => c.isText = true → d.isText = false
  containers : ∀ c ∈ e.content.toList, ∀ span,
    (c = .emptyContainer span ∨ ∃ value, c = .container value span) →
      ∃ inner, StandsAt source.toList span ('\x7b' :: inner ++ ['\x7d'])
  quoted : ∀ name raw, .text name raw ∈ e.attributes → ∃ span quote, (quote = '"' ∨ quote = '\'') ∧
    StandsAt source.toList span (quote :: raw.toList ++ [quote]) ∧ span.Inside e.span
  children_inside : ∀ c ∈ e.content.toList, c.span.Inside e.span
  elements_inside : ∀ f, .element f ∈ partsOfAttributes e.attributes ++ e.content.parts →
    f.span.Inside e.span
  values_inside : ∀ value span, .container value span ∈ e.content.toList →
    ∀ f, .element f ∈ value.parts → f.span.Inside span

section

variable {source : String} {i r : Input}

theorem standsAt_token {t : Token} {us : List Token} {x : Char} (h : t :: us <:+ tokenize source)
    (hx : t.kind.character? = some x) : StandsAt source.toList t.span [x] := by
  have hstands := standsAt_offsets (show [t] ++ us <:+ tokenize source from h)
  have hmem : t ∈ tokenize source := h.subset List.mem_cons_self
  rw [textOf_cons, toList_text_of_character hmem hx] at hstands
  rw [span_eq_offsets h]
  exact hstands

/-- The text of an element is in its tags. -/
theorem whole_of_gives {e : Element} (hi : i.tokens <:+ tokenize source)
    (h : (element expression).Gives i e r) :
    ∃ inner, StandsAt source.toList e.span ('<' :: inner ++ ['>']) := by
  obtain ⟨us, hus, hreads⟩ := h.exists_reads
  have hspan := span_of_element hi h
  rw [hus] at hi hspan
  have hstands := standsAt_offsets hi
  rw [← hspan] at hstands
  obtain ⟨first, opening, parts, closing, last, rfl, hfirst, hlast, -⟩ := element_reads hreads
  obtain ⟨before, hbefore⟩ := hi
  have hinner : first :: opening ++ parts.flatten ++ closing ++ [last] =
      first :: (opening ++ parts.flatten ++ closing) ++ [last] := by simp
  rw [hinner, ← List.append_assoc] at hbefore
  rw [hinner, Annotate.textOf_between hbefore.symm (by rw [hfirst]; rfl) (by rw [hlast]; rfl)]
    at hstands
  exact ⟨_, hstands⟩

theorem betweenTags_of_gives {e : Element} (hi : i.tokens <:+ tokenize source)
    (h : (element expression).Gives i e r) {cs : List Child} (hcs : e.content = .children cs) :
    BetweenTags source e cs := by
  rcases readAs_of_gives h with ⟨hcontent, -⟩ |
    ⟨hcontent, hhead, hgreater, hchildren, hclosing, hspan⟩
  · rw [hcs] at hcontent
    cases hcontent
  rw [hcs] at hcontent
  cases hcontent
  have hm := suffix_of_gives hi hhead
  have hn := suffix_of_gives hm hgreater
  have hk : _ <:+ tokenize source := hchildren.suffix.trans hn
  obtain ⟨blanks, hblanks, hgreaterKind⟩ := gives_mark hgreater
  rw [hblanks] at hm
  have hend := (List.suffix_append _ _).trans hm
  obtain ⟨j, hopen, -⟩ := gives_both.mp hclosing
  obtain ⟨j', slash, hslash, -⟩ := gives_before.mp hopen
  obtain ⟨j'', hless, -⟩ := gives_both.mp hslash
  obtain ⟨hlessTokens, hlessKind⟩ := gives_token.mp hless
  have hbegin := hk
  rw [hlessTokens] at hbegin
  refine .intro hi hhead hgreater hchildren hclosing (by rw [hlessTokens]; rfl) hspan
    (standsAt_token hend (by rw [hgreaterKind]; rfl))
    (standsAt_token hbegin (by rw [hlessKind]; rfl)) ?_
  rw [span_eq_offsets hend, span_eq_offsets hbegin, ← hlessTokens]
  exact tiles_children hn hchildren

/-- Each child was read from tokens of its own. -/
theorem Parser.Repeats.exists_gives {α : Type} {p : Parser α} [Leaves p] {as : List α}
    (h : Repeats p i as r) {a : α} (ha : a ∈ as) : ∃ m n, m.tokens <:+ i.tokens ∧ p.Gives m a n := by
  induction h with
  | stop h => cases ha
  | more h hlt hrest ih =>
    rcases List.mem_cons.mp ha with rfl | ha
    · exact ⟨_, _, List.suffix_refl _, h⟩
    · obtain ⟨m, n, hm, hgives⟩ := ih ha
      exact ⟨m, n, hm.trans (Leaves.suffix h), hgives⟩
  | idle h hlt =>
    obtain rfl := List.mem_singleton.mp ha
    exact ⟨_, _, List.suffix_refl _, h⟩

theorem child_of_gives {e : Element} (hi : i.tokens <:+ tokenize source)
    (h : (element expression).Gives i e r) {c : Child} (hc : c ∈ e.content.toList) :
    ∃ m n, m.tokens <:+ tokenize source ∧ (child expression (element expression)).Gives m c n := by
  rcases readAs_of_gives h with ⟨hcontent, -⟩ | ⟨hcontent, hhead, hgreater, hchildren, -, -⟩
  · rw [hcontent] at hc
    cases hc
  · rw [hcontent] at hc
    obtain ⟨m, n, hm, hgives⟩ := hchildren.exists_gives hc
    exact ⟨m, n, hm.trans (suffix_of_gives (suffix_of_gives hi hhead) hgreater), hgives⟩

theorem text_of_child {t : MarkupText} (hi : i.tokens <:+ tokenize source)
    (h : (child expression (element expression)).Gives i (.text t) r) :
    t.raw ≠ "" ∧ StandsAt source.toList t.span t.raw.toList := by
  obtain ⟨us, hus, hne, ⟨-, rfl⟩, hspan⟩ := exists_spells hi h
  rw [hus] at hi hspan
  have hstands := standsAt_offsets hi
  have hraw : (String.join (us.map Token.text)).toList = textOf us := toList_join us
  rw [← hspan, ← hraw] at hstands
  refine ⟨?_, hstands⟩
  intro hempty
  rw [show String.join (us.map Token.text) = "" from hempty] at hraw
  obtain ⟨u, rest, rfl⟩ := List.exists_cons_of_ne_nil hne
  have hmem : u ∈ tokenize source := hi.subset (by simp)
  rw [textOf_cons] at hraw
  exact text_ne_nil hmem (List.append_eq_nil_iff.mp hraw.symm).1

/-- Tokens between two braces stand in the text with the braces around them. -/
theorem standsAt_braces {first last : Token} {inner : List Token} {us : List Token}
    (h : first :: inner ++ [last] ++ us <:+ tokenize source) (hfirst : first.kind = .openBrace)
    (hlast : last.kind = .closeBrace) : ∃ text, StandsAt source.toList
      ⟨offset source (first :: inner ++ [last] ++ us), offset source us⟩
      ('\x7b' :: text ++ ['\x7d']) := by
  have hstands := standsAt_offsets h
  obtain ⟨before, hbefore⟩ := h
  rw [← List.append_assoc] at hbefore
  have htext : textOf (first :: inner ++ [last]) = '\x7b' :: textOf inner ++ ['\x7d'] :=
    Annotate.textOf_between hbefore.symm (by rw [hfirst]; rfl) (by rw [hlast]; rfl)
  rw [htext] at hstands
  exact ⟨_, hstands⟩

/-- A container with or without a value stands in its braces. -/
theorem text_of_container {c : Child} (hi : i.tokens <:+ tokenize source)
    (h : (child expression (element expression)).Gives i c r) {span : Span}
    (hspan : c = .emptyContainer span ∨ ∃ value, c = .container value span) :
    ∃ inner, StandsAt source.toList span ('\x7b' :: inner ++ ['\x7d']) := by
  obtain ⟨us, hus, -, hspells, hrange⟩ := exists_spells hi h
  rw [hus] at hi hrange
  rcases hspan with rfl | ⟨value, rfl⟩ <;>
  · obtain ⟨first, inner, last, rfl, hfirst, hlast, -⟩ := hspells
    obtain ⟨text, hstands⟩ := standsAt_braces hi hfirst hlast
    rw [← hrange] at hstands
    exact ⟨text, hstands⟩

theorem children_inside_of_gives {e : Element} (hi : i.tokens <:+ tokenize source)
    (h : (element expression).Gives i e r) {c : Child} (hc : c ∈ e.content.toList) :
    c.span.Inside e.span := by
  rw [span_of_element hi h]
  obtain ⟨-, -, -, -, hcontent | ⟨cs, n, k, hcontent, hn, hchildren, hlt, hk⟩⟩ := exists_marks hi h
  · rw [hcontent] at hc
    cases hc
  · rw [hcontent] at hc
    have hbounds := (tiles_children hn hchildren).bounds.2 c.span (List.mem_map_of_mem hc)
    exact ⟨by dsimp only; omega, by dsimp only; omega⟩

/-- What is in the value of a container stands between its braces. -/
theorem values_inside_of_gives {value : Expr} {span : Span} (hi : i.tokens <:+ tokenize source)
    (h : (child expression (element expression)).Gives i (.container value span) r) {f : Element}
    (hf : .element f ∈ value.parts) : f.span.Inside span := by
  obtain ⟨hspan, -⟩ := span_of_child hi h
  obtain ⟨opening, closing, m, n, hopening, hvalue, hclosing⟩ := gives_container h
  have hm := suffix_of_gives hi hopening
  have hn := suffix_of_gives hm hvalue
  have hbetween := expression_yieldsBetween m.tokens n.tokens m value n (List.suffix_refl _)
    (List.suffix_refl _) hvalue
  have hbounds := hbetween.bounds hm hf
  have hopening' := hopening.offset_lt hi
  have hclosing' := hclosing.offset_lt hn
  change span = _ at hspan
  rw [hspan]
  exact ⟨by dsimp only; omega, by dsimp only; omega⟩

theorem quoted_of_gives {e : Element} (hi : i.tokens <:+ tokenize source)
    (h : (element expression).Gives i e r) {name raw : String}
    (hraw : .text name raw ∈ e.attributes) : ∃ span quote, (quote = '"' ∨ quote = '\'') ∧
      StandsAt source.toList span (quote :: raw.toList ++ [quote]) ∧ span.Inside e.span := by
  rw [span_of_element hi h]
  obtain ⟨first, m, hhead, hm, -⟩ := exists_marks hi h
  obtain ⟨n, hn, hlt, hattributes⟩ := exists_attributes hi hhead
  obtain ⟨span, quote, hquote, hstands, hstart, hstop⟩ :=
    (tagAttribute_quoted hn).many n e.attributes m (List.suffix_refl _) (List.suffix_refl _)
      hattributes _ hraw name raw rfl
  exact ⟨span, quote, hquote, hstands, by dsimp only; omega, by dsimp only; omega⟩

theorem apart_of_gives {e : Element} (h : (element expression).Gives i e r) :
    e.content.toList.IsChain fun c d => c.isText = true → d.isText = false := by
  rcases readAs_of_gives h with ⟨hcontent, -⟩ | ⟨hcontent, -, -, hchildren, -, -⟩
  · rw [hcontent]
    exact .nil
  · rw [hcontent]
    exact isChain_children hchildren

/-- Every element that is read from the tokens of a text is tiled. -/
theorem tiled_of_gives {e : Element} (hi : i.tokens <:+ tokenize source)
    (h : (element expression).Gives i e r) : Tiled source e where
  whole := whole_of_gives hi h
  tags _ hcs := betweenTags_of_gives hi h hcs
  texts t ht := by
    obtain ⟨m, n, hm, hgives⟩ := child_of_gives hi h ht
    exact text_of_child hm hgives
  apart := apart_of_gives h
  containers c hc span hspan := by
    obtain ⟨m, n, hm, hgives⟩ := child_of_gives hi h hc
    exact text_of_container hm hgives hspan
  quoted _ _ hraw := quoted_of_gives hi h hraw
  children_inside _ hc := children_inside_of_gives hi h hc
  elements_inside _ hf := inside_element hi h hf
  values_inside value span hc f hf := by
    obtain ⟨m, n, hm, hgives⟩ := child_of_gives hi h hc
    exact values_inside_of_gives hm hgives hf

/-! ## Imports -/

instance : Leaves escaped := by
  unfold escaped
  infer_instance

theorem stop_of_string {s : String} {span : Span} (hi : i.tokens <:+ tokenize source)
    (h : Grammar.string.Gives i (s, span) r) : span.stop = offset source r.tokens := by
  have hquoted : ∀ quote, (quotedBy quote).Gives i (s, span) r →
      span.stop = offset source r.tokens := by
    intro quote h
    obtain ⟨⟨⟨opening, parts⟩, closing⟩, hboth, heq⟩ := gives_map.mp h
    obtain ⟨n, hinner, hclosing⟩ := gives_both.mp hboth
    obtain ⟨htokens, -⟩ := gives_token.mp hclosing
    have hn := Leaves.suffix hinner
    dsimp only at hn htokens heq
    cases heq
    rw [htokens] at hn
    rw [span_eq_offsets (hn.trans hi)]
  rcases gives_orElse.mp h with h | ⟨-, h⟩
  · exact hquoted _ h
  · exact hquoted _ h

/-- The range of an import runs from its first word to its last token. -/
theorem import_standsAt {decl : Import} (hi : i.tokens <:+ tokenize source)
    (h : importStatement.Gives i (.imports decl) r) :
    ∃ text, StandsAt source.toList decl.span text := by
  obtain ⟨⟨⟨⟨first, bindings⟩, specifier, quoted⟩, last⟩, hall, heq⟩ :=
    gives_map.mp (gives_charged.mp h)
  cases heq
  obtain ⟨n, hfront, hlast⟩ := gives_both.mp hall
  obtain ⟨m, hbound, hstring⟩ := gives_both.mp hfront
  obtain ⟨k, hword, hbindings⟩ := gives_both.mp hbound
  dsimp only at hword hbindings hstring hlast
  obtain ⟨j, blank, hblank, hfirst⟩ := gives_before.mp hword
  obtain ⟨l, blank', hblank', hquoted⟩ := gives_before.mp hstring
  have htokens := (gives_satisfy.mp hfirst).1
  have hj := suffix_of_gives hi hblank
  have hm := suffix_of_gives (suffix_of_gives hi hword) hbindings
  have hl := suffix_of_gives hm hblank'
  have hn := suffix_of_gives hl hquoted
  have hstop : (last.map (·.span.stop)).getD quoted.stop = offset source r.tokens := by
    rcases gives_optional.mp hlast with ⟨t, rfl, ht⟩ | ⟨rfl, rfl, -⟩
    · obtain ⟨blanks, hblanks, -⟩ := gives_mark ht
      rw [hblanks] at hn
      have hspan := span_eq_offsets ((List.suffix_append _ _).trans hn)
      rw [Option.map_some, Option.getD_some, hspan]
    · exact stop_of_string hl hquoted
  have hrest : r.tokens <:+ j.tokens := by
    have hbehind := (Leaves.suffix hbindings).trans (Leaves.suffix hfirst)
    exact (Leaves.suffix hlast).trans ((Leaves.suffix hstring).trans hbehind)
  obtain ⟨us, hus⟩ := hrest
  refine ⟨textOf us, ?_⟩
  have hspan := span_eq_offsets (htokens ▸ hj)
  rw [hstop, hspan, ← htokens, ← hus]
  exact standsAt_offsets (hus ▸ hj)

end

theorem statement_standsAt (source : String) : statement.YieldsIn (tokenize source) fun s =>
    ∀ decl, s = .imports decl → ∃ text, StandsAt source.toList decl.span text := by
  refine .orElse (.orElse ?_ (.charged (.map (.any _ _) fun _ _ _ => nofun) _))
    (.map (.any _ _) fun _ _ _ => nofun)
  rintro i s r hi h decl rfl
  exact import_standsAt hi h

end Grammar

/-- Every range that reading a module or an expression gives lies between characters, an import's too,
and so does that of any tokens in a row. The elements are tiled, at any depth. -/
theorem parsed_ranges_tile (source : String) :
    (∀ m, Module.parse source = .ok m →
      (∀ e, .element e ∈ m.parts → Grammar.Tiled source e) ∧
      ∀ decl, .imports decl ∈ m.body → ∃ text, StandsAt source.toList decl.span text) ∧
    (∀ e₀, Expr.parse source = .ok e₀ → ∀ e, .element e ∈ e₀.parts → Grammar.Tiled source e) ∧
    ∀ ts us vs, tokenize source = ts ++ us ++ vs → us ≠ [] →
      StandsAt source.toList (Grammar.spanOf us) (textOf us) ∧
        slice source.toList (Grammar.spanOf us) = textOf us := by
  refine ⟨?_, ?_, ?_⟩
  · intro m h
    constructor
    · intro e he
      obtain ⟨i, r, hi, hgives⟩ := Module.allRead_of_parse h _ he
      exact Grammar.tiled_of_gives hi hgives
    · intro decl hdecl
      unfold Module.parse parseWith at h
      split at h
      · rename_i a rest alt ha
        cases h
        have hstatements : Grammar.module.YieldsIn (tokenize source) fun m =>
            ∀ s ∈ m.body, ∀ decl, s = .imports decl →
              ∃ text, StandsAt source.toList decl.span text :=
          .map (((Grammar.statement_standsAt source).many.skip _).skip _) fun _ h => h
        exact hstatements _ _ _ (List.suffix_refl _) ⟨alt, ha⟩ _ hdecl decl rfl
      · cases h
  · intro e₀ h e he
    obtain ⟨i, r, hi, hgives⟩ := Expr.allRead_of_parse h _ he
    exact Grammar.tiled_of_gives hi hgives
  · intro ts us vs h hus
    have hstands : StandsAt source.toList (Grammar.spanOf us) (textOf us) := by
      rw [spanOf_tokens h hus]
      refine ⟨textOf ts, textOf vs, ?_, by rw [textOf_append]⟩
      rw [← textOf_tokenize, h, textOf_append, textOf_append]
    exact ⟨hstands, hstands.slice_eq⟩

/-- An import, and an element with an element in an attribute, comments between the tags, a lone
carriage return and a letter of two bytes. -/
def mixedSource : String :=
  "import q from 'q';\n<a b='c' d={<i/>}>\re\u00e9 /* f */{g /* h */}<j> </j></a>"

/-- The range of its element and those of the children. -/
def mixedRanges : Option (Span × List Span) :=
  match Module.parse mixedSource with
  | .error _ => none
  | .ok m =>
    match m.body with
    | [.imports _, .expr (.markup e)] => some (e.span, e.content.toList.map Child.span)
    | _ => none

theorem mixedRanges_eq : mixedRanges = some (⟨19, 72⟩, [⟨37, 49⟩, ⟨49, 60⟩, ⟨60, 68⟩]) := by
  decide +kernel

/-- The children are a text, a container and an element. The first begins behind the opening tag, and
the closing tag begins behind the last. -/
theorem parsed_ranges_tile_mixed : ∃ m e, Module.parse mixedSource = .ok m ∧ .element e ∈ m.parts ∧
    Grammar.Tiled mixedSource e ∧ e.span = ⟨19, 72⟩ ∧
    e.content.toList.map Child.span = [⟨37, 49⟩, ⟨49, 60⟩, ⟨60, 68⟩] := by
  have hranges := mixedRanges_eq
  unfold mixedRanges at hranges
  split at hranges
  · cases hranges
  rename_i m hparse
  split at hranges
  case h_2 => cases hranges
  rename_i decl e hbody
  have he : .element e ∈ m.parts := by
    obtain ⟨tag, attributes, content, span⟩ := e
    rw [Module.parts, hbody]
    simp [partsOfStatements, Statement.parts, Expr.parts, Element.parts]
  rw [Option.some.injEq, Prod.mk.injEq] at hranges
  have htiled := ((parsed_ranges_tile mixedSource).1 m hparse).1 e he
  exact ⟨m, e, hparse, he, htiled, hranges.1, hranges.2⟩

end Source

end MarkupTrace
