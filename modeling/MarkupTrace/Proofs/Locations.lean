import MarkupTrace.Proofs.SelectedText

/-!
# Locations of elements and their children

The location of an element selects what is written from its first mark to its last, that of a
container its braces and what is between them, that of a text the text without the blanks at both
ends. Locations of children lie apart from each other, in order, and inside that of the element.
-/

namespace MarkupTrace

namespace Text

/-! ## Blanks at both ends -/

theorem takeWhile_append_trim (cs : List Char) : ∃ trail,
    cs = cs.takeWhile isBlank ++ trim cs ++ trail ∧ ∀ c ∈ trail, isBlank c = true := by
  refine ⟨((dropStart isBlank cs).reverse.takeWhile isBlank).reverse, ?_, ?_⟩
  · rw [List.append_assoc, trim, dropEnd_append_takeWhile, takeWhile_append_dropStart]
  · intro c hc
    exact List.mem_takeWhile_imp (List.mem_reverse.mp hc)

theorem dropEnd_ne_nil {cs : List Char} (h : ∃ c ∈ cs, isBlank c = false) :
    dropEnd isBlank cs ≠ [] := by
  obtain ⟨c, hc, hblank⟩ := h
  intro hnil
  rw [dropEnd, List.reverse_eq_nil_iff, List.dropWhile_eq_nil_iff] at hnil
  have := hnil c (List.mem_reverse.mpr hc)
  rw [hblank] at this
  cases this

/-- The last character that stays is none of those dropped. -/
theorem getLast?_dropEnd {p : Char → Bool} {cs : List Char} {c : Char}
    (h : (dropEnd p cs).getLast? = some c) : p c = false := by
  rw [dropEnd, List.getLast?_reverse] at h
  have := List.head?_dropWhile_not p cs.reverse
  rw [h] at this
  simpa using this

/-- The first character that stays is none of those dropped. -/
theorem head?_dropStart {p : Char → Bool} {cs : List Char} {c : Char}
    (h : (dropStart p cs).head? = some c) : p c = false := by
  have := List.head?_dropWhile_not p cs
  rw [dropStart] at h
  rw [h] at this
  simpa using this

theorem head?_trim {cs : List Char} {c : Char} (h : (trim cs).head? = some c) : isBlank c = false := by
  have hstart : (dropStart isBlank cs).head? = some c := by
    rw [trim] at h
    rw [← dropEnd_append_takeWhile isBlank (dropStart isBlank cs), List.head?_append, h]
    rfl
  exact head?_dropStart hstart

theorem trim_eq_nil_iff {cs : List Char} : trim cs = [] ↔ ∀ c ∈ cs, isBlank c = true := by
  constructor
  · intro h c hc
    by_contra hblank
    have hdrop : ∃ d ∈ dropStart isBlank cs, isBlank d = false := by
      have hmem := hc
      rw [← takeWhile_append_dropStart isBlank cs, List.mem_append] at hmem
      rcases hmem with hmem | hmem
      · exact absurd (List.mem_takeWhile_imp hmem) hblank
      · exact ⟨c, hmem, by simpa using hblank⟩
    exact dropEnd_ne_nil hdrop h
  · intro h
    have hnil : dropStart isBlank cs = [] := by
      rw [dropStart, List.dropWhile_eq_nil_iff]
      exact h
    rw [trim, hnil, dropEnd_nil]

theorem dropEnd_append {p : Char → Bool} {cs trail : List Char} (htrail : ∀ c ∈ trail, p c = true)
    (hlast : ∀ c, cs.getLast? = some c → p c = false) : dropEnd p (cs ++ trail) = cs := by
  rw [dropEnd, List.reverse_append, List.dropWhile_append_of_pos]
  · cases hcs : cs.reverse with
    | nil => rw [List.dropWhile_nil, List.reverse_nil, List.reverse_eq_nil_iff.mp hcs]
    | cons c rest =>
      have hc : cs.getLast? = some c := by rw [← List.head?_reverse, hcs]; rfl
      rw [List.dropWhile_cons_of_neg (by simp [hlast c hc]), ← hcs, List.reverse_reverse]
  · intro c hc
    exact htrail c (List.mem_reverse.mp hc)

/-- Blanks at the end go whether or not those at the start have gone. -/
theorem dropEnd_of_not_blank {cs : List Char} (h : trim cs ≠ []) :
    dropEnd isBlank cs = cs.takeWhile isBlank ++ trim cs := by
  obtain ⟨trail, hcs, htrail⟩ := takeWhile_append_trim cs
  conv_lhs => rw [hcs]
  refine dropEnd_append htrail ?_
  intro c hc
  rw [List.getLast?_append, List.getLast?_eq_some_getLast h] at hc
  refine getLast?_dropEnd (?_ : (trim cs).getLast? = some c)
  rw [List.getLast?_eq_some_getLast h]
  exact hc

end Text

namespace Source

open Text

theorem MarkupText.trimmedSpan_eq {t : MarkupText} {start : Nat}
    (h : t.span = ⟨start, start + byteLength t.raw.toList⟩) :
    t.trimmedSpan = ⟨start + byteLength (t.raw.toList.takeWhile isBlank),
      start + byteLength (t.raw.toList.takeWhile isBlank ++ trim t.raw.toList)⟩ := by
  have hstart : byteLength t.raw.toList = byteLength (t.raw.toList.takeWhile isBlank) +
      byteLength (dropStart isBlank t.raw.toList) := by
    rw [← byteLength_append, takeWhile_append_dropStart]
  obtain ⟨trail, hcs, htrail⟩ := takeWhile_append_trim t.raw.toList
  have hwhole := congrArg byteLength hcs
  rw [byteLength_append, byteLength_append] at hwhole
  unfold trimmedSpan
  rw [h, byteLength_append]
  dsimp only
  by_cases htrim : trim t.raw.toList = []
  · have hblank := trim_eq_nil_iff.mp htrim
    have hnone : dropEnd isBlank t.raw.toList = [] := by
      rw [dropEnd, List.reverse_eq_nil_iff, List.dropWhile_eq_nil_iff]
      exact fun c hc => hblank c (List.mem_reverse.mp hc)
    have hall : dropStart isBlank t.raw.toList = [] := List.dropWhile_eq_nil_iff.mpr hblank
    rw [hall, byteLength_nil] at hstart
    rw [hnone, htrim, hall]
    simp only [byteLength_nil, Span.mk.injEq]
    omega
  · rw [dropEnd_of_not_blank htrim, byteLength_append]
    simp only [Span.mk.injEq]
    omega

namespace Child

/-- The span that a location of a child is made from. -/
def place : Child → Span
  | text t => t.trimmedSpan
  | container _ span | emptyContainer span => span
  | element e => e.span

/-- What stands before the place of a child in its tokens. -/
def margin : Child → List Char
  | text t => t.raw.toList.takeWhile isBlank
  | container _ _ | emptyContainer _ | element _ => []

/-- The text at the place of a child with these characters. -/
def shown : Child → List Char → List Char
  | text _, cs => trim cs
  | container _ _, cs | emptyContainer _, cs | element _, cs => cs

end Child

/-- Tokens that stand in a text have the span from the first to the last of them. -/
theorem spanOf_tokens {source : String} {ts us vs : List Token} (h : tokenize source = ts ++ us ++ vs)
    (hus : us ≠ []) :
    Grammar.spanOf us = ⟨byteLength (textOf ts), byteLength (textOf (ts ++ us))⟩ := by
  obtain ⟨first, rest, rfl⟩ := List.exists_cons_of_ne_nil hus
  have hfirst : first.span.start = byteLength (textOf ts) := by
    rw [List.append_assoc, List.cons_append] at h
    rw [span_of_tokenize h]
  have hlast : ((first :: rest).getLast?.map (·.span.stop)) =
      some (byteLength (textOf (ts ++ first :: rest))) := by
    obtain ⟨front, last, hsplit⟩ := List.eq_nil_or_concat' (first :: rest) |>.resolve_left hus
    rw [hsplit] at h ⊢
    rw [← List.append_assoc, List.append_assoc _ [last], List.singleton_append] at h
    rw [List.getLast?_concat, Option.map_some, span_of_tokenize h, List.append_assoc]
  unfold Grammar.spanOf
  rw [hlast]
  simp only [List.head?_cons, Option.map_some, Option.getD_some, hfirst]

end Source

namespace Annotate

open Source Text Grammar

/-- The blanks at the ends of a part can be left out: no pair is split by that. -/
theorem selects_trim {source : String} {a cs c : List Char} (hsource : source.toList = a ++ cs ++ c)
    (hcut : Cut (a ++ cs) c) (normalize : Bool) (names : Names) :
    Selects normalize source.toList
      (Site.location ⟨LineIndex.ofText source, normalize, names⟩
        ⟨byteLength (a ++ cs.takeWhile isBlank), byteLength (a ++ cs.takeWhile isBlank ++ trim cs)⟩)
      (a ++ cs.takeWhile isBlank) (trim cs) := by
  obtain ⟨trail, hcs, htrail⟩ := takeWhile_append_trim cs
  have hwhole : source.toList = a ++ cs.takeWhile isBlank ++ trim cs ++ (trail ++ c) := by
    rw [hsource]
    conv_lhs => rw [hcs]
    simp only [List.append_assoc]
  by_cases htrim : trim cs = []
  · have hlead : cs.takeWhile isBlank = cs :=
      List.takeWhile_eq_self_iff.mpr (trim_eq_nil_iff.mp htrim)
    have hnone : trail = [] := by
      rw [htrim, hlead, List.append_nil] at hcs
      exact List.self_eq_append_right.mp hcs
    rw [hnone, htrim, hlead, List.nil_append] at hwhole
    rw [htrim, hlead]
    refine selects_location hwhole ?_ ?_ normalize names
    · exact hcut
    · rw [List.append_nil]
      exact hcut
  · obtain ⟨first, hfirst⟩ : ∃ x, (trim cs).head? = some x := ⟨_, List.head?_eq_some_head htrim⟩
    obtain ⟨last, hlast⟩ : ∃ x, (trim cs).getLast? = some x :=
      ⟨_, List.getLast?_eq_some_getLast htrim⟩
    have hfirstBlank := head?_trim hfirst
    have hlastBlank := getLast?_dropEnd hlast
    refine selects_location hwhole ?_ ?_ normalize names
    · intro _ hfeed
      rw [List.head?_append, hfirst] at hfeed
      cases hfeed
      cases hfirstBlank
    · intro hreturn
      rw [List.getLast?_append, hlast] at hreturn
      cases hreturn
      cases hlastBlank

/-- How annotation goes about the text of a module. -/
abbrev siteOf (source : String) (normalize : Bool) (names : Names) : Site :=
  ⟨LineIndex.ofText source, normalize, names⟩

/-- A child is read from tokens between others, and its location selects its text. -/
structure ChildAt (source : String) (normalize : Bool) (names : Names) (c : Child)
    (ts us vs : List Token) : Prop where
  tokens : tokenize source = ts ++ us ++ vs
  reads : (Grammar.child expression (Grammar.element expression)).Reads us c vs
  raw : ∀ t, c = .text t → t.raw.toList = textOf us
  braces : ∀ span, (c = .emptyContainer span ∨ ∃ value, c = .container value span) →
    ∃ inner, textOf us = '\x7b' :: inner ++ ['\x7d']
  tags : ∀ e, c = .element e → ∃ inner, textOf us = '<' :: inner ++ ['>']
  selects : Selects normalize source.toList ((siteOf source normalize names).location c.place)
    (textOf ts ++ c.margin) (c.shown (textOf us))

theorem textOf_between {source : String} {ts vs inner : List Token} {first last : Token} {x y : Char}
    (h : tokenize source = ts ++ (first :: inner ++ [last]) ++ vs)
    (hfirst : first.kind.character? = some x) (hlast : last.kind.character? = some y) :
    textOf (first :: inner ++ [last]) = x :: textOf inner ++ [y] := by
  have hmem : ∀ {t}, t ∈ first :: inner ++ [last] → t ∈ tokenize source := by
    intro t ht
    rw [h]
    exact List.mem_append_left _ (List.mem_append_right _ ht)
  have hx := toList_text_of_character (hmem (by simp)) hfirst
  have hy := toList_text_of_character (hmem (by simp)) hlast
  simp [hx, hy]

/-- From the first to the last of some tokens. -/
theorem span_between {source : String} {ts vs inner : List Token} {first last : Token}
    (h : tokenize source = ts ++ (first :: inner ++ [last]) ++ vs) :
    (⟨first.span.start, last.span.stop⟩ : Span) =
      ⟨byteLength (textOf ts), byteLength (textOf (ts ++ (first :: inner ++ [last])))⟩ := by
  rw [← spanOf_tokens h (by simp), spanOf, List.getLast?_concat]
  rfl

theorem span_of_reads {source : String} {ts us vs : List Token} {e : Element}
    (htokens : tokenize source = ts ++ us ++ vs)
    (hreads : (Grammar.element expression).Reads us e vs) :
    e.span = ⟨byteLength (textOf ts), byteLength (textOf (ts ++ us))⟩ := by
  obtain ⟨first, opening, parts, closing, last, rfl, -, -, hspan, -⟩ := element_reads hreads
  have hinner : first :: opening ++ parts.flatten ++ closing ++ [last] =
      first :: (opening ++ parts.flatten ++ closing) ++ [last] := by simp
  rw [hinner] at htokens ⊢
  rw [hspan]
  exact span_between htokens

/-- A child stands where its tokens stand, blanks at the ends of a text aside. -/
theorem place_of_reads {source : String} {ts us vs : List Token} {c : Child}
    (htokens : tokenize source = ts ++ us ++ vs)
    (hreads : (Grammar.child expression (Grammar.element expression)).Reads us c vs) :
    c.place = ⟨byteLength (textOf ts ++ c.margin),
      byteLength (textOf ts ++ c.margin ++ c.shown (textOf us))⟩ := by
  have hspells := child_reads hreads
  cases c with
  | text t =>
    obtain ⟨hus, rfl⟩ := hspells
    have hspan := spanOf_tokens htokens hus
    have hraw : (String.join (us.map Token.text)).toList = textOf us := toList_join us
    have htext : (⟨String.join (us.map Token.text), spanOf us⟩ : MarkupText).span =
        ⟨byteLength (textOf ts), byteLength (textOf ts) +
          byteLength (String.join (us.map Token.text)).toList⟩ := by
      rw [hraw, ← byteLength_append, ← textOf_append]
      exact hspan
    have htrimmed := MarkupText.trimmedSpan_eq htext
    rw [Child.place, htrimmed, Child.margin, Child.shown, hraw, ← byteLength_append,
      ← byteLength_append, ← List.append_assoc]
  | container value span =>
    obtain ⟨first, inner, last, rfl, -, -, rfl⟩ := hspells
    rw [Child.place, Child.margin, Child.shown, List.append_nil, ← textOf_append]
    exact span_between htokens
  | emptyContainer span =>
    obtain ⟨first, inner, last, rfl, -, -, rfl⟩ := hspells
    rw [Child.place, Child.margin, Child.shown, List.append_nil, ← textOf_append]
    exact span_between htokens
  | element e =>
    rw [Child.place, Child.margin, Child.shown, List.append_nil, ← textOf_append]
    exact span_of_reads htokens hspells

theorem ChildAt.of_reads {source : String} {ts us vs : List Token} {c : Child}
    (htokens : tokenize source = ts ++ us ++ vs)
    (hreads : (Grammar.child expression (Grammar.element expression)).Reads us c vs) (normalize : Bool)
    (names : Names) : ChildAt source normalize names c ts us vs := by
  have hspells := child_reads hreads
  have hplace := place_of_reads htokens hreads
  obtain ⟨behind, hsource, -, hcut⟩ := (selects_tokens htokens normalize names).stands
  have hwhole : ∀ span, span = (⟨byteLength (textOf ts), byteLength (textOf ts ++ textOf us)⟩ : Span) →
      Selects normalize source.toList ((siteOf source normalize names).location span)
        (textOf ts ++ []) (textOf us) := by
    rintro _ rfl
    rw [List.append_nil, ← textOf_append]
    exact selects_tokens htokens normalize names
  cases c with
  | text t =>
    obtain ⟨hus, rfl⟩ := hspells
    have hraw : (String.join (us.map Token.text)).toList = textOf us := toList_join us
    refine ⟨htokens, hreads, ?_, ?_, ?_, ?_⟩
    · rintro t ⟨⟩
      exact hraw
    · rintro span (h | ⟨value, h⟩) <;> cases h
    · rintro e ⟨⟩
    · rw [hplace, Child.margin, Child.shown, hraw]
      exact selects_trim hsource hcut normalize names
  | container value span =>
    obtain ⟨first, inner, last, rfl, hfirst, hlast, -⟩ := hspells
    rw [Child.margin, Child.shown, List.append_nil] at hplace
    refine ⟨htokens, hreads, ?_, ?_, ?_, hwhole _ hplace⟩
    · rintro t ⟨⟩
    · intro span h
      exact ⟨_, textOf_between htokens (by rw [hfirst]; rfl) (by rw [hlast]; rfl)⟩
    · rintro e ⟨⟩
  | emptyContainer span =>
    obtain ⟨first, inner, last, rfl, hfirst, hlast, -⟩ := hspells
    rw [Child.margin, Child.shown, List.append_nil] at hplace
    refine ⟨htokens, hreads, ?_, ?_, ?_, hwhole _ hplace⟩
    · rintro t ⟨⟩
    · intro span h
      exact ⟨_, textOf_between htokens (by rw [hfirst]; rfl) (by rw [hlast]; rfl)⟩
    · rintro e ⟨⟩
  | element e =>
    obtain ⟨first, opening, parts, closing, last, rfl, hfirst, hlast, -, -⟩ := element_reads hspells
    have hinner : first :: opening ++ parts.flatten ++ closing ++ [last] =
        first :: (opening ++ parts.flatten ++ closing) ++ [last] := by simp
    rw [Child.margin, Child.shown, List.append_nil] at hplace
    refine ⟨htokens, hreads, ?_, ?_, ?_, hwhole _ hplace⟩
    · rintro t ⟨⟩
    · rintro span (h | ⟨value, h⟩) <;> cases h
    · intro e h
      rw [hinner] at htokens ⊢
      exact ⟨_, textOf_between htokens (by rw [hfirst]; rfl) (by rw [hlast]; rfl)⟩

namespace ChildAt

variable {source : String} {normalize : Bool} {names : Names} {c c' : Child}
  {ts us vs ts' us' vs' : List Token}

/-- The characters of a child: the margin, what is shown and some more. -/
theorem exists_trail (h : ChildAt source normalize names c ts us vs) :
    ∃ trail, textOf us = c.margin ++ c.shown (textOf us) ++ trail := by
  cases c with
  | text t =>
    obtain ⟨trail, hcs, -⟩ := takeWhile_append_trim (textOf us)
    refine ⟨trail, ?_⟩
    rw [Child.margin, Child.shown, h.raw t rfl]
    exact hcs
  | container value span | emptyContainer span | element e => exact ⟨[], (List.append_nil _).symm⟩

/-- Something is shown of a child that is recorded. -/
theorem shown_ne_nil (h : ChildAt source normalize names c ts us vs) (hc : c.isWrappable = true) :
    c.shown (textOf us) ≠ [] := by
  cases c with
  | text t =>
    intro hnil
    rw [Child.shown, ← h.raw t rfl, trim_eq_nil_iff] at hnil
    obtain ⟨x, hx, hblank⟩ := List.any_eq_true.mp hc
    rw [hnil x hx] at hblank
    cases hblank
  | container value span =>
    obtain ⟨inner, hinner⟩ := h.braces span (.inr ⟨value, rfl⟩)
    rw [Child.shown, hinner]
    exact nofun
  | emptyContainer span | element e => cases hc

/-- Children that stand one behind the other. -/
theorem stop_le_pos (h : ChildAt source normalize names c ts us vs)
    (h' : ChildAt source normalize names c' ts' us' vs') (hle : ts ++ us <+: ts') :
    ((siteOf source normalize names).location c.place).stop ≤
      ((siteOf source normalize names).location c'.place).pos := by
  obtain ⟨between, rfl⟩ := hle
  obtain ⟨trail, htrail⟩ := h.exists_trail
  refine h.selects.stop_le_pos h'.selects ⟨trail ++ textOf between ++ c'.margin, ?_⟩
  rw [textOf_append, textOf_append]
  conv_rhs => rw [htrail]
  simp only [List.append_assoc]

end ChildAt

/-- Children that are read one after the other stand one after the other. -/
theorem children_at {source : String} {us : List Token} {parts : List (List Token)} {cs : List Child}
    (h : Sequence (Grammar.child expression (Grammar.element expression)) parts cs us) :
    ∀ {ts : List Token}, tokenize source = ts ++ parts.flatten ++ us → ∀ normalize names,
      (∀ c ∈ cs, ∃ ts' us' vs', ChildAt source normalize names c ts' us' vs' ∧ ts <+: ts' ∧
        us <:+ vs') ∧
      cs.Pairwise fun c c' => ((siteOf source normalize names).location c.place).stop ≤
        ((siteOf source normalize names).location c'.place).pos := by
  induction h with
  | nil => exact fun _ _ _ => ⟨nofun, .nil⟩
  | @cons part us parts c cs head tail ih =>
    intro ts htokens normalize names
    rw [List.flatten_cons, ← List.append_assoc, List.append_assoc _ _ us] at htokens
    have hhead : ChildAt source normalize names c ts part (parts.flatten ++ us) :=
      .of_reads htokens head normalize names
    rw [← List.append_assoc] at htokens
    obtain ⟨hall, hpairwise⟩ := ih htokens normalize names
    refine ⟨?_, .cons ?_ hpairwise⟩
    · intro c' hc'
      rcases List.mem_cons.mp hc' with rfl | hc'
      · exact ⟨ts, part, _, hhead, List.prefix_rfl, List.suffix_append _ _⟩
      · obtain ⟨ts', us', vs', hat, hprefix, hsuffix⟩ := hall c' hc'
        exact ⟨ts', us', vs', hat, (List.prefix_append ts part).trans hprefix, hsuffix⟩
    · intro c' hc'
      obtain ⟨ts', us', vs', hat, hprefix, -⟩ := hall c' hc'
      exact hhead.stop_le_pos hat hprefix

/-- An element is read from tokens of the source, and its location and those of its children select
their text. -/
structure Located (source : String) (normalize : Bool) (names : Names) (e : Element) : Prop where
  /-- The element itself. -/
  whole : ∃ ts us vs inner, tokenize source = ts ++ us ++ vs ∧
    (Grammar.element expression).Reads us e vs ∧ textOf us = '<' :: inner ++ ['>'] ∧
    Selects normalize source.toList ((siteOf source normalize names).location e.span) (textOf ts)
      (textOf us)
  children : ∀ c ∈ e.content.toList, ∃ ts us vs, ChildAt source normalize names c ts us vs
  pos_lt_stop : ((siteOf source normalize names).location e.span).pos <
    ((siteOf source normalize names).location e.span).stop
  inside : ∀ c ∈ e.content.toList,
    ((siteOf source normalize names).location e.span).pos <
      ((siteOf source normalize names).location c.place).pos ∧
    ((siteOf source normalize names).location c.place).stop <
      ((siteOf source normalize names).location e.span).stop
  recorded : ∀ c ∈ e.content.toList, c.isWrappable = true →
    ((siteOf source normalize names).location c.place).pos <
      ((siteOf source normalize names).location c.place).stop
  apart : e.content.toList.Pairwise fun c c' =>
    ((siteOf source normalize names).location c.place).stop ≤
      ((siteOf source normalize names).location c'.place).pos

theorem located_of_reads {source : String} {ts us vs : List Token} {e : Element}
    (htokens : tokenize source = ts ++ us ++ vs)
    (hreads : (Grammar.element expression).Reads us e vs) (normalize : Bool) (names : Names) :
    Located source normalize names e := by
  have hselects := selects_tokens htokens normalize names
  rw [← span_of_reads htokens hreads] at hselects
  obtain ⟨first, opening, parts, closing, last, rfl, hfirst, hlast, -, hcontent⟩ :=
    element_reads hreads
  have hinner : first :: opening ++ parts.flatten ++ closing ++ [last] =
      first :: (opening ++ parts.flatten ++ closing) ++ [last] := by simp
  rw [hinner] at htokens hselects hreads
  have hfirstMem : first ∈ tokenize source := by rw [htokens]; simp
  have hlastMem : last ∈ tokenize source := by rw [htokens]; simp
  have hless : first.text.toList = ['<'] := toList_text_of_character hfirstMem (by rw [hfirst]; rfl)
  have hgreater : last.text.toList = ['>'] := toList_text_of_character hlastMem (by rw [hlast]; rfl)
  have htext := textOf_between htokens (by rw [hfirst]; rfl) (by rw [hlast]; rfl)
  have hchildren : tokenize source = (ts ++ first :: opening) ++ parts.flatten ++
      (closing ++ last :: vs) := by
    rw [htokens]
    simp
  obtain ⟨hall, hapart⟩ := children_at hcontent hchildren normalize names
  refine ⟨⟨ts, _, vs, _, htokens, hreads, htext, hselects⟩, ?_, ?_, ?_, ?_, hapart⟩
  · intro c hc
    obtain ⟨ts', us', vs', hat, -, -⟩ := hall c hc
    exact ⟨ts', us', vs', hat⟩
  · refine hselects.pos_lt_stop ?_
    rw [htext]
    exact nofun
  · intro c hc
    obtain ⟨ts', us', vs', hat, ⟨between, rfl⟩, ⟨further, rfl⟩⟩ := hall c hc
    obtain ⟨trail, htrail⟩ := hat.exists_trail
    have hwhole : first :: (opening ++ parts.flatten ++ closing) ++ [last] =
        first :: opening ++ between ++ us' ++ (further ++ closing ++ [last]) := by
      have hsame := hat.tokens
      rw [htokens] at hsame
      refine (List.append_left_inj vs).mp ((List.append_right_inj ts).mp ?_)
      simpa using hsame
    have hstart : textOf (first :: opening ++ between) ++ c.margin ≠ [] := by simp [hless]
    have hend : trail ++ textOf (further ++ closing ++ [last]) ≠ [] := by simp [hgreater]
    refine hselects.inside hat.selects hstart hend ?_ ?_
    · simp
    · rw [hwhole, textOf_append, textOf_append]
      conv_lhs => rw [htrail]
      simp
  · intro c hc hwrappable
    obtain ⟨ts', us', vs', hat, -, -⟩ := hall c hc
    exact hat.selects.pos_lt_stop (hat.shown_ne_nil hwrappable)

theorem mem_emitted_iff {s : Site} {e : Element} {l : LocationLiteral} :
    l ∈ s.emitted e ↔ (e.hasAttribute sourceAttribute = false ∧ l = s.location e.span) ∨
      recordsChildren e = true ∧ ∃ c ∈ e.content.toList, c.isWrappable = true ∧
        l = s.location c.place := by
  have hrecorded : ∀ c : Child, s.recorded? c = some l ↔
      c.isWrappable = true ∧ l = s.location c.place := by
    intro c
    cases c with
    | text t =>
      rw [Site.recorded?, Child.isWrappable, Child.place]
      cases t.isSignificant <;> simp [eq_comm]
    | container value span =>
      rw [Site.recorded?, Child.isWrappable, Child.place]
      simp [eq_comm]
    | emptyContainer span | element e => simp [Site.recorded?, Child.isWrappable]
  unfold Site.emitted
  rw [List.mem_append]
  refine or_congr ?_ ?_
  · cases e.hasAttribute sourceAttribute <;> simp
  · cases recordsChildren e with
    | false => simp
    | true => simp [List.mem_filterMap, hrecorded]

/-- Of a module that was read, annotation puts in the locations of the elements without a `__source`
of the author's and those of the children that are recorded, no others, and each of them selects the
text that it stands for. -/
theorem locations_select_text {source : String} {m : Module} (h : Module.parse source = .ok m)
    (fileName : String) (o : Options) :
    let site := siteOf source o.normalizeLineEndings (Names.ofModule m o)
    (∀ l, .location l ∈ (annotate m source fileName o).module.parts ↔ ∃ e, .element e ∈ m.parts ∧
      (e.hasAttribute sourceAttribute = false ∧ l = site.location e.span ∨
        recordsChildren e = true ∧ ∃ c ∈ e.content.toList, c.isWrappable = true ∧
          l = site.location c.place)) ∧
    ∀ e, .element e ∈ m.parts → Located source o.normalizeLineEndings (Names.ofModule m o) e := by
  dsimp only
  constructor
  · intro l
    rw [location_mem_annotate_iff h fileName o l]
    simp only [mem_emitted_iff, siteOf]
  · intro e he
    obtain ⟨i, r, ⟨ts, hts⟩, hgives⟩ := Module.allRead_of_parse h _ he
    obtain ⟨us, hus, hreads⟩ := hgives.exists_reads
    rw [hus, ← List.append_assoc] at hts
    exact located_of_reads hts.symm hreads _ _

/-- An element over three lines, each of which ends in a pair. -/
def threeLines : String := "const a = <p>\r\n x \x7bb\x7d\r\n</p>;\r\n"

/-- The locations of its element and the children of that. -/
def threeLinesPlaces : Option (List LocationLiteral) :=
  match Module.parse threeLines with
  | .error _ => none
  | .ok m =>
    match m.body with
    | [.const _ _ (.markup e)] =>
      let site := siteOf threeLines true (Names.ofModule m {})
      some (site.location e.span :: e.content.toList.map fun c => site.location c.place)
    | _ => none

theorem threeLinesPlaces_eq : threeLinesPlaces = some [⟨"__jsxFileName", 1, 10, 25⟩,
    ⟨"__jsxFileName", 2, 15, 16⟩, ⟨"__jsxFileName", 2, 17, 20⟩, ⟨"__jsxFileName", 3, 21, 21⟩] := by
  decide +kernel

/-- Pairs count once. The text of blanks at the end has no width. -/
theorem locations_select_text_pairs : ∃ (m : Module) (e : Element),
    Module.parse threeLines = .ok m ∧ .element e ∈ m.parts ∧
      Located threeLines true (Names.ofModule m {}) e ∧
      (siteOf threeLines true (Names.ofModule m {})).location e.span =
        ⟨"__jsxFileName", 1, 10, 25⟩ ∧
      e.content.toList.map (fun c =>
        (siteOf threeLines true (Names.ofModule m {})).location c.place) =
        [⟨"__jsxFileName", 2, 15, 16⟩, ⟨"__jsxFileName", 2, 17, 20⟩,
          ⟨"__jsxFileName", 3, 21, 21⟩] := by
  have hplaces := threeLinesPlaces_eq
  unfold threeLinesPlaces at hplaces
  split at hplaces
  · cases hplaces
  rename_i m hparse
  split at hplaces
  case h_2 => cases hplaces
  rename_i exported name e hbody
  have he : .element e ∈ m.parts := by
    obtain ⟨tag, attributes, content, span⟩ := e
    rw [Module.parts, hbody]
    simp [partsOfStatements, Statement.parts, Expr.parts, Element.parts]
  obtain ⟨-, hlocated⟩ := locations_select_text hparse "a.jsx" {}
  rw [Option.some.injEq, List.cons_eq_cons] at hplaces
  exact ⟨m, e, hparse, he, hlocated e he, hplaces.1, hplaces.2⟩

end Annotate

end MarkupTrace
