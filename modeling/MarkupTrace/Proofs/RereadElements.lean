import MarkupTrace.Proofs.RereadExpressions

/-!
# Printed elements are read back

Names and values of attributes end where the next attribute or the end of the tag begins. A text
between tags is read up to the mark of the child behind it or of the closing tag, so it is the same
text as long as no other text stands behind it.
-/

namespace MarkupTrace.Source

open Grammar Grammar.Parser

/-! ## Attributes -/

/-- What can stand behind an attribute. -/
def EndsAttribute (s : List Char) : Prop := EndsName s ∧ (mark .equals).Refuses s

def Attribute.Rereads (a : Attribute) : Prop := ∀ depth s, EndsAttribute s →
  (tagAttribute expression).Consumes ((a.printAt depth).toList ++ s) s (·.Resembles a)

namespace Grammar

theorem endsName_equals (s : List Char) : EndsName ('=' :: s) := ⟨'=', s, rfl, by decide⟩

theorem rawString_takes : rawString.Takes fun t => t.kind = .doubleQuote ∨ t.kind = .singleQuote :=
  .orElse ((((((takes_token _).before _).skip _).map _)).mono fun _ => .inl)
    ((((((takes_token _).before _).skip _).map _)).mono fun _ => .inr)

theorem markupName_takes : markupName.Takes fun t => t.kind = .identifier := by
  refine ((takes_single fun t a h => ?_).both _).map _
  split at h
  · assumption
  · cases h

theorem solid_printRaw (raw : String) (s : List Char) :
    ∃ q rest, (printRaw raw).toList ++ s = q :: rest ∧ q ≠ '>' ∧ Solid (q :: rest) := by
  unfold printRaw
  dsimp only
  rw [String.toList_append, String.toList_append, List.append_assoc, List.append_assoc]
  split
  · exact ⟨'\'', _, rfl, by decide, solid_of_character (k := .singleQuote) rfl (by decide) _⟩
  · exact ⟨'"', _, rfl, by decide, solid_of_character (k := .doubleQuote) rfl (by decide) _⟩

end Grammar

namespace Attribute

theorem toList_text (depth : Nat) (name raw : String) (s : List Char) :
    ((Attribute.text name raw).printAt depth).toList ++ s =
      name.toList ++ '=' :: ((printRaw raw).toList ++ s) := by
  simp [Attribute.printAt]

theorem toList_value (depth : Nat) (name : String) (e : Expr) (s : List Char) :
    ((Attribute.value name e).printAt depth).toList ++ s =
      name.toList ++ '=' :: '\x7b' :: ((e.printAt depth).toList ++ '\x7d' :: s) := by
  simp [Attribute.printAt]

theorem toList_spread (depth : Nat) (e : Expr) (s : List Char) :
    ((Attribute.spread e).printAt depth).toList ++ s =
      '\x7b' :: '.' :: '.' :: '.' :: ((e.printAt depth).toList ++ '\x7d' :: s) := by
  simp [Attribute.printAt]

/-- An attribute that begins with its name. -/
theorem named_consumes {name : String} (hname : IsMarkupName name) {t s : List Char}
    (ht : EndsName t) {P : Attribute → Prop}
    (h : ((mark .equals).before (attributeValue expression)).optional.Consumes t s
      fun o => P (match o with
        | some f => f name
        | none => .bare name)) :
    (tagAttribute expression).Consumes (name.toList ++ t) s P := by
  have hspread : ((mark .openBrace).before (mark .ellipsis)).Refuses (name.toList ++ t) :=
    (refuses_kind (front_markupName hname ht) (mark_starts .openBrace) nofun).before _
  refine .orElse_right (.map (((solid_markupName hname ht).skips.before
    (markupName_consumes hname ht)).both h) ?_) (((hspread.before _).skip _).map _)
  rintro ⟨_, o⟩ ⟨rfl, ho⟩
  exact ho

theorem valued_consumes {name : String} (hname : IsMarkupName name) {q : Char} (hq : q ≠ '>')
    {t s : List Char} {P : Attribute → Prop}
    (h : (attributeValue expression).Consumes (q :: t) s fun f => P (f name)) :
    (tagAttribute expression).Consumes (name.toList ++ '=' :: q :: t) s P := by
  refine named_consumes hname (endsName_equals _)
    (((mark_equals_consumes hq t).before h).optional.mono ?_)
  rintro _ ⟨f, rfl, hf⟩
  exact hf

theorem rereads_bare {name : String} (hname : IsMarkupName name) : (Attribute.bare name).Rereads := by
  intro depth s hs
  refine named_consumes hname hs.1 ((hs.2.before _).optional.mono ?_)
  rintro _ rfl
  exact .refl _

theorem rereads_text {name raw : String} (hname : IsMarkupName name)
    (hraw : '"' ∉ raw.toList ∨ '\'' ∉ raw.toList) : (Attribute.text name raw).Rereads := by
  intro depth s _
  rw [toList_text]
  have hread := rawString_consumes hraw s
  obtain ⟨q, rest, htext, hq, hsolid⟩ := solid_printRaw raw s
  rw [htext] at hread ⊢
  refine valued_consumes hname hq (.orElse_left ((hsolid.skips.before hread).map ?_) _)
  rintro _ rfl
  exact .refl _

theorem rereads_value {name : String} (hname : IsMarkupName name) {e : Expr} (h : e.Rereads) :
    (Attribute.value name e).Rereads := by
  intro depth s _
  have hclose : Ends ('\x7d' :: s) := ends_of_character (k := .closeBrace) (by decide) rfl s
  have hraw : (trivia.before rawString).Refuses
      ('\x7b' :: ((e.printAt depth).toList ++ '\x7d' :: s)) := by
    refine rawString_takes.starts.refuses (front_character (k := .openBrace) rfl (by decide) _) ?_
    rintro t ht (h | h) <;> cases ht.symm.trans h
  rw [toList_value]
  exact valued_consumes hname (by decide) (.orElse_right
    ((((mark_consumes (k := .openBrace) rfl (by decide) _).before (h depth _ hclose)).skip
      (mark_consumes (k := .closeBrace) rfl (by decide) s)).map fun e' he => .value name he)
    (hraw.map _))

theorem rereads_spread {e : Expr} (h : e.Rereads) : (Attribute.spread e).Rereads := by
  intro depth s _
  have hclose : Ends ('\x7d' :: s) := ends_of_character (k := .closeBrace) (by decide) rfl s
  rw [toList_spread]
  exact .orElse_left (.map ((((mark_consumes (k := .openBrace) rfl (by decide) _).before
    (mark_ellipsis_consumes _)).before (h depth _ hclose)).skip
      (mark_consumes (k := .closeBrace) rfl (by decide) s)) fun e' he => .spread he) _

theorem opens {a : Attribute} (ha : a.Readable) (depth : Nat) {s : List Char} (hs : EndsName s) :
    Solid ((a.printAt depth).toList ++ s) ∧ Front ((a.printAt depth).toList ++ s)
      fun t => t.kind = .identifier ∨ t.kind = .openBrace := by
  have hnamed : ∀ {name : String} {t : List Char}, IsMarkupName name → EndsName t →
      Solid (name.toList ++ t) ∧ Front (name.toList ++ t)
        fun t => t.kind = .identifier ∨ t.kind = .openBrace := fun hname ht =>
    ⟨solid_markupName hname ht, (front_markupName hname ht).mono fun _ => .inl⟩
  cases a with
  | bare name => exact hnamed ha hs
  | text name raw =>
    rw [toList_text]
    exact hnamed ha.1 (endsName_equals _)
  | value name e =>
    rw [toList_value]
    exact hnamed ha (endsName_equals _)
  | spread e =>
    rw [toList_spread]
    exact ⟨solid_of_character (k := .openBrace) rfl (by decide) _,
      (front_character (k := .openBrace) rfl (by decide) _).mono fun _ => .inr⟩

end Attribute

/-- The end of an opening tag. -/
def EndsTag (s : List Char) : Prop := (∃ rest, s = ' ' :: '/' :: '>' :: rest) ∨ ∃ rest, s = '>' :: rest

theorem solid_slash_greater (s : List Char) : Solid ('/' :: '>' :: s) :=
  solid_slash (k := .greater) rfl (by decide)

namespace EndsTag

variable {s : List Char}

theorem front (h : EndsTag s) : Front s fun t => t.kind = .slash ∨ t.kind = .greater := by
  rcases h with ⟨rest, rfl⟩ | ⟨rest, rfl⟩
  · exact (solid_slash_greater rest).skips_space.front (t := []) rfl fun _ => .inl rfl
  · exact (front_character (k := .greater) rfl (by decide) rest).mono fun _ => .inr

theorem endsAttribute (h : EndsTag s) : EndsAttribute s := by
  refine ⟨?_, (mark_starts _).refuses h.front fun t ht hkind => ?_⟩
  · rcases h with ⟨rest, rfl⟩ | ⟨rest, rfl⟩
    · exact ⟨_, _, rfl, by decide⟩
    · exact ⟨_, _, rfl, by decide⟩
  · rcases ht with ht | ht <;> cases ht.symm.trans hkind

theorem tagAttribute_refuses (h : EndsTag s) : (tagAttribute expression).Refuses s := by
  have hbrace : (mark .openBrace).Refuses s := (mark_starts _).refuses h.front fun t ht hkind => by
    rcases ht with ht | ht <;> cases ht.symm.trans hkind
  have hname : (trivia.before markupName).Refuses s := by
    refine markupName_takes.starts.refuses h.front fun t ht hkind => ?_
    rcases ht with ht | ht <;> cases ht.symm.trans hkind
  exact .orElse ((((hbrace.before _).before _).skip _).map _) ((hname.both _).map _)

end EndsTag

instance {expr : Parser Expr} : Padded (tagAttribute expr) := by
  unfold tagAttribute
  infer_instance

instance : Advances markupName := by
  unfold markupName
  infer_instance

instance : Advances (tagAttribute expression) := by
  unfold tagAttribute
  infer_instance

theorem toList_printAttributes_cons (depth : Nat) (a : Attribute) (as : List Attribute)
    (s : List Char) : (printAttributes depth (a :: as)).toList ++ s =
      ' ' :: ((a.printAt depth).toList ++ ((printAttributes depth as).toList ++ s)) := by
  simp [printAttributes]

section

variable {as : List Attribute} (has : ∀ a ∈ as, a.Readable) (depth : Nat) {s : List Char}
  (hs : EndsTag s)
include has hs

theorem endsAttribute_printAttributes :
    EndsAttribute ((printAttributes depth as).toList ++ s) := by
  induction as with
  | nil => exact hs.endsAttribute
  | cons a as ih =>
    rw [List.forall_mem_cons] at has
    obtain ⟨hsolid, hfront⟩ := Attribute.opens has.1 depth (ih has.2).1
    rw [toList_printAttributes_cons]
    refine ⟨⟨_, _, rfl, by decide⟩, ((mark_starts .equals).refuses hfront ?_).padded
      hsolid.skips_space⟩
    rintro t (ht | ht) h <;> cases ht.symm.trans h

theorem attributes_consume (h : ∀ a ∈ as, a.Rereads) :
    (tagAttribute expression).many.Consumes ((printAttributes depth as).toList ++ s) s
      (List.Forall₂ Attribute.Resembles · as) := by
  induction as with
  | nil =>
    refine hs.tagAttribute_refuses.many.mono ?_
    rintro _ rfl
    exact .nil
  | cons a as ih =>
    rw [List.forall_mem_cons] at has h
    have hends := endsAttribute_printAttributes has.2 depth hs
    have hsolid := (Attribute.opens has.1 depth hends.1).1
    rw [toList_printAttributes_cons]
    refine (((h.1 depth _ hends).padded hsolid.skips_space).many_cons (ih has.2 h.2)).mono ?_
    rintro _ ⟨a', as', rfl, ha, has'⟩
    exact .cons ha has'

end

/-! ## Children -/

/-- A mark at which a text ends. -/
def EndsText (s : List Char) : Prop := ∃ x rest, s = x :: rest ∧ (x = '<' ∨ x = '\x7b')

def Child.Rereads (c : Child) : Prop := ∀ depth s, (c.isText = true → EndsText s) →
  (child expression (Grammar.element expression)).Consumes ((c.printAt depth).toList ++ s) s (·.Resembles c)

namespace Grammar

theorem Parser.Consumes.many1_of_many {α : Type} {p : Parser α} [Advances p] {s r : List Char}
    {T : List α → Prop} (h : p.many.Consumes s r T) (hT : ¬ T []) : p.many1.Consumes s r T := by
  intro offset
  obtain ⟨as, offset', has, hgives⟩ := h offset
  refine ⟨as, offset', has, ?_⟩
  generalize chars offset s = i at hgives ⊢
  generalize chars offset' r = j at hgives ⊢
  cases gives_many.mp hgives with
  | stop => exact absurd has hT
  | more ha _ hrest => exact gives_many1.mpr ⟨_, _, _, ha, hrest, rfl⟩
  | idle ha hlt => exact absurd (Advances.left_lt ha) hlt

theorem container_takes : (container expression).Takes fun t => t.kind = .openBrace :=
  (((takes_token _).both _).both _).map _

theorem markupText_takes : markupText.Takes fun t => t.kind ∉ [.less, .openBrace, .closeBrace] := by
  have htoken : (satisfy fun t => !t.endsText).Takes
      fun t => t.kind ∉ [.less, .openBrace, .closeBrace] :=
    takes_satisfy fun t ht => by
      simpa [Token.endsText, and_assoc] using ht
  intro i c r hc
  obtain ⟨us, hus, -⟩ := gives_map.mp hc
  obtain ⟨u, m, us', hu, -, -⟩ := gives_many1.mp hus
  exact htoken i u m hu

theorem kind_of_character {c : Char} {cs : List Char} (h : c ∉ ['<', '\x7b', '\x7d']) :
    (lexeme c cs).1 ∉ [.less, .openBrace, .closeBrace] := by
  simp only [List.mem_cons, List.not_mem_nil, or_false, not_or] at h ⊢
  refine ⟨fun hk => h.1 ?_, fun hk => h.2.1 ?_, fun hk => h.2.2 ?_⟩ <;>
    exact (lexeme_character (by rw [hk]; rfl)).1

/-- A text is read up to the mark behind it. -/
theorem markupText_consumes {raw : String} (hne : raw ≠ "")
    (hraw : ∀ c ∈ raw.toList, c ∉ ['<', '\x7b', '\x7d']) {s : List Char} (hs : EndsText s) :
    markupText.Consumes (raw.toList ++ s) s fun c => ∃ span, c = .text ⟨raw, span⟩ := by
  obtain ⟨x, rest, rfl, hx⟩ := hs
  have hstop : (satisfy fun t => !t.endsText).Refuses (x :: rest) := by
    refine Takes.refuses (S := fun t => t.endsText = false)
      (takes_satisfy fun t ht => by simpa using ht) fun t ht => ?_
    rcases hx with rfl | rfl <;> simp [Token.endsText, ht, lexeme]
  have hx : StandsAlone x := by rcases hx with rfl | rfl <;> decide
  have haccept : ∀ (t : Token) c more, c ∈ raw.toList → t.kind = (lexeme c more).1 →
      (!t.endsText) = true := by
    intro t c more hc ht
    have hkind := @kind_of_character c more (hraw c hc)
    rw [← ht] at hkind
    simpa [Token.endsText, and_assoc] using hkind
  refine ((many_satisfy_consumes hx haccept hstop).many1_of_many fun hempty => ?_).map
    fun ts hts => ⟨spanOf ts, ?_⟩
  · rw [String.ofList_toList] at hempty
    exact hne hempty.symm
  · rw [hts, String.ofList_toList]

end Grammar

namespace Child

theorem rereads_text {t : MarkupText} (hne : t.raw ≠ "")
    (hraw : ∀ c ∈ t.raw.toList, c ∉ ['<', '\x7b', '\x7d']) : (Child.text t).Rereads := by
  intro depth s hs
  obtain ⟨c, cs, hchars⟩ : ∃ c cs, t.raw.toList = c :: cs :=
    List.exists_cons_of_ne_nil fun hnil => hne (String.toList_inj.mp (hnil.trans rfl))
  have hread := markupText_consumes hne hraw (hs rfl)
  have hkind : ∀ more, (lexeme c more).1 ∉ [.less, .openBrace, .closeBrace] := fun more =>
    kind_of_character (hraw c (hchars ▸ List.mem_cons_self))
  show (child expression (Grammar.element expression)).Consumes (t.raw.toList ++ s) s _
  rw [hchars, List.cons_append] at hread ⊢
  refine .orElse_right (hread.mono ?_) (.orElse (container_takes.refuses fun u hu h => ?_)
    ((element_takes.refuses fun u hu h => ?_).map _))
  · rintro _ ⟨span, rfl⟩
    exact .text rfl
  · exact hkind _ (by rw [← hu, h]; decide)
  · exact hkind _ (by rw [← hu, h]; decide)

theorem toList_container (depth : Nat) (e : Expr) (span : Text.Span) (s : List Char) :
    ((Child.container e span).printAt depth).toList ++ s =
      '\x7b' :: ((e.printAt depth).toList ++ '\x7d' :: s) := by
  simp [Child.printAt]

theorem toList_emptyContainer (depth : Nat) (span : Text.Span) (s : List Char) :
    ((Child.emptyContainer span).printAt depth).toList ++ s = '\x7b' :: '\x7d' :: s := by
  simp [Child.printAt]

theorem rereads_container {e : Expr} (h : e.Rereads) (span : Text.Span) :
    (Child.container e span).Rereads := by
  intro depth s _
  have hclose : Ends ('\x7d' :: s) := ends_of_character (k := .closeBrace) (by decide) rfl s
  rw [toList_container]
  refine .orElse_left (.orElse_left (.map (((token_consumes (k := .openBrace) rfl _).both
    (h depth _ hclose).optional).both (mark_consumes (k := .closeBrace) rfl (by decide) s)) ?_) _) _
  rintro ⟨⟨opening, _⟩, closing⟩ ⟨⟨-, e', rfl, he⟩, -⟩
  exact .container he _ _

theorem rereads_emptyContainer (span : Text.Span) : (Child.emptyContainer span).Rereads := by
  intro depth s _
  have hclose : Ends ('\x7d' :: s) := ends_of_character (k := .closeBrace) (by decide) rfl s
  rw [toList_emptyContainer]
  refine .orElse_left (.orElse_left (.map (((token_consumes (k := .openBrace) rfl _).both
    hclose.expression_refuses.optional).both (mark_consumes (k := .closeBrace) rfl (by decide) s)) ?_)
      _) _
  rintro ⟨⟨opening, _⟩, closing⟩ ⟨⟨-, rfl⟩, -⟩
  exact .emptyContainer _ _

theorem rereads_element {x : Element} (h : x.Rereads) : (Child.element x).Rereads := by
  intro depth s _
  have hread := h depth s
  obtain ⟨rest, hrest⟩ := exists_toList_element depth x s
  show (child expression (Grammar.element expression)).Consumes ((x.printAt depth).toList ++ s) s _
  rw [hrest] at hread ⊢
  refine .orElse_left (.orElse_right (hread.map fun x' hx => .element hx)
    (container_takes.refuses fun t ht h => ?_)) _
  exact nomatch h.symm.trans ht

/-- Where a text ends: every other child begins with such a mark. -/
theorem endsText {c : Child} (hc : c.isText = false) (depth : Nat) (s : List Char) :
    EndsText ((c.printAt depth).toList ++ s) := by
  cases c with
  | text t => cases hc
  | container e span => exact ⟨_, _, toList_container depth e span s, .inr rfl⟩
  | emptyContainer span => exact ⟨_, _, toList_emptyContainer depth span s, .inr rfl⟩
  | element x =>
    obtain ⟨rest, hrest⟩ := exists_toList_element depth x s
    exact ⟨_, rest, hrest, .inl rfl⟩

end Child

/-! ## Elements -/

/-- A closing tag, and what stands behind it. -/
def closingText (name : String) (s : List Char) : List Char := '<' :: '/' :: (name.toList ++ '>' :: s)

section

variable {name : String} (hname : IsMarkupName name) (s : List Char)

theorem endsName_greater : EndsName ('>' :: s) := ⟨'>', s, rfl, by decide⟩

include hname

theorem solid_slash_name : Solid ('/' :: (name.toList ++ '>' :: s)) := by
  obtain ⟨c, text, segments, hchars, hlexeme, -⟩ := exists_lexeme_markupName hname (endsName_greater s)
  rw [hchars, List.cons_append, List.append_assoc]
  exact solid_slash hlexeme (by decide)

theorem closingTag_consumes : closingTag.Consumes (closingText name s) s (·.1 = name) := by
  have hends := endsName_greater s
  exact (((((token_consumes (k := .less) rfl _).both (mark_consumes_of_solid (k := .slash) rfl
    (solid_slash_name hname s))).before ((solid_markupName hname hends).skips.before
      (markupName_consumes hname hends))).both (mark_consumes (k := .greater) rfl (by decide) s))).mono
        fun _ h => h.1

theorem child_refuses_closing :
    (child expression (element expression)).Refuses (closingText name s) := by
  have hmarkup : (trivia.before markupName).Refuses ('/' :: (name.toList ++ '>' :: s)) :=
    refuses_kind ((solid_slash_name hname s).skips.front (t := []) rfl fun _ => rfl)
      markupName_takes.starts nofun
  have helement : (element expression).Refuses (closingText name s) := by
    have hstart := (token_consumes (k := .less) rfl
      ('/' :: (name.toList ++ '>' :: s))).reaches.refuses_both fun r hr => hr ▸ hmarkup
    rw [element_eq]
    exact .charged (.refine ((hstart.both _).both _) _) _
  refine .orElse (.orElse (container_takes.refuses fun t ht h => ?_) (helement.map _))
    (markupText_takes.refuses fun t ht h => ?_)
  · exact nomatch h.symm.trans ht
  · rw [ht] at h
    exact h List.mem_cons_self

end

instance : Advances (container expression) := by
  unfold container
  infer_instance

instance : Advances markupText where
  left_lt := by
    intro i c r h
    obtain ⟨us, hus, -⟩ := gives_map.mp h
    obtain ⟨u, m, us', hu, hrest, -⟩ := gives_many1.mp hus
    exact Nat.lt_of_le_of_lt (left_le_of_suffix hrest.suffix) (Advances.left_lt hu)

instance : Advances (child expression (element expression)) := by
  unfold child
  infer_instance

theorem toList_printChildren_cons (depth : Nat) (c : Child) (cs : List Child) (s : List Char) :
    (printChildren depth (c :: cs)).toList ++ s =
      (c.printAt depth).toList ++ ((printChildren depth cs).toList ++ s) := by
  simp [printChildren]

/-- A text is followed by the mark of another child or of the closing tag. -/
theorem children_consume {cs : List Child} (h : ∀ c ∈ cs, c.Rereads)
    (hchain : cs.IsChain fun c d => c.isText = true → d.isText = false) (depth : Nat) {name : String}
    (hname : IsMarkupName name) (s : List Char) :
    (child expression (element expression)).many.Consumes
      ((printChildren depth cs).toList ++ closingText name s) (closingText name s)
      (List.Forall₂ Child.Resembles · cs) := by
  induction cs with
  | nil =>
    refine (child_refuses_closing hname s).many.mono ?_
    rintro _ rfl
    exact .nil
  | cons c cs ih =>
    rw [List.forall_mem_cons] at h
    rw [List.isChain_cons] at hchain
    rw [toList_printChildren_cons]
    have hbehind : c.isText = true →
        EndsText ((printChildren depth cs).toList ++ closingText name s) := by
      intro hc
      cases cs with
      | nil => exact ⟨_, _, rfl, .inl rfl⟩
      | cons d cs =>
        rw [toList_printChildren_cons]
        exact Child.endsText (hchain.1 d rfl hc) depth _
    refine ((h.1 depth _ hbehind).many_cons (ih h.2 hchain.2)).mono ?_
    rintro _ ⟨c', cs', rfl, hc, hcs⟩
    exact .cons hc hcs

/-- What stands behind the attributes is read as similar content, whatever the element before it. -/
def Content.Rereads (c : Content) : Prop := ∀ depth name s, IsMarkupName name →
  (tail expression (element expression)).Consumes ((c.printAt depth name).toList ++ s) s
    fun t => t.given.Resembles c ∧ ∀ first attributes, ∃ span,
      assemble first name attributes t = some ⟨name, attributes, t.given, span⟩

namespace Content

theorem endsTag (c : Content) (depth : Nat) (name : String) (s : List Char) :
    EndsTag ((c.printAt depth name).toList ++ s) := by
  cases c with
  | selfClosing => exact .inl ⟨s, by simp [Content.printAt]⟩
  | children cs => exact .inr ⟨_, by simp [Content.printAt]; rfl⟩

theorem rereads_selfClosing : Content.selfClosing.Rereads := by
  intro depth name s _
  have htext : (Content.selfClosing.printAt depth name).toList ++ s = ' ' :: '/' :: '>' :: s := by
    simp [Content.printAt]
  rw [htext]
  refine .orElse_left (.map (((mark_consumes_of_solid (k := .slash) rfl
    (solid_slash_greater s)).padded (solid_slash_greater s).skips_space).before
      (mark_consumes (k := .greater) rfl (by decide) s)) fun last _ => ?_) _
  exact ⟨.refl _, fun first attributes => ⟨_, rfl⟩⟩

theorem rereads_children {cs : List Child} (h : ∀ c ∈ cs, c.Rereads)
    (hchain : cs.IsChain fun c d => c.isText = true → d.isText = false) :
    (Content.children cs).Rereads := by
  intro depth name s hname
  have htext : ((Content.children cs).printAt depth name).toList ++ s =
      '>' :: ((printChildren depth cs).toList ++ closingText name s) := by
    simp [Content.printAt, closingText]
  rw [htext]
  have hslash : (mark .slash).Refuses ('>' :: ((printChildren depth cs).toList ++ closingText name s)) :=
    refuses_kind (front_character (k := .greater) rfl (by decide) _) (mark_starts _) nofun
  refine .orElse_right (.map (((mark_consumes (k := .greater) rfl (by decide) _).before
    (children_consume h hchain depth hname s)).both (closingTag_consumes hname s)) ?_)
      ((hslash.before _).map _)
  rintro ⟨cs', closing, last⟩ ⟨hcs, rfl⟩
  exact ⟨.children hcs, fun first attributes => ⟨_, if_pos rfl⟩⟩

end Content

theorem toList_element (depth : Nat) (name : String) (as : List Attribute) (c : Content)
    (span : Text.Span) (s : List Char) : ((Element.mk name as c span).printAt depth).toList ++ s =
      '<' :: (name.toList ++ ((printAttributes depth as).toList ++
        ((c.printAt depth name).toList ++ s))) := by
  simp [Element.printAt]

theorem Element.rereads {name : String} (hname : IsMarkupName name) {as : List Attribute}
    (has : ∀ a ∈ as, a.Readable) (h : ∀ a ∈ as, a.Rereads) {c : Content} (hc : c.Rereads)
    (span : Text.Span) : (Element.mk name as c span).Rereads := by
  intro depth s
  have htag := c.endsTag depth name s
  have hends := (endsAttribute_printAttributes has depth htag).1
  rw [toList_element, element_eq]
  refine .charged (.refine ((((token_consumes (k := .less) rfl _).both
    ((solid_markupName hname hends).skips.before (markupName_consumes hname hends))).both
      (attributes_consume has depth htag h)).both (hc depth name s hname)) ?_) _
  rintro ⟨⟨⟨first, _⟩, as'⟩, t⟩ ⟨⟨⟨-, rfl⟩, has'⟩, ht, hassemble⟩
  obtain ⟨span', hspan⟩ := hassemble first as'
  exact ⟨_, hspan, .mk_of _ has' ht span' span⟩

end MarkupTrace.Source
