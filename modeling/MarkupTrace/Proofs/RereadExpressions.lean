import MarkupTrace.Proofs.AmbiguousBrackets
import MarkupTrace.Proofs.ResemblingTrees

/-!
# Printed expressions are read back

An atom is read back by the one alternative that does not refuse its print. Members and calls are read
as steps from the atom on, so what is shown of an expression is that steps behind it go on from there.
What the parts of an expression read as is a hypothesis here.
-/

namespace MarkupTrace.Source

open Grammar Grammar.Parser

/-- Before whatever ends it, the print of the expression is read as a similar one. -/
def Expr.Rereads (e : Expr) : Prop := ∀ depth s, Ends s →
  expression.Consumes ((e.printAt depth).toList ++ s) s (·.Resembles e)

def Property.Rereads (p : Property) : Prop := ∀ depth s, Ends s →
  (property expression).Consumes ((p.printAt depth).toList ++ s) s (·.Resembles p)

def Element.Rereads (x : Element) : Prop := ∀ depth s,
  (element expression).Consumes ((x.printAt depth).toList ++ s) s (·.Resembles x)

/-- A body that is an expression ends where that does. -/
def Body.Rereads (b : Body) : Prop := ∀ depth s, ((Expr.arrow [] b).isOpen = true → Ends s) →
  (body expression).Consumes ((b.printAt depth).toList ++ s) s (·.Resembles b)

/-- What can stand behind the expression: no member or call if it ends with another expression. -/
def Expr.Precedes (e : Expr) (s : List Char) : Prop := Breaks s ∧ (e.isOpen = true → Ends s)

/-- The print of an atom is read as a similar one. -/
def Expr.IsAtom (e : Expr) : Prop := ∀ depth s, e.Precedes s →
  (atom expression).Consumes ((e.printAt depth).toList ++ s) s (·.Resembles e)

/-- The print of the expression is read as an atom and steps to a similar one, and further steps
are taken from there. -/
def Expr.IsChain (e : Expr) : Prop := ∀ depth s r (T : List (Expr → Expr) → Prop), e.Precedes s →
  (chainStep expression).many.Consumes s r T →
    ((atom expression).both (chainStep expression).many).Consumes ((e.printAt depth).toList ++ s) r
      fun c => ∃ e' steps, e'.Resembles e ∧ T steps ∧
        c.2.foldl (fun e step => step e) c.1 = steps.foldl (fun e step => step e) e'

namespace Expr

theorem precedes_of_ends {s : List Char} (h : Ends s) (e : Expr) : e.Precedes s :=
  ⟨h.breaks, fun _ => h⟩

theorem precedes_of_breaks {s : List Char} {e : Expr} (h : Breaks s) (he : e.isOpen = false) :
    e.Precedes s := by
  refine ⟨h, fun hopen => ?_⟩
  rw [he] at hopen
  cases hopen

/-! ## Members and calls -/

theorem IsAtom.isChain {e : Expr} (h : e.IsAtom) : e.IsChain := by
  intro depth s r T hs hsteps
  refine ((h depth s hs).both hsteps).mono ?_
  rintro ⟨e', steps⟩ ⟨he, hT⟩
  exact ⟨e', steps, he, hT, rfl⟩

theorem IsChain.rereads {e : Expr} (h : e.IsChain) : e.Rereads := by
  intro depth s hs
  rw [expression_eq]
  refine .charged (.map (h depth s s _ (precedes_of_ends hs e) hs.chainStep_refuses.many) ?_) _
  rintro ⟨first, steps⟩ ⟨e', _, he, rfl, hfold⟩
  show (steps.foldl (fun e step => step e) first).Resembles e
  rw [hfold]
  exact he

theorem IsChain.member {object : Expr} (h : object.IsChain) {p : String} (hp : IsIdentifier p)
    (hopen : object.isOpen = false) : (Expr.member object p).IsChain := by
  intro depth s r T hs hsteps
  have hword := hs.1.endsWord
  have hstep : (chainStep expression).Consumes ('.' :: (p.toList ++ s)) s
      (· = fun e => Expr.member e p) := by
    have hdot : (mark .dot).Consumes ('.' :: (p.toList ++ s)) (p.toList ++ s) fun _ => True := by
      obtain ⟨c, cs, hchars, hc, -⟩ := hp
      rw [hchars]
      refine mark_dot_consumes ?_ (cs ++ s)
      rintro rfl
      cases hc
    refine .orElse_left (.map (hdot.before (anyName_consumes hp hword)) ?_) _
    rintro _ rfl
    rfl
  rw [toList_member]
  refine (h depth _ r _ (precedes_of_breaks (extends_member hp s).breaks hopen)
    (hstep.many_cons hsteps)).mono ?_
  rintro c ⟨e', _, he, ⟨_, steps, rfl, rfl, hT⟩, hfold⟩
  exact ⟨.member e' p, steps, he.member p, hT, hfold⟩

/-- The items of a list are read back. -/
def ItemsReread (es : List Expr) : Prop := ∀ depth,
  Itemwise expression (fun e => (e.printAt depth).toList) Expr.Resembles es

theorem arguments_consume {es : List Expr} (h : ItemsReread es) (depth : Nat) (s : List Char) :
    (listed .openParen .closeParen expression).Consumes
      ('(' :: (argumentText depth es ++ ')' :: s)) s fun es' => List.Forall₂ Resembles es' es :=
  (h depth).listed_consumes (j := .openParen) (k := .closeParen) rfl (by decide) rfl (by decide)
    (by decide) fun _ => (ends_of_character (k := .closeParen) (by decide) rfl s).expression_refuses

theorem callStep_consumes {es : List Expr} (h : ItemsReread es) (depth : Nat) (s : List Char) :
    (chainStep expression).Consumes ('(' :: (argumentText depth es ++ ')' :: s)) s
      fun f => ∃ es', List.Forall₂ Resembles es' es ∧ f = fun e => .call e es' := by
  have hdot : (mark .dot).Refuses ('(' :: (argumentText depth es ++ ')' :: s)) :=
    (mark_starts _).refuses (front_character (k := .openParen) rfl (by decide) _)
      fun _ ht h => nomatch ht.symm.trans h
  exact .orElse_right ((arguments_consume h depth s).map fun es' hes => ⟨es', hes, rfl⟩)
    ((hdot.before _).map _)

/-- Behind an opening parenthesis stands an expression and not parameters. -/
theorem parens_consume {e : Expr} (h : e.Rereads) (hproper : ∀ x ∈ e.nodes, x.Proper) (depth : Nat)
    {s : List Char} (hs : Breaks s) : (atom expression).Consumes
      ('(' :: ((e.printAt depth).toList ++ ')' :: s)) s
      fun x => ∃ e', e'.Resembles e ∧ x = .paren e' := by
  have hclose : Ends (')' :: s) := ends_of_character (k := .closeParen) (by decide) rfl s
  refine .firstOf_there (.firstOf_here (.map (P := (·.Resembles e)) ?_ ?_) _)
    (arrow_refuses_parens hproper depth hs)
  · exact ((mark_consumes (k := .openParen) rfl (by decide) _).before (h depth _ hclose)).skip
      (mark_consumes (k := .closeParen) rfl (by decide) s)
  · exact fun e' he => ⟨e', he, rfl⟩

theorem parens_reread {e : Expr} (h : e.Rereads) (hproper : ∀ x ∈ e.nodes, x.Proper) (depth : Nat)
    {s : List Char} (hs : Ends s) : expression.Consumes
      ('(' :: ((e.printAt depth).toList ++ ')' :: s)) s
      fun x => ∃ e', e'.Resembles e ∧ x = .paren e' := by
  rw [expression_eq]
  refine .charged (.map ((parens_consume h hproper depth hs.breaks).both
    hs.chainStep_refuses.many) ?_) _
  rintro ⟨_, _⟩ ⟨⟨e', he, rfl⟩, rfl⟩
  exact ⟨e', he, rfl⟩

theorem IsChain.call {callee : Expr} (h : callee.IsChain) (hcallee : callee.isArrow = false)
    {es : List Expr} (hes : ItemsReread es) : (Expr.call callee es).IsChain := by
  have hopen : callee.isOpen = false := by
    cases callee <;> first | rfl | cases hcallee
  intro depth s r T hs hsteps
  rw [toList_call hcallee]
  refine (h depth _ r _ (precedes_of_breaks (extends_call _).breaks hopen)
    ((callStep_consumes hes depth s).many_cons hsteps)).mono ?_
  rintro c ⟨e', _, he, ⟨_, steps, rfl, ⟨es', hes', rfl⟩, hT⟩, hfold⟩
  exact ⟨.call e' es', steps, he.call hes', hT, hfold⟩

/-- A function that is called is printed in parentheses. -/
theorem Rereads.call_arrow {callee : Expr} (h : callee.Rereads)
    (hproper : ∀ x ∈ callee.nodes, x.Proper) (hcallee : callee.isArrow = true) {es : List Expr}
    (hes : ItemsReread es) : (Expr.call callee es).IsChain := by
  intro depth s r T hs hsteps
  rw [toList_call_arrow hcallee]
  refine ((parens_consume h hproper depth (extends_call _).breaks).both
    ((callStep_consumes hes depth s).many_cons hsteps)).mono ?_
  rintro ⟨_, _⟩ ⟨⟨e', he, rfl⟩, _, steps, rfl, ⟨es', hes', rfl⟩, hT⟩
  exact ⟨.call (.paren e') es', steps, he.call_paren hcallee hes', hT, rfl⟩

end Expr

namespace Grammar

/-! ## Literals -/

/-- Before a text without trivia, what is refused behind trivia is refused. -/
theorem Solid.refuses {α : Type} {p : Parser α} {s : List Char} (hs : Solid s)
    (h : (trivia.before p).Refuses s) : p.Refuses s := by
  intro offset
  have hskip : trivia.Gives (chars offset s) () (chars offset s) :=
    gives_map.mpr ⟨[], gives_many.mpr (.stop (hs offset)), rfl⟩
  rcases fails_before.mp (h offset) with hfails | ⟨u, m, hu, hfails⟩
  · exact absurd hfails hskip.not_fails
  · obtain ⟨-, rfl⟩ := hskip.unique hu
    exact hfails

section

variable {s : List Char} {k : Kind} (hs : Front s fun t => t.kind = k)
include hs

theorem arrow_refuses_kind (hk : k ∉ [.openParen, .identifier]) : (arrow expression).Refuses s := by
  refine arrow_starts.refuses hs fun t ht h => hk ?_
  rcases h with h | ⟨h, -⟩ <;> rw [← show t.kind = k from ht, h] <;> decide

theorem literal_refuses_kind (hk : k ∉ [.doubleQuote, .singleQuote, .number, .identifier]) :
    literal.Refuses s := by
  refine literal_starts.refuses hs fun t ht h => hk ?_
  rw [show t.kind = k from ht] at h
  rcases h with h | ⟨h, -⟩
  · simp only [List.mem_cons, List.not_mem_nil, or_false] at h ⊢
    tauto
  · rw [h]
    decide

theorem refuses_kind {α : Type} {p : Parser α} {j : Kind} (hp : p.Starts fun t => t.kind = j)
    (hjk : j ≠ k) : p.Refuses s :=
  hp.refuses hs fun _ ht h => hjk (h.symm.trans ht)

/-- A literal is read before anything but functions and parentheses. -/
theorem literal_atom {P : Expr → Prop} {r : List Char} (hk : k ∉ [.openParen, .identifier])
    (h : literal.Consumes s r P) : (atom expression).Consumes s r P := by
  refine .firstOf_there (.firstOf_there (.firstOf_here h _) (refuses_kind hs paren_starts ?_))
    (arrow_refuses_kind hs hk)
  rintro rfl
  exact hk (by decide)

end

theorem text_consumes {v : String} (hv : Quotable v) (s : List Char) :
    literal.Consumes ((Text.quote v).toList ++ s) s (· = .text v) := by
  refine (solid_string v s).skips.before (.firstOf_here ((string_consumes hv s).map ?_) _)
  rintro ⟨_, span⟩ rfl
  rfl

theorem string_refuses {s : List Char} (hsolid : Solid s) {k : Kind}
    (hs : Front s fun t => t.kind = k) (hk : k ∉ [.doubleQuote, .singleQuote]) :
    Grammar.string.Refuses s := by
  refine hsolid.refuses (string_takes.starts.refuses hs fun t ht h => hk ?_)
  rcases h with h | h <;> rw [← show t.kind = k from ht, h] <;> decide

theorem numeral_consumes (rank : Fin magnitudes) {s : List Char} (hs : EndsNumber s) :
    literal.Consumes ((printNumber (.finite false rank)).toList ++ s) s
      (· = .number (.finite false rank)) := by
  obtain ⟨hsolid, hfront⟩ := front_number rank hs
  refine hsolid.skips.before (.firstOf_there (.firstOf_here ((number_consumes rank hs).map ?_) _)
    ((string_refuses hsolid hfront (by decide)).map _))
  rintro _ rfl
  rfl

/-- The words that stand for values. -/
def fixedWords : List (String × Expr) :=
  [("true", .bool true), ("false", .bool false), ("null", .null), ("this", .this)]

section

variable {w : String} (hw : IsIdentifier w) {s : List Char} (hs : EndsWord s)
include hw hs

theorem isWord_consumes : (satisfy (Token.isWord w)).Consumes (w.toList ++ s) s fun _ => True := by
  obtain ⟨c, cs, hchars, hlexeme, htext⟩ := exists_lexeme_identifier hw hs
  rw [hchars]
  exact (consumes_satisfy hlexeme fun span => by simp [Token.isWord, htext]).mono fun _ _ => trivial

theorem word_refuses {v : String} (hv : v ≠ w) : (word v).Refuses (w.toList ++ s) := by
  refine (word_starts v).refuses (front_identifier hw hs) fun t ht h => hv ?_
  simp only [Token.isWord, Bool.and_eq_true, beq_iff_eq] at h
  exact h.2.symm.trans ht.2

theorem isWord_refuses {v : String} (hv : v ≠ w) :
    (satisfy (Token.isWord v)).Refuses (w.toList ++ s) :=
  (solid_identifier hw hs).refuses (word_refuses hw hs hv)

/-- Other words before it are refused. -/
theorem fixedWord_consumes {e : Expr} {words : List (String × Expr)}
    (hwords : (words.map Prod.fst).Nodup) (h : (w, e) ∈ words) :
    (firstOf (words.map fun x => (satisfy (Token.isWord x.1)).map fun _ => x.2)).Consumes
      (w.toList ++ s) s (· = e) := by
  induction words with
  | nil => cases h
  | cons x words ih =>
    rw [List.map_cons, List.nodup_cons] at hwords
    rw [List.map_cons]
    rcases List.mem_cons.mp h with rfl | h
    · exact .firstOf_here ((isWord_consumes hw hs).map (Q := (· = e)) fun _ _ => rfl) _
    · refine .firstOf_there (ih hwords.2 h) ((isWord_refuses hw hs ?_).map _)
      rintro hx
      exact hwords.1 (hx ▸ List.mem_map_of_mem h)

theorem literalWord_consumes {e : Expr} (h : (w, e) ∈ fixedWords) :
    literal.Consumes (w.toList ++ s) s (· = e) := by
  have hsolid := solid_identifier hw hs
  have hfront := (front_identifier hw hs).mono fun _ => And.left
  have hstring := string_refuses hsolid hfront (by decide)
  have hnumber : Grammar.number.Refuses (w.toList ++ s) :=
    hsolid.refuses (number_takes.starts.refuses hfront fun _ ht h => nomatch ht.symm.trans h)
  exact hsolid.skips.before (.firstOf_there (.firstOf_there
    (fixedWord_consumes hw hs (by decide) h) (hnumber.map _)) (hstring.map _))

end

/-- Marks that begin markup and lists are refused by what is tried before. -/
theorem atom_of_kind {s r : List Char} {k : Kind} (hs : Front s fun t => t.kind = k)
    (hk : k ∉ [.openParen, .doubleQuote, .singleQuote, .number, .identifier]) {P : Expr → Prop}
    (h : (firstOf [markup expression, array expression, object expression,
      name.map Expr.name]).Consumes s r P) : (atom expression).Consumes s r P := by
  simp only [List.mem_cons, List.not_mem_nil, or_false, not_or] at hk
  refine .firstOf_there (.firstOf_there (.firstOf_there h (literal_refuses_kind hs ?_))
    (refuses_kind hs paren_starts (Ne.symm hk.1))) (arrow_refuses_kind hs ?_)
  · simp [hk]
  · simp [hk]

end Grammar

/-! ## Atoms -/

namespace Expr

theorem isAtom_text {v : String} (hv : Quotable v) : (Expr.text v).IsAtom := by
  intro depth s _
  refine literal_atom (front_string v s) (by decide) ((text_consumes hv s).mono ?_)
  rintro _ rfl
  exact .refl _

theorem isAtom_number (rank : Fin magnitudes) : (Expr.number (.finite false rank)).IsAtom := by
  intro depth s hs
  have hnumber := hs.1.endsNumber
  refine literal_atom (front_number rank hnumber).2 (by decide)
    ((numeral_consumes rank hnumber).mono ?_)
  rintro _ rfl
  exact .refl _

theorem isAtom_word {w : String} {e : Expr} (h : (w, e) ∈ fixedWords)
    (hprint : ∀ depth, e.printAt depth = w) : e.IsAtom := by
  intro depth s hs
  have hword := hs.1.endsWord
  have hmem : w ∈ literalWords := List.mem_map_of_mem (f := Prod.fst) h
  obtain ⟨hw, -, hfront⟩ := literalWord_opens hmem hword
  rw [hprint]
  refine .firstOf_there (.firstOf_there (.firstOf_here ((literalWord_consumes hw hword h).mono ?_) _)
    ?_) ?_
  · rintro _ rfl
    exact .refl _
  · exact paren_starts.refuses hfront fun _ ht h => nomatch ht.1.symm.trans h
  · refine arrow_starts.refuses hfront fun t ht h => ?_
    rcases h with h | ⟨-, h⟩
    · cases h.symm.trans ht.1
    · rw [isReserved_of_literalWord ht.2] at h
      cases h

theorem isAtom_name {n : String} (hn : IsName n) : (Expr.name n).IsAtom := by
  intro depth s hs
  have hword := hs.1.endsWord
  have hfront := front_identifier hn.1 hword
  have hkind := hfront.mono fun _ => And.left
  have harrow : (Grammar.arrow expression).Refuses (n.toList ++ s) := by
    refine (((params_reach hn.1 hword).refuses_skip fun r hr => ?_).both _).map _
    rw [hr]
    exact hs.1.mark_refuses (by decide)
  have hliteral : literal.Refuses (n.toList ++ s) := by
    refine literal_starts.refuses hfront fun t ht h => ?_
    rcases h with h | ⟨-, h⟩
    · rw [ht.1] at h
      exact absurd h (by decide)
    · have hreserved := isReserved_of_literalWord h
      rw [ht.2, hn.2] at hreserved
      cases hreserved
  refine .firstOf_there (.firstOf_there (.firstOf_there (.firstOf_there (.firstOf_there
    (.firstOf_there (.firstOf_here ((name_consumes hn hword).map ?_) _)
      (refuses_kind hkind object_starts nofun)) (refuses_kind hkind array_starts nofun))
    (refuses_kind hkind markup_starts nofun)) hliteral) (refuses_kind hkind paren_starts nofun)) harrow
  rintro _ rfl
  exact .refl _

theorem Rereads.isAtom_paren {e : Expr} (h : e.Rereads) (hproper : ∀ x ∈ e.nodes, x.Proper) :
    (Expr.paren e).IsAtom := by
  intro depth s hs
  rw [toList_paren]
  refine (parens_consume h hproper depth hs.1).mono ?_
  rintro _ ⟨e', he, rfl⟩
  exact he.paren

theorem ItemsReread.isAtom_array {es : List Expr} (h : ItemsReread es) : (Expr.array es).IsAtom := by
  intro depth s _
  have hfront := front_character (k := .openBracket) rfl (by decide) (argumentText depth es ++ ']' :: s)
  rw [toList_array]
  refine atom_of_kind hfront (by decide) (.firstOf_there (.firstOf_here (.map
    (P := (List.Forall₂ Resembles · es)) ?_ fun es' hes => .array hes) _)
      (refuses_kind hfront markup_starts nofun))
  exact (h depth).listed_consumes (j := .openBracket) (k := .closeBracket) rfl (by decide) rfl
    (by decide) (by decide)
    fun _ => (ends_of_character (k := .closeBracket) (by decide) rfl s).expression_refuses

theorem property_refuses_brace (s : List Char) : (property expression).Refuses ('\x7d' :: s) := by
  refine property_starts.refuses (front_character (k := .closeBrace) rfl (by decide) s) fun t ht h => ?_
  rw [show t.kind = .closeBrace from ht] at h
  exact absurd h (by decide)

/-- The properties of an object are read back. -/
def PropertiesReread (ps : List Property) : Prop := ∀ depth,
  Itemwise (property expression) (fun p => (p.printAt depth).toList) Property.Resembles ps

theorem PropertiesReread.isAtom_object {ps : List Property} (h : PropertiesReread ps) :
    (Expr.object ps).IsAtom := by
  intro depth s _
  have hlisted : (listed .openBrace .closeBrace (property expression)).Consumes
      (((Expr.object ps).printAt depth).toList ++ s) s (List.Forall₂ Property.Resembles · ps) := by
    by_cases hne : ps = []
    · subst hne
      rw [toList_object_nil]
      exact (h depth).listed_consumes (j := .openBrace) (k := .closeBrace) rfl (by decide) rfl
        (by decide) (by decide) fun _ => property_refuses_brace s
    · rw [toList_object depth hne]
      exact (h depth).listed_consumes_spaced (j := .openBrace) (k := .closeBrace) hne rfl (by decide)
        rfl (by decide) (by decide) s
  have hfront : Front (((Expr.object ps).printAt depth).toList ++ s) fun t => t.kind = .openBrace := by
    cases ps with
    | nil =>
      rw [toList_object_nil]
      exact front_character rfl (by decide) _
    | cons p ps =>
      rw [toList_object depth (List.cons_ne_nil p ps)]
      exact front_character rfl (by decide) _
  exact atom_of_kind hfront (by decide) (.firstOf_there (.firstOf_there (.firstOf_here
    (hlisted.map fun ps' hps => .object_properties hps) _) (refuses_kind hfront array_starts nofun))
      (refuses_kind hfront markup_starts nofun))

theorem isAtom_markup {x : Element} (h : x.Rereads) : (Expr.markup x).IsAtom := by
  intro depth s _
  have helement := h depth s
  obtain ⟨rest, hrest⟩ := exists_toList_element depth x s
  show (atom expression).Consumes ((x.printAt depth).toList ++ s) s _
  rw [hrest] at helement ⊢
  have hsolid : Solid ('<' :: rest) := solid_of_character (k := .less) rfl (by decide) rest
  exact atom_of_kind (front_character (k := .less) rfl (by decide) rest) (by decide)
    (.firstOf_here ((hsolid.skips.before helement).map fun x' hx => .markup hx) _)

theorem isOpen_arrow (ps : List Param) (b : Body) :
    (Expr.arrow ps b).isOpen = (Expr.arrow [] b).isOpen := by
  cases b <;> rfl

theorem isAtom_arrow {ps : List Param} (hps : ∀ p ∈ ps, p.Readable) {b : Body} (h : b.Rereads)
    (hsolid : ∀ depth s, Breaks s → Solid ((b.printAt depth).toList ++ s)) :
    (Expr.arrow ps b).IsAtom := by
  intro depth s hs
  rw [toList_arrow]
  have hbehind : Solid ('=' :: '>' :: ' ' :: ((b.printAt depth).toList ++ s)) :=
    solid_cons (k := .arrow) rfl (by decide)
  refine .firstOf_here (.map ((((params_consumes hps _).skip
    ((mark_arrow_consumes _).padded hbehind.skips_space)).both
      ((h depth s (isOpen_arrow ps b ▸ hs.2)).padded (hsolid depth s hs.1).skips_space))) ?_) _
  rintro ⟨_, b'⟩ ⟨rfl, hb⟩
  exact .arrow_body _ hb

end Expr

/-! ## Properties and results -/

namespace Property

theorem rereads_entry {k : String} (hk : IsIdentifier k) {v : Expr} (h : v.Rereads)
    (hproper : ∀ x ∈ v.nodes, x.Proper) : (Property.entry k v).Rereads := by
  intro depth s hs
  rw [toList_entry]
  have hword := endsWord_colon (' ' :: ((v.printAt depth).toList ++ s))
  have hspread : (mark .ellipsis).Refuses (k.toList ++ ':' :: ' ' :: ((v.printAt depth).toList ++ s)) :=
    refuses_kind ((front_identifier hk hword).mono fun _ => And.left) (mark_starts _) nofun
  refine .firstOf_there (.firstOf_here (.map ((((anyName_consumes hk hword).orElse_left _).skip
    (mark_consumes (k := .colon) rfl (by decide) _)).both
      ((h depth s hs).padded (expr_opens v hproper depth hs.breaks).1.skips_space)) ?_) _)
    ((hspread.before _).map _)
  rintro ⟨_, v'⟩ ⟨rfl, hv⟩
  exact .entry _ hv

theorem rereads_shorthand {n : String} (hn : IsName n) : (Property.shorthand n).Rereads := by
  intro depth s hs
  have hword := hs.breaks.endsWord
  have hfront := (front_identifier hn.1 hword).mono fun _ => And.left
  have hentry : (key.skip (mark .colon)).Refuses (n.toList ++ s) := by
    refine ((anyName_consumes hn.1 hword).orElse_left _).reaches.refuses_skip fun r hr => ?_
    rw [hr]
    exact hs.breaks.mark_refuses (by decide)
  refine .firstOf_there (.firstOf_there (.firstOf_here ((name_consumes hn hword).map ?_) _)
    ((hentry.both _).map _)) (((refuses_kind hfront (mark_starts .ellipsis) nofun).before _).map _)
  rintro _ rfl
  exact .refl _

theorem rereads_spread {v : Expr} (h : v.Rereads) : (Property.spread v).Rereads := by
  intro depth s hs
  rw [toList_spread]
  exact .firstOf_here (((mark_ellipsis_consumes _).before (h depth s hs)).map fun v' hv => .spread hv) _

end Property

theorem Expr.Rereads.result {e : Expr} (h : e.Rereads)
    (hproper : ∀ x ∈ (Body.result e).nodes, x.Proper) : (Body.result e).Rereads := by
  intro depth s hs
  have hends : Ends s := hs rfl
  rw [Body.nodes, List.forall_mem_cons] at hproper
  rw [Body.printAt]
  cases hobject : e.isObject with
  | true =>
    have htext : (parenthesize true (e.printAt depth)).toList ++ s =
        '(' :: ((e.printAt depth).toList ++ ')' :: s) := by
      simp [parenthesize]
    have hfront := front_character (k := .openParen) rfl (by decide)
      ((e.printAt depth).toList ++ ')' :: s)
    rw [htext]
    refine .orElse_right ((Expr.parens_reread h hproper.2 depth hends).map ?_)
      ((((refuses_kind hfront (mark_starts .openBrace) (by decide)).before _).skip _).map _)
    rintro _ ⟨e', he, rfl⟩
    exact .result_paren hobject he
  | false =>
    have hsingle : ∀ n, e.head ≠ .object [.shorthand n] := fun n hn => by
      have := hproper.1.1 n hn
      rw [hobject] at this
      cases this
    exact .orElse_right ((h depth s hends).map fun e' he => .result he)
      ((block_refuses_result hproper.2 hproper.1.2 hsingle depth hends.breaks).map _)

end MarkupTrace.Source
