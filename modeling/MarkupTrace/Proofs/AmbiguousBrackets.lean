import MarkupTrace.Proofs.AmbiguousStarts

/-!
# Brackets with two meanings

An opening parenthesis begins parameters and an expression in parentheses, and an opening brace begins
a block and an object. The first of the two is tried first; here it is shown to refuse the print of the
second one. An object with a single name and nothing else reads as a block and is left out.
-/

namespace MarkupTrace.Source.Grammar

open Text Grammar.Parser

theorem Extends.mark_refuses {s : List Char} (h : Extends s) {k : Kind}
    (hk : k ∉ [.dot, .openParen]) : (mark k).Refuses s := by
  refine (mark_starts k).refuses h.front fun t ht hkind => hk ?_
  rcases ht with ht | ht <;> rw [← hkind, ht] <;> decide

theorem comma_refuses {k : Kind} (hk : k ≠ .comma) (s : List Char) : (mark k).Refuses (',' :: s) :=
  (mark_starts k).refuses (front_character (k := .comma) rfl (by decide) s)
    fun _ ht h => hk (h.symm.trans ht)

theorem closeParen_refuses {k : Kind} (hk : k ≠ .closeParen) (s : List Char) :
    (mark k).Refuses (')' :: s) :=
  (mark_starts k).refuses (front_character (k := .closeParen) rfl (by decide) s)
    fun _ ht h => hk (h.symm.trans ht)

theorem colon_refuses {k : Kind} (hk : k ≠ .colon) (s : List Char) : (mark k).Refuses (':' :: s) :=
  (mark_starts k).refuses (front_character (k := .colon) rfl (by decide) s)
    fun _ ht h => hk (h.symm.trans ht)

/-! ## Names in braces -/

section

variable {p : Property} (hp : ∀ x ∈ p.nodes, x.Proper) (depth : Nat) {s : List Char} (hs : Ends s)
include hp hs

theorem property_opens : Solid ((p.printAt depth).toList ++ s) ∧
    Front ((p.printAt depth).toList ++ s) fun t => t.kind = .identifier ∨ t.kind = .ellipsis := by
  cases p with
  | entry k v =>
    have hk : IsIdentifier k := (hp _ (Property.mem_nodes _)).1
    have hword := endsWord_colon (' ' :: ((v.printAt depth).toList ++ s))
    rw [toList_entry]
    exact ⟨solid_identifier hk hword, (front_identifier hk hword).mono fun _ h => .inl h.1⟩
  | shorthand n =>
    have hn : IsName n := (hp _ (Property.mem_nodes _)).2
    exact ⟨solid_identifier hn.1 hs.breaks.endsWord,
      (front_identifier hn.1 hs.breaks.endsWord).mono fun _ h => .inl h.1⟩
  | spread v =>
    rw [toList_spread]
    exact ⟨solid_cons (k := .ellipsis) rfl (by decide), (front_ellipsis _).mono fun _ => .inr⟩

/-- A name at the start of a property is the whole of it or stands before a colon. -/
theorem name_reaches_property : name.Reaches ((p.printAt depth).toList ++ s)
    fun r => r = s ∨ ∃ rest, r = ':' :: rest := by
  cases p with
  | entry k v =>
    have hk : IsIdentifier k := (hp _ (Property.mem_nodes _)).1
    rw [toList_entry]
    exact (identifier_reaches _ hk (endsWord_colon _)).mono fun r hr => .inr ⟨_, hr⟩
  | shorthand n =>
    have hn : IsName n := (hp _ (Property.mem_nodes _)).2
    exact (identifier_reaches _ hn.1 hs.breaks.endsWord).mono fun r hr => .inl hr
  | spread v =>
    rw [toList_spread]
    refine (name_starts.refuses (front_ellipsis _) fun t ht h => ?_).reaches _
    rw [ht] at h
    cases h.1

end

theorem proper_properties {ps : List Property} (h : ∀ x ∈ (Expr.object ps).nodes, x.Proper) :
    ∀ p ∈ ps, ∀ x ∈ p.nodes, x.Proper := by
  rw [Expr.nodes, List.forall_mem_cons, nodesOfProperties_eq] at h
  exact fun p hp x hx => h.2 x (List.mem_flatMap.mpr ⟨p, hp, hx⟩)

/-- What stands in the braces of a printed object. -/
def propertyText (depth : Nat) (ps : List Property) : List Char :=
  joined (fun p => (p.printAt depth).toList) ps

/-- The closing brace of a printed object, and what stands behind it. -/
def braceBehind (s : List Char) : List Char := ' ' :: '\x7d' :: s

theorem ends_braceBehind (s : List Char) : Ends (braceBehind s) :=
  ends_space (k := .closeBrace) (by decide) rfl s

theorem closeBrace_consumes (s : List Char) :
    (mark .closeBrace).Consumes (braceBehind s) s fun _ => True :=
  (mark_consumes (k := .closeBrace) rfl (by decide) s).padded
    (solid_of_character (k := .closeBrace) rfl (by decide) s).skips_space

theorem comma_refuses_brace (s : List Char) : (mark .comma).Refuses (braceBehind s) :=
  ((mark_starts .comma).refuses (front_character (k := .closeBrace) rfl (by decide) s)
    fun _ ht h => nomatch ht.symm.trans h).padded
      (solid_of_character (k := .closeBrace) rfl (by decide) s).skips_space

section

variable (p : Property) (ps : List Property) (depth : Nat) (t : List Char)

/-- Behind a property stands the closing brace, or a comma and further properties. -/
theorem exists_behind_property : ∃ s, Ends s ∧
    propertyText depth (p :: ps) ++ braceBehind t = (p.printAt depth).toList ++ s ∧
      (ps = [] ∧ s = braceBehind t ∨
        ps ≠ [] ∧ s = ',' :: ' ' :: (propertyText depth ps ++ braceBehind t)) := by
  cases ps with
  | nil => exact ⟨_, ends_braceBehind t, rfl, .inl ⟨rfl, rfl⟩⟩
  | cons q qs =>
    refine ⟨_, ends_comma _, ?_, .inr ⟨List.cons_ne_nil q qs, rfl⟩⟩
    rw [propertyText, joined, List.append_assoc]
    rfl

variable {p ps}

theorem properties_open (hps : ∀ q ∈ p :: ps, ∀ x ∈ q.nodes, x.Proper) : Solid (propertyText depth (p :: ps) ++ braceBehind t) ∧
    Front (propertyText depth (p :: ps) ++ braceBehind t)
      fun t => t.kind = .identifier ∨ t.kind = .ellipsis := by
  obtain ⟨s, hs, htext, -⟩ := exists_behind_property p ps depth t
  rw [htext]
  exact property_opens (hps p List.mem_cons_self) depth hs

end

/-- Between the braces of a printed object, names are read up to the closing brace or not up to any. -/
theorem names_reach_brace {ps : List Property} (hps : ∀ p ∈ ps, ∀ x ∈ p.nodes, x.Proper) (depth : Nat)
    (hne : ps ≠ []) {rest t : List Char} (hskips : Skips rest (propertyText depth ps ++ braceBehind t)) :
    (name.separated (mark .comma)).Reaches rest fun r => (mark .closeBrace).Reaches r (· = t) := by
  induction ps generalizing rest with
  | nil => exact absurd rfl hne
  | cons p ps ih =>
    obtain ⟨s, hs, htext, hbehind⟩ := exists_behind_property p ps depth t
    have hopen := (properties_open depth t hps).2
    have hclose : (mark .closeBrace).Refuses (propertyText depth (p :: ps) ++ braceBehind t) := by
      refine (mark_starts _).refuses hopen fun t ht h => ?_
      rw [h] at ht
      rcases ht with ht | ht <;> cases ht
    have hname := name_reaches_property (hps p List.mem_cons_self) depth hs
    rw [← htext] at hname
    refine (hname.padded hskips).separated ((hclose.padded hskips).reaches _) ?_
    rintro r (rfl | ⟨value, rfl⟩)
    · rcases hbehind with ⟨-, rfl⟩ | ⟨hne, rfl⟩
      · exact ⟨(closeBrace_consumes t).reaches, ((comma_refuses_brace t).before _).reaches _⟩
      · obtain ⟨q, qs, rfl⟩ := List.exists_cons_of_ne_nil hne
        have hqs := (List.forall_mem_cons.mp hps).2
        refine ⟨(comma_refuses (k := .closeBrace) nofun _).reaches _, ?_⟩
        refine (mark_consumes (k := .comma) rfl (by decide) _).reaches.before fun r hr => ?_
        exact ih hqs hne (hr ▸ (properties_open depth t hqs).1.skips_space)
    · exact ⟨(colon_refuses (k := .closeBrace) nofun value).reaches _,
        ((colon_refuses (k := .comma) nofun value).before _).reaches _⟩

/-- Names in braces that are read from a printed object are the whole of it. -/
theorem names_reach_object {ps : List Property} (hps : ∀ p ∈ ps, ∀ x ∈ p.nodes, x.Proper)
    (depth : Nat) (t : List Char) : (listed .openBrace .closeBrace name).Reaches
      (((Expr.object ps).printAt depth).toList ++ t) (· = t) := by
  by_cases hne : ps = []
  · subst hne
    rw [toList_object_nil]
    have hname : name.Refuses ('\x7d' :: t) :=
      name_starts.refuses (front_character (k := .closeBrace) rfl (by decide) t)
        fun _ ht h => nomatch ht.symm.trans h.1
    exact (((mark_consumes (k := .openBrace) rfl (by decide) _).before (hname.separated _)).skip
      (mark_consumes (k := .closeBrace) rfl (by decide) t)).reaches
  · rw [toList_object depth hne]
    have hopen : Skips (' ' :: (propertyText depth ps ++ braceBehind t))
        (propertyText depth ps ++ braceBehind t) := by
      obtain ⟨p, ps, rfl⟩ := List.exists_cons_of_ne_nil hne
      exact (properties_open depth t hps).1.skips_space
    refine Reaches.skip (R := fun r => (mark .closeBrace).Reaches r (· = t)) ?_ fun r hr => hr
    refine (mark_consumes (k := .openBrace) rfl (by decide) _).reaches.before fun r hr => ?_
    exact names_reach_brace hps depth hne (hr ▸ hopen)

/-! ## Parameters in parentheses -/

theorem isReserved_of_literalWord {w : String} (h : w ∈ literalWords) : isReserved w = true := by
  simp only [literalWords, List.mem_cons, List.not_mem_nil, or_false] at h
  rcases h with rfl | rfl | rfl | rfl <;> decide

theorem param_refuses {s : List Char} {k : Kind} (hs : Front s fun t => t.kind = k)
    (hk : k ∉ [.openBrace, .identifier]) : param.Refuses s := by
  refine param_starts.refuses hs fun t ht h => hk ?_
  rcases h with h | ⟨h, -⟩ <;> rw [← show t.kind = k from ht, h] <;> decide

theorem param_refuses_word {s : List Char}
    (hs : Front s fun t => t.kind = .identifier ∧ t.text ∈ literalWords) : param.Refuses s := by
  refine param_starts.refuses hs fun t ht h => ?_
  rcases h with h | ⟨-, h⟩
  · cases h.symm.trans ht.1
  · rw [isReserved_of_literalWord ht.2] at h
    cases h

/-- A parameter that is read from a printed expression is the whole of it or stands before a member or
a call. -/
theorem param_reaches : (e : Expr) → (∀ x ∈ e.nodes, x.Proper) → (depth : Nat) → {t : List Char} →
    Breaks t → param.Reaches ((e.printAt depth).toList ++ t) fun r => r = t ∨ Extends r
  | .member object p, h, depth, t, ht => by
    rw [Expr.nodes, List.forall_mem_cons] at h
    have hbehind := extends_member h.1.2.1 t
    rw [toList_member]
    refine (param_reaches object h.2 depth hbehind.breaks).mono fun r hr => .inr ?_
    rcases hr with rfl | hr
    · exact hbehind
    · exact hr
  | .call callee arguments, h, depth, t, ht => by
    rw [Expr.nodes, List.forall_mem_cons, List.forall_mem_append] at h
    cases hcallee : callee.isArrow with
    | false =>
      have hbehind := extends_call (argumentText depth arguments ++ ')' :: t)
      rw [toList_call hcallee]
      refine (param_reaches callee h.2.1 depth hbehind.breaks).mono fun r hr => .inr ?_
      rcases hr with rfl | hr
      · exact hbehind
      · exact hr
    | true =>
      rw [toList_call_arrow hcallee]
      exact (param_refuses (front_character (k := .openParen) rfl (by decide) _)
        (by decide)).reaches _
  | .name n, h, depth, t, ht => by
    have hn : IsName n := (h _ (Expr.mem_nodes _)).2
    have hbraces : (listed .openBrace .closeBrace name).Refuses (n.toList ++ t) := by
      refine (listed_starts _ _ _).refuses (front_identifier hn.1 ht.endsWord) fun t ht h => ?_
      cases ht.1.symm.trans h
    exact .orElse (.mono ((identifier_reaches _ hn.1 ht.endsWord).map _) fun r hr => .inl hr)
      ((hbraces.map _).reaches _)
  | .object ps, h, depth, t, ht => by
    have hname : name.Refuses (((Expr.object ps).printAt depth).toList ++ t) :=
      name_starts.refuses (expr_opens (.object ps) h depth ht).2 fun _ ht h => by
        cases ht.symm.trans h.1
    exact .orElse ((hname.map _).reaches _)
      (.mono ((names_reach_object (proper_properties h) depth t).map _) fun r hr => .inl hr)
  | .text _, h, depth, t, ht =>
    (param_refuses (k := .doubleQuote) (expr_opens _ h depth ht).2 (by decide)).reaches _
  | .number _, h, depth, t, ht =>
    (param_refuses (k := .number) (expr_opens _ h depth ht).2 (by decide)).reaches _
  | .bool _, h, depth, t, ht | .null, h, depth, t, ht | .this, h, depth, t, ht =>
    (param_refuses_word (expr_opens _ h depth ht).2).reaches _
  | .arrow _ _, h, depth, t, ht | .paren _, h, depth, t, ht =>
    (param_refuses (k := .openParen) (expr_opens _ h depth ht).2 (by decide)).reaches _
  | .array _, h, depth, t, ht =>
    (param_refuses (k := .openBracket) (expr_opens _ h depth ht).2 (by decide)).reaches _
  | .markup _, h, depth, t, ht =>
    (param_refuses (k := .less) (expr_opens _ h depth ht).2 (by decide)).reaches _
  | .location _, h, _, _, _ => (h _ (Expr.mem_nodes _)).2.elim
  | .helper _, h, _, _, _ => (h _ (Expr.mem_nodes _)).2.elim

/-- An expression in parentheses is not taken for the parameters of a function. -/
theorem arrow_refuses_parens {e : Expr} (h : ∀ x ∈ e.nodes, x.Proper) (depth : Nat) {s : List Char}
    (hs : Breaks s) : (arrow expression).Refuses ('(' :: ((e.printAt depth).toList ++ ')' :: s)) := by
  have hclose : Ends (')' :: s) := ends_of_character (k := .closeParen) (by decide) rfl s
  have hopens := (expr_opens e h depth hclose.breaks).2
  have hitems : (param.separated (mark .comma)).Reaches ((e.printAt depth).toList ++ ')' :: s)
      fun r => (mark .closeParen).Reaches r (· = s) := by
    refine (param_reaches e h depth hclose.breaks).separated ?_ ?_
    · refine ((mark_starts .closeParen).refuses hopens fun t ht hkind => ?_).reaches _
      have hopening := opens_openingKind e h ht
      rw [hkind] at hopening
      exact absurd hopening (by decide)
    · rintro r (rfl | hr)
      · exact ⟨(mark_consumes (k := .closeParen) rfl (by decide) s).reaches,
          ((closeParen_refuses (k := .comma) nofun s).before _).reaches _⟩
      · exact ⟨(hr.mark_refuses (by decide)).reaches _, ((hr.mark_refuses (by decide)).before _).reaches _⟩
  have hparams : params.Reaches ('(' :: ((e.printAt depth).toList ++ ')' :: s)) (· = s) := by
    refine .orElse (Reaches.skip (R := fun r => (mark .closeParen).Reaches r (· = s)) ?_
      fun r hr => hr) ((name_starts.refuses (front_character (k := .openParen) rfl (by decide) _)
        fun _ ht h => nomatch ht.symm.trans h.1).map _ |>.reaches _)
    refine (mark_consumes (k := .openParen) rfl (by decide) _).reaches.before fun r hr => ?_
    rw [hr]
    exact hitems
  refine ((hparams.refuses_skip fun r hr => ?_).both _).map _
  rw [hr]
  exact hs.mark_refuses (by decide)

/-! ## Blocks and objects -/

theorem exists_toList_of_head {ps : List Property} : (e : Expr) → e.head = .object ps →
    (depth : Nat) → (s : List Char) → ∃ s', (e.printAt depth).toList ++ s =
      ((Expr.object ps).printAt depth).toList ++ s'
  | .object _, h, depth, s => ⟨s, by cases h; rfl⟩
  | .member object p, h, depth, s => by
    obtain ⟨s', hs'⟩ := exists_toList_of_head object h depth ('.' :: (p.toList ++ s))
    exact ⟨s', (toList_member depth object p s).trans hs'⟩
  | .call callee arguments, h, depth, s => by
    cases hcallee : callee.isArrow with
    | false =>
      obtain ⟨s', hs'⟩ := exists_toList_of_head callee h depth
        ('(' :: (argumentText depth arguments ++ ')' :: s))
      exact ⟨s', (toList_call hcallee depth arguments s).trans hs'⟩
    | true => cases callee <;> cases hcallee; cases h
  | .text _, h, _, _ | .number _, h, _, _ | .bool _, h, _, _ | .null, h, _, _ | .this, h, _, _
  | .name _, h, _, _ | .arrow _ _, h, _, _ | .array _, h, _, _ | .paren _, h, _, _
  | .markup _, h, _, _ | .location _, h, _, _ | .helper _, h, _, _ => by cases h

theorem nodes_head_subset (e : Expr) : e.head.nodes ⊆ e.nodes := by
  intro x hx
  fun_induction Expr.head e with
  | case1 inner p ih =>
    rw [Expr.nodes]
    exact List.mem_cons_of_mem _ (ih hx)
  | case2 callee arguments ih =>
    rw [Expr.nodes]
    exact List.mem_cons_of_mem _ (List.mem_append_left _ (ih hx))
  | case3 => exact hx

/-- An expression that begins with an opening brace begins with an object. -/
theorem exists_head_of_opens : (e : Expr) → (∀ x ∈ e.nodes, x.Proper) → {t : Token} → e.Opens t →
    t.kind = .openBrace → ∃ ps, e.head = .object ps
  | .object ps, _, _, _, _ => ⟨ps, rfl⟩
  | .member object _, hn, _, h, ht => by
    rw [Expr.nodes, List.forall_mem_cons] at hn
    exact exists_head_of_opens object hn.2 h ht
  | .call callee _, hn, _, h, ht => by
    rw [Expr.nodes, List.forall_mem_cons, List.forall_mem_append] at hn
    exact exists_head_of_opens callee hn.2.1 h ht
  | .text _, _, _, h, ht | .number _, _, _, h, ht | .arrow _ _, _, _, h, ht | .paren _, _, _, h, ht
  | .array _, _, _, h, ht | .markup _, _, _, h, ht => nomatch ht.symm.trans h
  | .bool _, _, _, h, ht | .null, _, _, h, ht | .this, _, _, h, ht | .name _, _, _, h, ht =>
    nomatch ht.symm.trans h.1
  | .location _, hn, _, _, _ => (hn _ (Expr.mem_nodes _)).2.elim
  | .helper _, hn, _, _, _ => (hn _ (Expr.mem_nodes _)).2.elim

theorem blockStatement_refuses_mark {k : Kind} {c : Char} (hc : k.character? = some c)
    (hk : k ∉ .slash :: openingKinds) (s : List Char) : (blockStatement expression).Refuses (c :: s) := by
  have hslash : k ≠ .slash := by
    rintro rfl
    exact hk List.mem_cons_self
  refine blockStatement_starts.refuses (front_character hc hslash s) fun t ht h => hk ?_
  rw [show t.kind = k from ht] at h
  exact List.mem_cons_of_mem _ h

/-- The first property of several, or of one that is no name, is read up to a comma or a colon. -/
theorem blockStatement_reaches_property {p : Property} (hp : ∀ x ∈ p.nodes, x.Proper) (depth : Nat)
    {s : List Char} (hs : (∃ rest, s = ',' :: rest) ∨ ∀ n, p ≠ .shorthand n) :
    (blockStatement expression).Reaches ((p.printAt depth).toList ++ s) fun r =>
      (mark .closeBrace).Refuses r ∧ (blockStatement expression).Refuses r := by
  have hcolon : ∀ r, (mark .closeBrace).Refuses (':' :: r) ∧
      (blockStatement expression).Refuses (':' :: r) := fun r =>
    ⟨colon_refuses (k := .closeBrace) nofun r, blockStatement_refuses_mark (k := .colon) rfl (by decide) r⟩
  have hcomma : ∀ r, (mark .closeBrace).Refuses (',' :: r) ∧
      (blockStatement expression).Refuses (',' :: r) := fun r =>
    ⟨comma_refuses (k := .closeBrace) nofun r, blockStatement_refuses_mark (k := .comma) rfl (by decide) r⟩
  cases p with
  | entry k v =>
    have hk : IsIdentifier k := (hp _ (Property.mem_nodes _)).1
    rw [toList_entry]
    refine (blockStatement_reaches_behind_identifier hk (endsWord_colon _)
      ((front_character (k := .colon) rfl (by decide) _).mono fun _ => .inl)).mono fun r hr => ?_
    rw [hr]
    exact hcolon _
  | shorthand n =>
    have hn : IsName n := (hp _ (Property.mem_nodes _)).2
    obtain ⟨rest, rfl⟩ := hs.resolve_right fun hnot => hnot n rfl
    refine (blockStatement_reaches_behind_identifier hn.1 (ends_comma rest).breaks.endsWord
      ((front_character (k := .comma) rfl (by decide) _).mono fun _ => .inr)).mono fun r hr => ?_
    rw [hr]
    exact hcomma rest
  | spread v =>
    rw [toList_spread]
    refine (blockStatement_starts.refuses (front_ellipsis _) fun t ht h => ?_).reaches _
    rw [ht] at h
    exact absurd h (by decide)

/-- A block that begins with the first property of an object does not end there. -/
theorem block_refuses_object {ps : List Property} (hps : ∀ p ∈ ps, ∀ x ∈ p.nodes, x.Proper)
    (hne : ps ≠ []) (hsingle : ∀ n, ps ≠ [.shorthand n]) (depth : Nat) (s : List Char) :
    (((mark .openBrace).before (blockStatement expression).many).skip (mark .closeBrace)).Refuses
      (((Expr.object ps).printAt depth).toList ++ s) := by
  obtain ⟨p, ps, rfl⟩ := List.exists_cons_of_ne_nil hne
  obtain ⟨r, -, htext, hbehind⟩ := exists_behind_property p ps depth s
  obtain ⟨hsolid, hopen⟩ := properties_open depth s hps
  have hclose : (mark .closeBrace).Refuses (propertyText depth (p :: ps) ++ braceBehind s) := by
    refine (mark_starts _).refuses hopen fun t ht h => ?_
    rw [h] at ht
    rcases ht with ht | ht <;> cases ht
  have hr : (∃ rest, r = ',' :: rest) ∨ ∀ n, p ≠ .shorthand n := by
    rcases hbehind with ⟨rfl, -⟩ | ⟨-, rfl⟩
    · exact .inr fun n hp => hsingle n (by rw [hp])
    · exact .inl ⟨_, rfl⟩
  have hproperty := blockStatement_reaches_property (hps p List.mem_cons_self) depth hr
  rw [← htext] at hproperty
  rw [toList_object depth hne]
  refine Reaches.refuses_skip (R := fun r => (mark .closeBrace).Refuses r) ?_ fun r hr => hr
  refine (mark_consumes (k := .openBrace) rfl (by decide) _).reaches.before fun t ht => ?_
  rw [ht]
  refine ((hproperty.padded hsolid.skips_space).many fun r hr => hr.2).mono fun r hr => ?_
  rcases hr with rfl | hr
  · exact hclose.padded hsolid.skips_space
  · exact hr.1

/-- The result of a function is not taken for a block, unless it begins with a single name in braces. -/
theorem block_refuses_result {e : Expr} (h : ∀ x ∈ e.nodes, x.Proper) (hempty : e.head ≠ .object [])
    (hsingle : ∀ n, e.head ≠ .object [.shorthand n]) (depth : Nat) {s : List Char} (hs : Breaks s) :
    (((mark .openBrace).before (blockStatement expression).many).skip (mark .closeBrace)).Refuses
      ((e.printAt depth).toList ++ s) := by
  by_cases hhead : ∃ ps, e.head = .object ps
  · obtain ⟨ps, hps⟩ := hhead
    obtain ⟨s', hs'⟩ := exists_toList_of_head e hps depth s
    rw [hs']
    have hnodes : ∀ x ∈ e.head.nodes, x.Proper := fun x hx => h x (nodes_head_subset e hx)
    rw [hps] at hnodes
    exact block_refuses_object (proper_properties hnodes) (fun hnil => hempty (hnil ▸ hps))
      (fun n hn => hsingle n (hn ▸ hps)) depth s'
  · refine (((mark_starts .openBrace).before _).skip _).refuses (expr_opens e h depth hs).2 ?_
    exact fun t ht hkind => hhead (exists_head_of_opens e h ht hkind)

end MarkupTrace.Source.Grammar
