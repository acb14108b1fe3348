import MarkupTrace.Proofs.GrammarStarts
import MarkupTrace.Proofs.ReadTokens

/-!
# Modules that are read are readable

Every rule of the grammar yields nodes of the form that a printed one is expected to have. Most of
it is in the rules as they stand. Three facts come from what a rule refused before or behind: no texts
stand side by side, no member is taken of a function that ends with an expression, and no such
function has a body that begins with an empty object.
-/

namespace MarkupTrace.Source

def ReadAll (xs : List Node) : Prop := ∀ x ∈ xs, x.Readable

namespace ReadAll

variable {x : Node} {xs ys : List Node}

theorem cons (hx : x.Readable) (hxs : ReadAll xs) : ReadAll (x :: xs) :=
  List.forall_mem_cons.mpr ⟨hx, hxs⟩

theorem single (hx : x.Readable) : ReadAll [x] := List.forall_mem_singleton.mpr hx

theorem append (hx : ReadAll xs) (hy : ReadAll ys) : ReadAll (xs ++ ys) :=
  List.forall_mem_append.mpr ⟨hx, hy⟩

theorem flatMap {α : Type} {f : α → List Node} {l : List α} (h : ∀ a ∈ l, ReadAll (f a)) :
    ReadAll (l.flatMap f) := by
  intro x hx
  obtain ⟨a, ha, hx⟩ := List.mem_flatMap.mp hx
  exact h a ha x hx

end ReadAll

namespace Grammar

open Grammar.Parser

/-! ## Behind a first token -/

namespace Parser.YieldsIn

variable {α β : Type} {ts us : List Token} {t : Token} {P P' : α → Prop} {Q : β → Prop}
  {p : Parser α} {q : Parser β}

theorem mono (h : YieldsIn ts p P) (hP : ∀ a, P a → P' a) : YieldsIn ts p P' :=
  fun i a r hi ha => hP a (h i a r hi ha)

/-- Behind a token stands an end of what is behind the first one. -/
theorem both_behind [Leaves p] [Advances p] (hp : YieldsIn (t :: us) p P) (hq : YieldsIn us q Q) :
    YieldsIn (t :: us) (p.both q) fun c => P c.1 ∧ Q c.2 := by
  intro i c r hi h
  obtain ⟨m, ha, hb⟩ := gives_both.mp h
  refine ⟨hp _ _ _ hi ha, hq m c.2 r ?_ hb⟩
  have hlt := Advances.left_lt ha
  rw [m.left_eq, i.left_eq] at hlt
  rcases List.suffix_cons_iff.mp ((Leaves.suffix ha).trans hi) with heq | hsuffix
  · rw [heq] at hlt
    exact absurd hi.length_le (Nat.not_le.mpr hlt)
  · exact hsuffix

theorem before_behind [Leaves p] [Advances p] (hq : YieldsIn us q Q) :
    YieldsIn (t :: us) (p.before q) Q :=
  ((any (t :: us) p).both_behind hq).map fun _ h => h.2

theorem listed_behind [Leaves p] (hp : YieldsIn us p P) (opening closing : Kind) :
    YieldsIn (t :: us) (Grammar.listed opening closing p) fun as => ∀ a ∈ as, P a :=
  (before_behind hp.separated).skip _

end Parser.YieldsIn

/-- A repetition ends where the parser fails. -/
theorem Parser.Repeats.fails {α : Type} {p : Parser α} [Advances p] {i r : Input} {as : List α}
    (h : Repeats p i as r) : p.Fails r := by
  induction h with
  | stop h => exact h
  | more _ _ _ ih => exact ih
  | idle h hlt => exact absurd (Advances.left_lt h) hlt

/-! ## Texts side by side -/

theorem markupText_fails_behind {i r : Input} {c : Child} (h : markupText.Gives i c r) :
    markupText.Fails r := by
  obtain ⟨us, hus, -⟩ := gives_map.mp h
  obtain ⟨u, m, us', -, hrest, -⟩ := gives_many1.mp hus
  exact fails_map.mpr (fails_many1.mpr hrest.fails)

theorem markupText_of_child {i r : Input} {c : Child}
    (h : (child expression (element expression)).Gives i c r) (hc : c.isText = true) :
    markupText.Gives i c r := by
  rcases gives_orElse.mp h with h | ⟨-, h⟩
  · rcases gives_orElse.mp h with h | ⟨-, h⟩
    · obtain ⟨⟨⟨opening, value⟩, closing⟩, -, rfl⟩ := gives_map.mp h
      cases value <;> cases hc
    · obtain ⟨e, -, rfl⟩ := gives_map.mp h
      cases hc
  · exact h

theorem Parser.Repeats.head {α : Type} {p : Parser α} {i r : Input} {as : List α}
    (h : Repeats p i as r) : ∀ a ∈ as.head?, ∃ m, p.Gives i a m := by
  cases h with
  | stop => exact nofun
  | more h =>
    rintro a ⟨⟩
    exact ⟨_, h⟩
  | idle h =>
    rintro a ⟨⟩
    exact ⟨_, h⟩

theorem isChain_children {i r : Input} {cs : List Child}
    (h : Repeats (child expression (element expression)) i cs r) :
    cs.IsChain fun c d => c.isText = true → d.isText = false := by
  induction h with
  | stop => exact .nil
  | idle => exact .singleton _
  | @more i m r c cs hc hlt hrest ih =>
    refine List.isChain_cons.mpr ⟨fun d hd htext => ?_, ih⟩
    obtain ⟨n, hd⟩ := hrest.head d hd
    rw [← Bool.not_eq_true]
    intro hdtext
    exact (markupText_of_child hd hdtext).not_fails
      (markupText_fails_behind (markupText_of_child hc htext))

/-! ## Functions that end with an expression, and empty objects -/

theorem expression_stuck {i r : Input} {e : Expr} (h : expression.Gives i e r) :
    (chainStep expression).Fails r := by
  rw [expression_eq] at h
  obtain ⟨c, hc, -⟩ := gives_map.mp (gives_charged.mp h)
  obtain ⟨m, -, hsteps⟩ := gives_both.mp hc
  exact (gives_many.mp hsteps).fails

/-- What is neither a function nor an object nor has one at its start. -/
def IsPlain (e : Expr) : Prop := e.isOpen = false ∧ e.head ≠ .object []

theorem literal_isPlain (ts : List Token) : literal.YieldsIn ts IsPlain := by
  refine .before _ (.firstOf ?_)
  simp only [List.forall_mem_cons, List.not_mem_nil, false_imp_iff, implies_true, and_true]
  refine ⟨.map (.any ts _) ?_, .map (.any ts _) ?_, .map (.any ts _) ?_, .map (.any ts _) ?_,
    .map (.any ts _) ?_, .map (.any ts _) ?_⟩ <;> exact fun _ _ => ⟨rfl, nofun⟩

theorem atom_cases {i r : Input} {e : Expr} (h : (atom expression).Gives i e r) :
    (arrow expression).Gives i e r ∨ (object expression).Gives i e r ∨ IsPlain e := by
  rcases gives_firstOf_cons.mp h with h | ⟨-, h⟩
  · exact .inl h
  rcases gives_firstOf_cons.mp h with h | ⟨-, h⟩
  · obtain ⟨e, -, rfl⟩ := gives_map.mp h
    exact .inr (.inr ⟨rfl, nofun⟩)
  rcases gives_firstOf_cons.mp h with h | ⟨-, h⟩
  · exact .inr (.inr (literal_isPlain i.tokens i e r (List.suffix_refl _) h))
  rcases gives_firstOf_cons.mp h with h | ⟨-, h⟩
  · obtain ⟨e, -, rfl⟩ := gives_map.mp h
    exact .inr (.inr ⟨rfl, nofun⟩)
  rcases gives_firstOf_cons.mp h with h | ⟨-, h⟩
  · obtain ⟨e, -, rfl⟩ := gives_map.mp h
    exact .inr (.inr ⟨rfl, nofun⟩)
  rcases gives_firstOf_cons.mp h with h | ⟨-, h⟩
  · exact .inr (.inl h)
  rcases gives_firstOf_cons.mp h with h | ⟨-, h⟩
  · obtain ⟨e, -, rfl⟩ := gives_map.mp h
    exact .inr (.inr ⟨rfl, nofun⟩)
  · exact absurd h not_gives_firstOf_nil

/-- The body of such a function took all steps that there are. -/
theorem stuck_of_isOpen {i r : Input} {e : Expr} (h : (atom expression).Gives i e r)
    (he : e.isOpen = true) : (chainStep expression).Fails r := by
  rcases atom_cases h with h | h | h
  · obtain ⟨⟨ps, b⟩, hboth, rfl⟩ := gives_map.mp h
    obtain ⟨m, -, hbody⟩ := gives_both.mp hboth
    rcases gives_orElse.mp hbody with hbody | ⟨-, hbody⟩
    · obtain ⟨ss, -, rfl⟩ := gives_map.mp hbody
      cases he
    · obtain ⟨v, hv, rfl⟩ := gives_map.mp hbody
      exact expression_stuck hv
  · obtain ⟨ps, -, rfl⟩ := gives_map.mp h
    cases he
  · exact absurd he (by rw [h.1]; exact Bool.false_ne_true)

theorem chainStep_head (ts : List Token) :
    (chainStep expression).YieldsIn ts fun f => ∀ e, (f e).head = e.head ∧ (f e).isOpen = false := by
  refine .orElse (.map (.any ts _) ?_) (.map (.any ts _) ?_) <;> exact fun _ _ _ => ⟨rfl, rfl⟩

theorem head_foldl {steps : List (Expr → Expr)}
    (h : ∀ f ∈ steps, ∀ e : Expr, (f e).head = e.head ∧ (f e).isOpen = false) (e : Expr) :
    (steps.foldl (fun e step => step e) e).head = e.head := by
  induction steps generalizing e with
  | nil => rfl
  | cons f steps ih =>
    rw [List.forall_mem_cons] at h
    exact (ih h.2 (f e)).trans (h.1 e).1

theorem blockStatement_fails_of_close {i r : Input} {t : Token}
    (h : (mark .closeBrace).Gives i t r) : (blockStatement expression).Fails i := by
  rcases gives_or_fails (blockStatement expression) i with ⟨s, n, hs⟩ | hfails
  · obtain ⟨j, u, t₁, us, hu, hj, hkind⟩ := blockStatement_starts i s n hs
    obtain ⟨j', u', hu', ht⟩ := gives_before.mp h
    obtain ⟨-, rfl⟩ := hu.unique hu'
    obtain ⟨hj', hclose⟩ := gives_token.mp ht
    obtain ⟨rfl, -⟩ := List.cons_eq_cons.mp (hj.symm.trans hj')
    rw [hclose] at hkind
    exact absurd hkind (by decide)
  · exact hfails

/-- An expression that begins with an empty object begins as an empty block does. -/
theorem block_of_head {i r : Input} {e : Expr} (h : expression.Gives i e r)
    (he : e.head = .object []) : ∃ m, (((mark .openBrace).before
      (blockStatement expression).many).skip (mark .closeBrace)).Gives i [] m := by
  rw [expression_eq] at h
  obtain ⟨⟨first, steps⟩, hboth, rfl⟩ := gives_map.mp (gives_charged.mp h)
  obtain ⟨n, hfirst, hsteps⟩ := gives_both.mp hboth
  dsimp only at hfirst hsteps
  have hsame := head_foldl ((chainStep_head n.tokens).many n steps r (List.suffix_refl _) hsteps)
  have hhead : first.head = .object [] := (hsame first).symm.trans he
  rcases atom_cases hfirst with hatom | hatom | hatom
  · obtain ⟨⟨ps, b⟩, -, rfl⟩ := gives_map.mp hatom
    cases hhead
  · obtain ⟨ps, hlisted, rfl⟩ := gives_map.mp hatom
    cases hhead
    obtain ⟨k, closing, hbefore, hclose⟩ := gives_skip.mp hlisted
    obtain ⟨j, opening, hopen, hitems⟩ := gives_before.mp hbefore
    rcases gives_separated.mp hitems with ⟨-, rfl, -⟩ | ⟨a, m, as, l, hcons, -⟩
    · exact ⟨n, gives_skip.mpr ⟨k, closing, gives_before.mpr ⟨k, opening, hopen,
        gives_many.mpr (.stop (blockStatement_fails_of_close hclose))⟩, hclose⟩⟩
    · cases hcons
  · exact absurd hhead hatom.2

/-! ## Elements -/

section

variable {ts : List Token} (hts : Lexed ts)
include hts

section

variable (he : expression.YieldsIn ts fun e => ReadAll e.nodes)
include he

theorem attributeValue_readable : (attributeValue expression).YieldsIn ts fun f =>
    ∀ name, IsMarkupName name → ReadAll (f name).nodes := by
  refine .orElse (.map (.before _ (rawString_yieldsIn hts)) ?_)
    (.map ((YieldsIn.before _ he).skip _) ?_)
  · intro raw hraw name hname
    exact .single ⟨hname, hraw⟩
  · intro e h name hname
    exact .cons (x := .attribute (.value name e)) hname h

theorem tagAttribute_readable :
    (tagAttribute expression).YieldsIn ts fun a => ReadAll a.nodes := by
  refine .orElse (.map ((YieldsIn.before _ he).skip _) ?_)
    (.map (.both (.before _ (markupName_yieldsIn hts))
      (.optional (.before _ (attributeValue_readable hts he)))) ?_)
  · intro e h
    exact .cons (x := .attribute (.spread e)) trivial h
  · rintro ⟨name, value⟩ ⟨hname, hvalue⟩
    cases value with
    | none => exact .single hname
    | some f => exact hvalue f rfl name hname

omit hts in
theorem container_readable : (container expression).YieldsIn ts fun c => ReadAll c.nodes := by
  refine .map (((YieldsIn.any ts _).both he.optional).both (.any ts _)) ?_
  rintro ⟨⟨opening, value⟩, closing⟩ ⟨⟨-, h⟩, -⟩
  cases value with
  | none => exact .single trivial
  | some e => exact .cons (x := .child (.container e _)) trivial (h e rfl)

variable (hel : (element expression).YieldsIn ts fun e => ReadAll e.nodes)
include hel

theorem child_readable :
    (child expression (element expression)).YieldsIn ts fun c => ReadAll c.nodes := by
  refine ((container_readable he).orElse (hel.map ?_)).orElse ((markupText_yieldsIn hts).mono ?_)
  · intro e h
    exact .cons (x := .child (.element e)) trivial h
  · rintro _ ⟨t, rfl, hread⟩
    exact .single hread

theorem tail_readable :
    (tail expression (element expression)).YieldsIn ts fun t => ReadAll t.given.nodes := by
  have hchildren : (child expression (element expression)).many.YieldsIn ts
      fun cs => ReadAll (Content.children cs).nodes := by
    intro i cs r hi h
    refine .cons (x := .content (.children cs)) (isChain_children (gives_many.mp h)) ?_
    rw [nodesOfChildren_eq]
    exact .flatMap ((child_readable hts he hel).many i cs r hi h)
  refine .orElse (.map (.any ts _) ?_) (.map ((YieldsIn.before _ hchildren).both (.any ts _)) ?_)
  · intro last _
    exact .single trivial
  · rintro ⟨cs, closing, last⟩ ⟨h, -⟩
    exact h

end

omit hts in
/-- An element is read behind its first mark. -/
theorem element_readable {t : Token} (hts : Lexed ts)
    (he : expression.YieldsIn ts fun e => ReadAll e.nodes)
    (hel : (element expression).YieldsIn ts fun e => ReadAll e.nodes) :
    (element expression).YieldsIn (t :: ts) fun e => ReadAll e.nodes := by
  rw [element_eq]
  refine .charged (.refine ((((YieldsIn.any (t :: ts) _).both_behind
    (.before _ (markupName_yieldsIn hts))).both_behind
      (tagAttribute_readable hts he).many).both_behind (tail_readable hts he hel)) ?_) _
  rintro ⟨⟨⟨first, name⟩, attributes⟩, tail⟩ ⟨⟨⟨-, hname⟩, hattributes⟩, htail⟩ e h
  have hinside : ReadAll (nodesOfAttributes attributes ++ tail.given.nodes) := by
    rw [nodesOfAttributes_eq]
    exact .append (.flatMap hattributes) htail
  cases tail with
  | selfClosing last =>
    cases Option.mem_some.mp h
    exact .cons (x := .element _) hname hinside
  | children cs closing last =>
    simp only [assemble] at h
    split_ifs at h with hclosing
    · cases Option.mem_some.mp h
      exact .cons (x := .element _) hname hinside
    · cases h

/-! ## Expressions -/

theorem param_readable : param.YieldsIn ts Param.Readable :=
  .orElse ((name_yieldsIn hts).map fun _ h => h) (((name_yieldsIn hts).listed _ _).map fun _ h => h)

theorem params_readable : params.YieldsIn ts fun ps => ∀ x ∈ ps, x.Readable :=
  .orElse ((param_readable hts).listed _ _)
    ((name_yieldsIn hts).map fun _ h => List.forall_mem_singleton.mpr h)

section

variable (he : expression.YieldsIn ts fun e => ReadAll e.nodes)
include he

theorem declaration_readable : (declaration expression).YieldsIn ts fun s =>
    ReadAll s.nodes ∧ s.isImport = false ∧ s.isReturn = false := by
  refine .charged (.map (((((YieldsIn.any ts _).both (name_yieldsIn hts)).skip _).both he).skip _) ?_) _
  rintro ⟨⟨exported, name⟩, value⟩ ⟨⟨-, hname⟩, h⟩
  exact ⟨.cons (x := .statement (.const _ name value)) hname h, rfl, rfl⟩

omit hts in
theorem expressionStatement_readable : (expressionStatement expression).YieldsIn ts fun s =>
    ReadAll s.nodes ∧ s.isImport = false ∧ s.isReturn = false := by
  refine (he.skip _).map fun e h => ?_
  exact ⟨.cons (x := .statement (.expr e)) trivial h, rfl, rfl⟩

omit hts in
theorem returnStatement_readable :
    (returnStatement expression).YieldsIn ts fun s => ReadAll s.nodes ∧ s.isImport = false := by
  refine .map ((YieldsIn.before _ he.optional).skip _) fun value h => ?_
  cases value with
  | none => exact ⟨.single trivial, rfl⟩
  | some e => exact ⟨.cons (x := .statement (.returns e)) trivial (h e rfl), rfl⟩

theorem blockStatement_readable :
    (blockStatement expression).YieldsIn ts fun s => ReadAll s.nodes ∧ s.isImport = false :=
  .orElse (.orElse ((declaration_readable hts he).mono fun _ h => ⟨h.1, h.2.1⟩)
    (returnStatement_readable he)) ((expressionStatement_readable he).mono fun _ h => ⟨h.1, h.2.1⟩)

theorem body_readable : (body expression).YieldsIn ts fun b => ReadAll b.nodes := by
  intro i b r hi h
  rcases gives_orElse.mp h with h | ⟨hfails, h⟩
  · obtain ⟨ss, hss, rfl⟩ := gives_map.mp h
    have hstatements := ((YieldsIn.before (mark .openBrace)
      (blockStatement_readable hts he).many).skip (mark .closeBrace)) i ss r hi hss
    refine .cons (x := .body (.block ss)) (fun s hs => (hstatements s hs).2) ?_
    rw [nodesOfStatements_eq]
    exact .flatMap fun s hs => (hstatements s hs).1
  · obtain ⟨v, hv, rfl⟩ := gives_map.mp h
    refine .cons (x := .body (.result v)) (fun hhead => ?_) (he i v r hi hv)
    obtain ⟨m, hblock⟩ := block_of_head hv hhead
    exact hblock.not_fails (fails_map.mp hfails)

theorem property_readable : (property expression).YieldsIn ts fun p => ReadAll p.nodes := by
  refine .firstOf ?_
  simp only [List.forall_mem_cons, List.not_mem_nil, false_imp_iff, implies_true, and_true]
  refine ⟨.map (.before _ he) ?_, .map ((YieldsIn.any ts _).both he) ?_,
    .map (name_yieldsIn hts) ?_⟩
  · intro e h
    exact .cons (x := .property (.spread e)) trivial h
  · rintro ⟨k, e⟩ ⟨-, h⟩
    exact .cons (x := .property (.entry k e)) trivial h
  · intro n h
    exact .single h

end

theorem literal_readable : literal.YieldsIn ts fun e => ReadAll e.nodes := by
  refine .before _ (.firstOf ?_)
  simp only [List.forall_mem_cons, List.not_mem_nil, false_imp_iff, implies_true, and_true]
  refine ⟨.map (.any ts _) ?_, .map (number_yieldsIn hts) fun n h => .single h, .map (.any ts _) ?_,
    .map (.any ts _) ?_, .map (.any ts _) ?_, .map (.any ts _) ?_⟩ <;>
  · intro _ _
    exact .single trivial

end

section

variable {ts : List Token} {t : Token} (hts : Lexed (t :: ts))
  (he : expression.YieldsIn ts fun e => ReadAll e.nodes)
include hts he

/-- What an atom holds is read behind its first token. -/
theorem atom_readable
    (hel : (element expression).YieldsIn (t :: ts) fun e => ReadAll e.nodes) :
    (atom expression).YieldsIn (t :: ts) fun e => ReadAll e.nodes := by
  have hus := hts.suffix (List.suffix_cons t ts)
  refine .firstOf ?_
  simp only [List.forall_mem_cons, List.not_mem_nil, false_imp_iff, implies_true, and_true]
  refine ⟨.map (((params_readable hts).skip _).both_behind (body_readable hus he)) ?_,
    .map ((YieldsIn.before_behind he).skip _) ?_, literal_readable hts, .map (.before _ hel) ?_,
    (he.listed_behind _ _).map ?_, ((property_readable hus he).listed_behind _ _).map ?_,
    .map (name_yieldsIn hts) ?_⟩
  · rintro ⟨ps, b⟩ ⟨hps, h⟩
    exact .cons (x := .expr (.arrow ps b)) hps h
  · intro e h
    exact .cons (x := .expr (.paren e)) trivial h
  · intro e h
    exact .cons (x := .expr (.markup e)) trivial h
  · intro es h
    refine .cons (x := .expr (.array es)) trivial ?_
    rw [nodesOfItems_eq]
    exact .flatMap h
  · intro ps h
    refine .cons (x := .expr (.object ps)) trivial ?_
    rw [nodesOfProperties_eq]
    exact .flatMap h
  · intro n h
    exact .single h

theorem chainStep_readable : (chainStep expression).YieldsIn (t :: ts) fun f =>
    ∀ e : Expr, ReadAll e.nodes → e.isOpen = false → ReadAll (f e).nodes ∧ (f e).isOpen = false := by
  refine .orElse (.map (.before _ (anyName_yieldsIn hts)) ?_) ((he.listed_behind _ _).map ?_)
  · intro p hp e h hopen
    exact ⟨.cons (x := .expr (.member e p)) ⟨hp, hopen⟩ h, rfl⟩
  · intro arguments harguments e h _
    refine ⟨.cons (x := .expr (.call e arguments)) trivial (h.append ?_), rfl⟩
    rw [nodesOfItems_eq]
    exact .flatMap harguments

/-- Steps are taken from an atom that is no function ending with an expression. -/
theorem expression_readable
    (hel : (element expression).YieldsIn (t :: ts) fun e => ReadAll e.nodes) :
    expression.YieldsIn (t :: ts) fun e => ReadAll e.nodes := by
  intro i e r hi h
  rw [expression_eq] at h
  obtain ⟨⟨first, steps⟩, hboth, rfl⟩ := gives_map.mp (gives_charged.mp h)
  obtain ⟨n, hfirst, hsteps⟩ := gives_both.mp hboth
  dsimp only at hfirst hsteps ⊢
  have hread := atom_readable hts he hel i first n hi hfirst
  cases hopen : first.isOpen with
  | true =>
    cases gives_many.mp hsteps with
    | stop => exact hread
    | more hstep => exact absurd (stuck_of_isOpen hfirst hopen) hstep.not_fails
    | idle hstep => exact absurd (stuck_of_isOpen hfirst hopen) hstep.not_fails
  | false =>
    have hall := (chainStep_readable hts he).many n steps r ((Leaves.suffix hfirst).trans hi) hsteps
    clear hboth h hfirst hsteps
    induction steps generalizing first with
    | nil => exact hread
    | cons f steps ih =>
      rw [List.forall_mem_cons] at hall
      obtain ⟨hread', hopen'⟩ := hall.1 first hread hopen
      exact ih (f first) hread' hopen' hall.2

end

/-- Nothing is read from no tokens. -/
theorem yieldsIn_nil {α : Type} (p : Parser α) [Advances p] (P : α → Prop) : p.YieldsIn [] P := by
  intro i a r hi ha
  have hlt := Advances.left_lt ha
  rw [i.left_eq, List.suffix_nil.mp hi] at hlt
  exact absurd hlt (Nat.not_lt_zero _)

/-- By induction on the tokens: what is inside is read behind the first one. -/
theorem expressions_readable {ts : List Token} (hts : Lexed ts) :
    (expression.YieldsIn ts fun e => ReadAll e.nodes) ∧
      (element expression).YieldsIn ts fun e => ReadAll e.nodes := by
  induction ts with
  | nil => exact ⟨yieldsIn_nil _ _, yieldsIn_nil _ _⟩
  | cons t ts ih =>
    have hus := hts.suffix (List.suffix_cons t ts)
    obtain ⟨he, hel⟩ := ih hus
    have hel' := element_readable (t := t) hus he hel
    exact ⟨expression_readable hts he hel', hel'⟩

/-! ## Imports and modules -/

instance : Leaves namedBinding := by
  unfold namedBinding
  infer_instance

instance : Leaves defaultBinding := by
  unfold defaultBinding
  infer_instance

instance : Leaves namedBindings := by
  unfold namedBindings
  infer_instance

instance : Leaves namespaceBinding := by
  unfold namespaceBinding
  infer_instance

instance : Leaves importClause := by
  unfold importClause namedBindings namespaceBinding
  infer_instance

/-- Named bindings or the whole module. -/
def LaterBindings (bs : List Binding) : Prop :=
  (∀ b ∈ bs, ∃ n, b.imported = .named n ∧ IsIdentifier n ∧ (b.name = n ∨ IsName b.name)) ∨
    ∃ n, bs = [⟨.everything, n⟩] ∧ IsName n

section

variable {ts : List Token} (hts : Lexed ts)
include hts

theorem namedBindings_readable : namedBindings.YieldsIn ts LaterBindings := by
  have hbinding : namedBinding.YieldsIn ts fun b =>
      ∃ n, b.imported = .named n ∧ IsIdentifier n ∧ (b.name = n ∨ IsName b.name) := by
    refine .map ((anyName_yieldsIn hts).both (YieldsIn.before _ (name_yieldsIn hts)).optional) ?_
    rintro ⟨n, bound⟩ ⟨hn, hbound⟩
    cases bound with
    | none => exact ⟨n, rfl, hn, .inl rfl⟩
    | some b => exact ⟨n, rfl, hn, .inr (hbound b rfl)⟩
  exact (hbinding.listed _ _).mono fun _ => .inl

theorem namespaceBinding_readable : namespaceBinding.YieldsIn ts LaterBindings :=
  .map (.before _ (name_yieldsIn hts)) fun n hn => .inr ⟨n, rfl, hn⟩

theorem importClause_readable : importClause.YieldsIn ts fun bs => ∃ first rest, bs = first ++ rest ∧
    (first = [] ∨ ∃ n, first = [⟨.default, n⟩] ∧ IsName n) ∧ LaterBindings rest := by
  have hfirst : defaultBinding.YieldsIn ts fun bs => ∃ n, bs = [⟨.default, n⟩] ∧ IsName n :=
    (name_yieldsIn hts).map fun n hn => ⟨n, rfl, hn⟩
  have hlater := (namedBindings_readable hts).orElse (namespaceBinding_readable hts)
  refine .orElse (.orElse (.map (hfirst.both (YieldsIn.before _ hlater).optional) ?_)
    ((namedBindings_readable hts).mono ?_)) ((namespaceBinding_readable hts).mono ?_)
  · rintro ⟨_, later⟩ ⟨⟨n, rfl, hn⟩, hrest⟩
    refine ⟨[⟨.default, n⟩], later.getD [], rfl, .inr ⟨n, rfl, hn⟩, ?_⟩
    cases later with
    | none => exact .inl nofun
    | some bs => exact hrest bs rfl
  · exact fun bs hbs => ⟨[], bs, rfl, .inl rfl, hbs⟩
  · exact fun bs hbs => ⟨[], bs, rfl, .inl rfl, hbs⟩

theorem importStatement_readable :
    importStatement.YieldsIn ts fun s => ReadAll s.nodes ∧ s.isReturn = false := by
  refine .charged (.map ((((YieldsIn.any ts _).both ((importClause_readable hts).skip _).optional).both
    (.any ts _)).both (.any ts _)) ?_) _
  rintro ⟨⟨⟨first, bindings⟩, specifier, quoted⟩, last⟩ ⟨⟨⟨-, h⟩, -⟩, -⟩
  refine ⟨.single ?_, rfl⟩
  cases bindings with
  | none => exact ⟨[], [], rfl, .inl rfl, .inl nofun⟩
  | some bs => exact h bs rfl

theorem module_readable : module.YieldsIn ts Module.Readable := by
  have he := (expressions_readable hts).1
  have hstatement : statement.YieldsIn ts fun s => ReadAll s.nodes ∧ s.isReturn = false :=
    .orElse (.orElse (importStatement_readable hts)
      ((declaration_readable hts he).mono fun _ h => ⟨h.1, h.2.2⟩))
      ((expressionStatement_readable he).mono fun _ h => ⟨h.1, h.2.2⟩)
  refine .map ((hstatement.many.skip _).skip _) fun ss h => ⟨fun s hs => (h s hs).2, ?_⟩
  show ReadAll (nodesOfStatements ss)
  rw [nodesOfStatements_eq]
  exact .flatMap fun s hs => (h s hs).1

end

end Grammar

/-- What was read from a text can be read again, as far as it is not printed in another way. -/
theorem Module.readable_of_parse {source : String} {m : Module}
    (h : Module.parse source = .ok m) : m.Readable := by
  unfold Module.parse parseWith at h
  split at h
  · rename_i a rest alt ha
    cases h
    exact Grammar.module_readable (lexed_tokenize source) _ _ _ (List.suffix_refl _) ⟨alt, ha⟩
  · cases h

end MarkupTrace.Source
