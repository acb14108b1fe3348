import MarkupTrace.Source.Error
import MarkupTrace.Proofs.Mentions

/-!
# Modules that are read

A parser yields a property if all its values have it, whatever it reads. Every combinator passes the
properties of its parts on, and so the grammar of modules yields trees in which nothing is
generated: location literals and helpers come from annotation alone.
-/

namespace MarkupTrace.Source

namespace Grammar

open Text

/-- Every value of the parser has the property. -/
def Parser.Yields {α : Type} (p : Parser α) (P : α → Prop) : Prop :=
  ∀ input a rest alt, p input = .done a rest alt → P a

namespace Parser.Yields

variable {α β : Type} {P : α → Prop} {Q : β → Prop} {p : Parser α} {q : Parser β}

theorem any (p : Parser α) : Yields p fun _ => True := fun _ _ _ _ _ => trivial

theorem map (hp : Yields p P) {f : α → β} (hf : ∀ a, P a → Q (f a)) : Yields (p.map f) Q := by
  intro input b rest alt h
  unfold Parser.map at h
  cases ha : p input with
  | failed e => simp [ha] at h
  | done a rest' alt' =>
    simp only [ha, Outcome.done.injEq] at h
    obtain ⟨rfl, -, -⟩ := h
    exact hf a (hp input a rest' alt' ha)

theorem both (hp : Yields p P) (hq : Yields q Q) : Yields (p.both q) fun c => P c.1 ∧ Q c.2 := by
  intro input c rest alt h
  unfold Parser.both at h
  cases ha : p input with
  | failed e => simp [ha] at h
  | done a rest₁ alt₁ =>
    simp only [ha] at h
    cases hb : q rest₁ with
    | failed e => cases alt₁ <;> simp [hb] at h
    | done b rest₂ alt₂ =>
      simp only [hb, Outcome.done.injEq] at h
      obtain ⟨rfl, -, -⟩ := h
      exact ⟨hp input a rest₁ alt₁ ha, hq rest₁ b rest₂ alt₂ hb⟩

theorem skip (hp : Yields p P) (q : Parser β) : Yields (p.skip q) P :=
  (hp.both (any q)).map fun _ h => h.1

theorem before (p : Parser α) (hq : Yields q Q) : Yields (p.before q) Q :=
  ((any p).both hq).map fun _ h => h.2

theorem orElse {p' : Parser α} (hp : Yields p P) (hp' : Yields p' P) : Yields (p.orElse p') P := by
  intro input a rest alt h
  unfold Parser.orElse at h
  cases ha : p input with
  | done b rest₁ alt₁ =>
    simp only [ha, Outcome.done.injEq] at h
    obtain ⟨rfl, -, -⟩ := h
    exact hp input b rest₁ alt₁ ha
  | failed e =>
    simp only [ha] at h
    cases hb : p' input with
    | failed e' => simp [hb] at h
    | done b rest₁ alt₁ =>
      simp only [hb, Outcome.done.injEq] at h
      obtain ⟨rfl, -, -⟩ := h
      exact hp' input b rest₁ alt₁ hb

theorem firstOf {ps : List (Parser α)} (h : ∀ p ∈ ps, Yields p P) : Yields (Parser.firstOf ps) P := by
  suffices ∀ alt, Yields (firstAfter alt ps) P from this none
  induction ps with
  | nil =>
    intro alt input a rest alt' hr
    cases hr
  | cons p ps ih =>
    intro alt input a rest alt' hr
    rw [firstAfter] at hr
    cases ha : p input with
    | done b rest₁ alt₁ =>
      simp only [ha, Outcome.done.injEq] at hr
      obtain ⟨rfl, -, -⟩ := hr
      exact h p List.mem_cons_self input b rest₁ alt₁ ha
    | failed e =>
      simp only [ha] at hr
      exact ih (fun p hp => h p (List.mem_cons_of_mem _ hp)) _ input a rest alt' hr

theorem optional (hp : Yields p P) : Yields p.optional fun o => ∀ a ∈ o, P a := by
  intro input o rest alt h
  unfold Parser.optional at h
  cases ha : p input with
  | failed e =>
    simp only [ha, Outcome.done.injEq] at h
    obtain ⟨rfl, -, -⟩ := h
    intro a ha
    cases ha
  | done a rest' alt' =>
    simp only [ha, Outcome.done.injEq] at h
    obtain ⟨rfl, -, -⟩ := h
    intro b hb
    cases Option.mem_some.mp hb
    exact hp input a rest' alt' ha

theorem manyAfter (hp : Yields p P) (alt : Option Blame) :
    Yields (p.manyAfter alt) fun as => ∀ a ∈ as, P a := by
  intro input
  fun_induction Parser.manyAfter p alt input with
  | case1 alt input e he =>
    intro as rest alt' h
    cases h
    simp
  | case2 alt input a rest₁ alt₁ ha alt₂ hlt as rest₂ alt₃ hm ih =>
    intro as' rest alt' h
    cases h
    intro b hb
    rcases List.mem_cons.mp hb with rfl | hb
    · exact hp input b rest₁ alt₁ ha
    · exact ih as _ _ hm b hb
  | case3 alt input a rest₁ alt₁ ha alt₂ hlt e he =>
    intro as rest alt' h
    cases h
  | case4 alt input a rest₁ alt₁ ha alt₂ hlt =>
    intro as rest alt' h
    cases h
    intro b hb
    cases List.mem_singleton.mp hb
    exact hp input a _ alt₁ ha

theorem many (hp : Yields p P) : Yields p.many fun as => ∀ a ∈ as, P a := hp.manyAfter none

theorem itemsAfter (hp : Yields p P) (separator : Parser β) (alt : Option Blame) (input : Input) :
    ∀ a ∈ (p.itemsAfter separator alt input).1, P a := by
  fun_induction Parser.itemsAfter p separator alt input with
  | case1 => simp
  | case2 => simp
  | case3 alt input b rest₁ alt₁ hs alt₂ a rest₂ alt₃ ha alt₄ hlt as rest₃ alt₅ ended hi ih =>
    rw [hi] at ih
    intro x hx
    rcases List.mem_cons.mp hx with rfl | hx
    · exact hp rest₁ x rest₂ alt₃ ha
    · exact ih x hx
  | case4 alt input b rest₁ alt₁ hs alt₂ a rest₂ alt₃ ha alt₄ hlt =>
    intro x hx
    cases List.mem_singleton.mp hx
    exact hp rest₁ a rest₂ alt₃ ha

theorem separated (hp : Yields p P) (separator : Parser β) :
    Yields (p.separated separator) fun as => ∀ a ∈ as, P a := by
  intro input as rest alt h
  unfold Parser.separated at h
  cases ha : p input with
  | failed e =>
    simp only [ha, Outcome.done.injEq] at h
    obtain ⟨rfl, -, -⟩ := h
    simp
  | done a rest₁ alt₁ =>
    have hitems := hp.itemsAfter separator alt₁ rest₁
    rcases hi : p.itemsAfter separator alt₁ rest₁ with ⟨bs, rest₂, alt₂, ended⟩
    rw [hi] at hitems
    have has : as = a :: bs := by
      simp only [ha, hi] at h
      cases hs : separator rest₂ <;> simp only [hs, Outcome.done.injEq] at h <;> exact h.1.symm
    subst has
    intro x hx
    rcases List.mem_cons.mp hx with rfl | hx
    · exact hp input x rest₁ alt₁ ha
    · exact hitems x hx

theorem refine (hp : Yields p P) {f : α → Option β} (hf : ∀ a, P a → ∀ b ∈ f a, Q b) :
    Yields (p.refine f) Q := by
  intro input b rest alt h
  unfold Parser.refine at h
  cases ha : p input with
  | failed e => simp [ha] at h
  | done a rest₁ alt₁ =>
    simp only [ha] at h
    cases hb : f a with
    | none => simp [hb] at h
    | some b' =>
      simp only [hb, Outcome.done.injEq] at h
      obtain ⟨rfl, -, -⟩ := h
      exact hf a (hp input a rest₁ alt₁ ha) b' hb

theorem charged (hp : Yields p P) (name : String) : Yields (p.charged name) P := by
  intro input a rest alt h
  unfold Parser.charged at h
  cases ha : p input with
  | failed e => simp [ha] at h
  | done b rest₁ alt₁ =>
    simp only [ha, Outcome.done.injEq] at h
    obtain ⟨rfl, -, -⟩ := h
    exact hp input b rest₁ alt₁ ha

/-- By induction on the number of tokens left: the parser that stands for itself inside is only
used where fewer are left. -/
theorem recursive {body : Parser α → Parser α} (h : ∀ p, Yields p P → Yields (body p) P) :
    Yields (Parser.recursive body) P := by
  intro input
  generalize hn : input.left = n
  induction n using Nat.strongRecOn generalizing input with
  | ind n ih =>
    intro a rest alt hr
    rw [Parser.recursive] at hr
    refine h _ ?_ input a rest alt hr
    intro inner b rest' alt' hb
    dsimp only at hb
    split_ifs at hb with hlt
    exact ih inner.left (hn ▸ hlt) inner rfl b rest' alt' hb

end Parser.Yields

theorem listed_yields {α : Type} {P : α → Prop} {item : Parser α} (h : item.Yields P)
    (opening closing : Kind) :
    (listed opening closing item).Yields fun as => ∀ a ∈ as, P a :=
  (Parser.Yields.before _ (h.separated _)).skip _

/-! ## Nothing generated is read -/

/-- Nothing in the mentions is generated. -/
def Written (mentions : List Mention) : Prop := .generated ∉ mentions

namespace Written

theorem nil : Written [] := List.not_mem_nil

theorem append {xs ys : List Mention} (hx : Written xs) (hy : Written ys) : Written (xs ++ ys) := by
  intro h
  rcases List.mem_append.mp h with h | h
  · exact hx h
  · exact hy h

theorem cons {x : Mention} (hx : x ≠ .generated) {xs : List Mention} (h : Written xs) :
    Written (x :: xs) := by
  intro h'
  rcases List.mem_cons.mp h' with h' | h'
  · exact hx h'.symm
  · exact h h'

theorem flatMap {α : Type} {f : α → List Mention} {l : List α} (h : ∀ a ∈ l, Written (f a)) :
    Written (l.flatMap f) := by
  intro hx
  obtain ⟨a, ha, hx⟩ := List.mem_flatMap.mp hx
  exact h a ha hx

theorem map {α : Type} {f : α → Mention} (h : ∀ a, f a ≠ .generated) (l : List α) :
    Written (l.map f) := by
  intro hx
  obtain ⟨a, -, hx⟩ := List.mem_map.mp hx
  exact h a hx

end Written

theorem written_params (ps : List Param) : Written (ps.flatMap Param.mentions) := by
  refine .flatMap ?_
  intro p _
  cases p with
  | name n => exact .cons (by simp) .nil
  | properties ns => exact .flatMap fun n _ => .cons (by simp) (.cons (by simp) .nil)

theorem written_tag (name : String) : Written (mentionsOfTag name) := by
  unfold mentionsOfTag
  split_ifs with h
  · exact .nil
  · cases Eval.segments name with
    | nil => exact .nil
    | cons first rest => exact .cons (by simp) (.map (by simp) rest)

theorem written_element {as : List Attribute} {c : Content}
    (has : ∀ a ∈ as, Written a.mentions) (hc : Written c.mentions) (name : String) (span : Span) :
    Written (Element.mk name as c span).mentions := by
  simp only [Element.mentions, mentionsOfAttributes_eq]
  refine (written_tag name).append (.append ?_ ((Written.flatMap has).append hc))
  split_ifs with h
  · exact .nil
  · exact .cons (by simp) .nil

/-! ## The grammar -/

section

variable {expr : Parser Expr} (he : expr.Yields fun e => Written e.mentions)
include he

theorem attributeValue_yields :
    (attributeValue expr).Yields fun f => ∀ name, Written (f name).mentions := by
  refine .orElse (.map (.any _) ?_) (.map ((Parser.Yields.before _ he).skip _) ?_)
  · intro raw _ name
    simpa only [Attribute.mentions] using Written.nil
  · intro e h name
    simpa only [Attribute.mentions] using h

theorem tagAttribute_yields : (tagAttribute expr).Yields fun a => Written a.mentions := by
  refine .orElse (.map ((Parser.Yields.before _ he).skip _) ?_)
    (.map (.both (.any _) (.optional (.before _ (attributeValue_yields he)))) ?_)
  · intro e h
    simpa only [Attribute.mentions] using h
  · rintro ⟨name, value⟩ ⟨-, h⟩
    cases value with
    | none => simpa only [Attribute.mentions] using Written.nil
    | some f => exact h f rfl name

theorem container_yields : (container expr).Yields fun c => Written c.mentions := by
  refine .map (((Parser.Yields.any _).both he.optional).both (.any _)) ?_
  rintro ⟨⟨opening, value⟩, closing⟩ ⟨⟨-, h⟩, -⟩
  cases value with
  | none => simpa only [Child.mentions] using Written.nil
  | some e => simpa only [Child.mentions] using h e rfl

theorem child_yields {element : Parser Element} (hel : element.Yields fun e => Written e.mentions) :
    (child expr element).Yields fun c => Written c.mentions := by
  refine ((container_yields he).orElse (hel.map ?_)).orElse (.map (.any _) ?_)
  · intro e h
    simpa only [Child.mentions] using h
  · intro ts _
    simpa only [Child.mentions] using Written.nil

/-- The children that a tail holds. -/
def Tail.content : Tail → Content
  | .selfClosing _ => .selfClosing
  | .children cs _ _ => .children cs

theorem tail_yields {element : Parser Element} (hel : element.Yields fun e => Written e.mentions) :
    (tail expr element).Yields fun t => Written t.content.mentions := by
  refine .orElse (.map (.any _) ?_)
    (.map ((Parser.Yields.before _ (child_yields he hel).many).both (.any _)) ?_)
  · intro last _
    simpa only [Tail.content, Content.mentions] using Written.nil
  · rintro ⟨cs, closing, last⟩ ⟨h, -⟩
    simpa only [Tail.content, Content.mentions, mentionsOfChildren_eq] using Written.flatMap h

theorem element_yields : (element expr).Yields fun e => Written e.mentions := by
  refine .recursive fun p hp => .charged (.refine
    (((Parser.Yields.any _).both (tagAttribute_yields he).many).both (tail_yields he hp)) ?_) _
  rintro ⟨⟨⟨first, name⟩, attributes⟩, t⟩ ⟨⟨-, has⟩, ht⟩ e h
  cases t with
  | selfClosing last =>
    cases Option.mem_some.mp h
    exact written_element has ht name _
  | children cs closing last =>
    simp only [assemble] at h
    split_ifs at h with hclosing
    · cases Option.mem_some.mp h
      exact written_element has ht name _
    · cases h

theorem declaration_yields : (declaration expr).Yields fun s => Written s.mentions := by
  refine .charged (.map ((((Parser.Yields.any _).both he).skip _)) ?_) _
  rintro ⟨⟨exported, name⟩, value⟩ ⟨-, h⟩
  simpa only [Statement.mentions] using h.cons (by simp)

theorem expressionStatement_yields :
    (expressionStatement expr).Yields fun s => Written s.mentions := by
  refine (he.skip _).map ?_
  intro e h
  simpa only [Statement.mentions] using h

theorem returnStatement_yields : (returnStatement expr).Yields fun s => Written s.mentions := by
  refine .map ((Parser.Yields.before _ he.optional).skip _) ?_
  intro value h
  cases value with
  | none => simpa only [Statement.mentions] using Written.nil
  | some e => simpa only [Statement.mentions] using h e rfl

theorem body_yields : (body expr).Yields fun b => Written b.mentions := by
  have hs := ((declaration_yields he).orElse (returnStatement_yields he)).orElse
    (expressionStatement_yields he)
  refine .orElse (.map ((Parser.Yields.before _ hs.many).skip _) ?_) (he.map ?_)
  · intro ss h
    simpa only [Body.mentions, mentionsOfStatements_eq] using Written.flatMap h
  · intro e h
    simpa only [Body.mentions] using h

theorem arrow_yields : (arrow expr).Yields fun e => Written e.mentions := by
  refine .map ((Parser.Yields.any _).both (body_yields he)) ?_
  rintro ⟨ps, b⟩ ⟨-, h⟩
  simpa only [Expr.mentions] using (written_params ps).append h

omit he in
theorem literal_yields : literal.Yields fun e => Written e.mentions := by
  refine .before _ (.firstOf ?_)
  simp only [List.forall_mem_cons, List.not_mem_nil, false_imp_iff, implies_true, and_true]
  refine ⟨.map (.any _) ?_, .map (.any _) ?_, .map (.any _) ?_, .map (.any _) ?_,
    .map (.any _) ?_, .map (.any _) ?_⟩ <;>
  · intro _ _
    simpa only [Expr.mentions] using Written.nil

theorem property_yields : (property expr).Yields fun p => Written p.mentions := by
  refine .firstOf ?_
  simp only [List.forall_mem_cons, List.not_mem_nil, false_imp_iff, implies_true, and_true]
  refine ⟨.map (.before _ he) ?_, .map ((Parser.Yields.any _).both he) ?_, .map (.any _) ?_⟩
  · intro e h
    simpa only [Property.mentions] using h
  · rintro ⟨k, e⟩ ⟨-, h⟩
    simpa only [Property.mentions] using h
  · intro n _
    simpa only [Property.mentions] using Written.nil.cons (by simp)

theorem atom_yields : (atom expr).Yields fun e => Written e.mentions := by
  refine .firstOf ?_
  simp only [List.forall_mem_cons, List.not_mem_nil, false_imp_iff, implies_true, and_true]
  refine ⟨arrow_yields he, .map ((Parser.Yields.before _ he).skip _) ?_, literal_yields,
    .map (.before _ (element_yields he)) ?_, (listed_yields he _ _).map ?_,
    (listed_yields (property_yields he) _ _).map ?_, .map (.any _) ?_⟩
  · intro e h
    simpa only [Expr.mentions] using h
  · intro e h
    simpa only [Expr.mentions] using h
  · intro es h
    simpa only [Expr.mentions, mentionsOfItems_eq] using Written.flatMap h
  · intro ps h
    simpa only [Expr.mentions, mentionsOfProperties_eq] using Written.flatMap h
  · intro n _
    simpa only [Expr.mentions] using Written.nil.cons (by simp)

theorem chainStep_yields :
    (chainStep expr).Yields fun f => ∀ e, Written e.mentions → Written (f e).mentions := by
  refine .orElse (.map (.any _) ?_) ((listed_yields he _ _).map ?_)
  · intro p _ e h
    simpa only [Expr.mentions] using h.cons (by simp)
  · intro as has e h
    simpa only [Expr.mentions, mentionsOfItems_eq] using h.append (Written.flatMap has)

end

theorem expression_yields : expression.Yields fun e => Written e.mentions := by
  refine .recursive fun p hp => .charged (.map ((atom_yields hp).both (chainStep_yields hp).many) ?_) _
  rintro ⟨first, steps⟩ ⟨hfirst, hsteps⟩
  show Written (steps.foldl (fun e step => step e) first).mentions
  induction steps generalizing first with
  | nil => exact hfirst
  | cons step steps ih =>
    rw [List.forall_mem_cons] at hsteps
    exact ih (step first) (hsteps.1 first hfirst) hsteps.2

theorem statement_yields : statement.Yields fun s => Written s.mentions := by
  refine .orElse (.orElse (.charged (.map (.any _) ?_) _) (declaration_yields expression_yields))
    (expressionStatement_yields expression_yields)
  intro _ _
  simp only [Statement.mentions]
  exact .map (by simp) _

theorem module_yields : module.Yields fun m => Written m.mentions := by
  refine .map ((statement_yields.many.skip _).skip _) ?_
  intro ss h
  simpa only [Module.mentions, mentionsOfStatements_eq] using Written.flatMap h

end Grammar

/-- Modules that were read have nothing generated in them. -/
theorem Module.written_of_parse {source : String} {m : Module} (h : Module.parse source = .ok m) :
    Grammar.Written m.mentions := by
  unfold Module.parse parseWith at h
  split at h
  · rename_i a rest alt ha
    cases h
    exact Grammar.module_yields _ _ _ _ ha
  · cases h

end MarkupTrace.Source
