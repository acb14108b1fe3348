import MarkupTrace.Proofs.ReadableModules
import MarkupTrace.Proofs.RereadElements
import MarkupTrace.Proofs.PrintedLists

/-!
# How deep rules go

Whatever the grammar repeats takes a token each time, and its rules read an expression or an element
inside another one only further on: an expression behind a token, an element behind a token or else
inside an expression. So no repetition has to be stopped, and no reading goes deeper than two rules for
each token that is left.
-/

namespace MarkupTrace.Source

namespace Grammar

open Text Grammar.Parser

/-! ## Repeated parsers -/

/-- The items of lists. -/
inductive Listed : {α : Type} → Parser α → Prop
  | name : Listed name
  | param : Listed param
  | expression : Listed expression
  | property : Listed (property expression)
  | binding : Listed namedBinding

/-- What the grammar repeats. A list repeats its items, the first without a comma before it. -/
inductive Repeated : {α : Type} → Parser α → Prop
  | commentToken : Repeated (satisfy fun t => t.kind != .newline)
  | triviaItem : Repeated triviaItem
  | stringPart (quote : Kind) : Repeated (stringPart quote)
  | rawToken (quote : Kind) : Repeated (satisfy fun t => t.kind != quote)
  | nameSegment : Repeated markupSegment
  | attribute : Repeated (tagAttribute expression)
  | textToken : Repeated (satisfy fun t => !t.endsText)
  | child : Repeated (child expression (element expression))
  | chainStep : Repeated (chainStep expression)
  | blockStatement : Repeated (blockStatement expression)
  | statement : Repeated statement
  | first {α : Type} {item : Parser α} (h : Listed item) : Repeated item
  | further {α : Type} {item : Parser α} (h : Listed item) : Repeated ((mark .comma).both item)

theorem Listed.advances {α : Type} {item : Parser α} (h : Listed item) : Advances item := by
  cases h <;> infer_instance

theorem Listed.leaves {α : Type} {item : Parser α} (h : Listed item) : Leaves item := by
  cases h <;> infer_instance

theorem Repeated.advances {α : Type} {item : Parser α} (h : Repeated item) : Advances item := by
  cases h with
  | first h => exact h.advances
  | further h =>
    have := h.leaves
    infer_instance
  | _ => infer_instance

/-! ## Repetitions without a check -/

namespace Parser

variable {α β : Type} {p : Parser α} {q : Parser β}

/-- The repetition that does not ask whether a token was taken, stopped after so many rounds. -/
def rounds (p : Parser α) (stopped : Outcome (List α)) : Nat → Option Blame → Input → Outcome (List α)
  | 0, _, _ => stopped
  | n + 1, alt, i =>
    match p i with
    | .failed b => .done [] i (Blame.merge alt (some b))
    | .done a r alt' =>
      match rounds p stopped n (Blame.merge alt alt') r with
      | .done as r' alt => .done (a :: as) r' alt
      | .failed b => .failed b

/-- The items of a list in the same way. -/
def itemRounds (p : Parser α) (separator : Parser β)
    (stopped : List α × Input × Option Blame × Option Blame) :
    Nat → Option Blame → Input → List α × Input × Option Blame × Option Blame
  | 0, _, _ => stopped
  | n + 1, alt, i =>
    match separator i with
    | .failed b => ([], i, alt, some b)
    | .done _ m alt₁ =>
      match p m with
      | .failed b => ([], i, Blame.merge alt alt₁, some b)
      | .done a r alt₂ =>
        let (as, r', alt, ended) :=
          itemRounds p separator stopped n (Blame.merge (Blame.merge alt alt₁) alt₂) r
        (a :: as, r', alt, ended)

/-- By induction on the rounds: each of them leaves fewer tokens, so the parser fails in time. -/
theorem rounds_eq_manyAfter [Advances p] (stopped : Outcome (List α)) {n : Nat} {i : Input}
    (h : i.left < n) (alt : Option Blame) : p.rounds stopped n alt i = p.manyAfter alt i := by
  induction n generalizing alt i with
  | zero => exact absurd h (Nat.not_lt_zero _)
  | succ n ih =>
    rw [rounds, manyAfter]
    cases hp : p i with
    | failed b => rfl
    | done a r alt' =>
      have hlt : r.left < i.left := Advances.left_lt ⟨alt', hp⟩
      have hrest := ih (i := r) (by omega) (Blame.merge alt alt')
      dsimp only
      rw [if_pos hlt]
      exact hrest ▸ rfl

theorem itemRounds_eq_itemsAfter [Advances p] [Leaves q]
    (stopped : List α × Input × Option Blame × Option Blame) {n : Nat} {i : Input} (h : i.left < n)
    (alt : Option Blame) : p.itemRounds q stopped n alt i = p.itemsAfter q alt i := by
  induction n generalizing alt i with
  | zero => exact absurd h (Nat.not_lt_zero _)
  | succ n ih =>
    rw [itemRounds, itemsAfter]
    cases hq : q i with
    | failed b => rfl
    | done b m alt₁ =>
      have hle : m.left ≤ i.left := Leaves.left_le ⟨alt₁, hq⟩
      dsimp only
      cases hp : p m with
      | failed b => rfl
      | done a r alt₂ =>
        have hlt : r.left < m.left := Advances.left_lt ⟨alt₂, hp⟩
        dsimp only
        rw [if_pos (by omega), ih (by omega)]

end Parser

/-! ## Rules -/

/-- The rule for expressions, given parsers of the expressions and the elements inside. -/
def expressionRule (expr : Parser Expr) (inner : Parser Element) : Parser Expr :=
  let atom := firstOf [arrow expr, paren expr, literal, (trivia.before inner).map Expr.markup,
    array expr, object expr, name.map Expr.name]
  atom.both (chainStep expr).many |>.map (fun (first, steps) =>
    steps.foldl (fun e step => step e) first) |>.charged "expression"

theorem expressionBody_eq (expr : Parser Expr) :
    expressionBody expr = expressionRule expr (element expr) := rfl

/-- The rule for modules, given a parser of expressions. -/
def moduleRule (expr : Parser Expr) : Parser Module :=
  let statement := (importStatement.orElse (declaration expr)).orElse (expressionStatement expr)
  ((statement.many.skip trivia).skip atEnd).map Module.mk

theorem module_eq : Grammar.module = moduleRule expression := rfl

/-- The rule for an expression with nothing behind it, given a parser of expressions. -/
def wholeRule (expr : Parser Expr) : Parser Expr := (expr.skip trivia).skip atEnd

theorem wholeExpression_eq : wholeExpression = wholeRule expression := rfl

/-- A rule, given parsers of the expressions and the elements inside. -/
abbrev Rule (α : Type) : Type := Parser Expr → Parser Element → Parser α

/-- The rule with the parsers of the grammar. -/
abbrev Rule.parser {α : Type} (P : Rule α) : Parser α := P expression (element expression)

/-- A rule that is put together of single tokens, and of the expressions and the elements inside it.
What it repeats is among the repeated parsers, or else it goes on token by token to where a comment
ends. The two marks tell whether an expression and whether an element may be read at once. Behind a
token both may be read. -/
inductive Composed : Bool → Bool → {α : Type} → Rule α → Prop
  | expression {l : Bool} : Composed true l fun expr _ => expr
  | element {e : Bool} : Composed e true fun _ inner => inner
  | single {e l : Bool} {α : Type} (accept : Token → Option α) : Composed e l fun _ _ => single accept
  | atEnd {e l : Bool} : Composed e l fun _ _ => atEnd
  | map {e l : Bool} {α β : Type} {P : Rule α} (f : α → β) (h : Composed e l P) :
      Composed e l fun expr inner => (P expr inner).map f
  | refine {e l : Bool} {α β : Type} {P : Rule α} (f : α → Option β) (h : Composed e l P) :
      Composed e l fun expr inner => (P expr inner).refine f
  | charged {e l : Bool} {α : Type} {P : Rule α} (name : String) (h : Composed e l P) :
      Composed e l fun expr inner => (P expr inner).charged name
  | both {e l : Bool} {α β : Type} {P : Rule α} {Q : Rule β} (hP : Composed e l P)
      (hQ : Composed e l Q) : Composed e l fun expr inner => (P expr inner).both (Q expr inner)
  | behind {e l : Bool} {α β : Type} {P : Rule α} {Q : Rule β} (hP : Composed e l P)
      (hadvances : Advances P.parser) (hQ : Composed true true Q) :
      Composed e l fun expr inner => (P expr inner).both (Q expr inner)
  | orElse {e l : Bool} {α : Type} {P Q : Rule α} (hP : Composed e l P) (hQ : Composed e l Q) :
      Composed e l fun expr inner => (P expr inner).orElse (Q expr inner)
  | noChoice {e l : Bool} {α : Type} (alt : Option Blame) :
      Composed e l fun _ _ => firstAfter alt ([] : List (Parser α))
  | choice {e l : Bool} {α : Type} {P : Rule α} {Ps : Parser Expr → Parser Element → List (Parser α)}
      (alt : Option Blame) (hP : Composed e l P)
      (hPs : ∀ alt, Composed e l fun expr inner => firstAfter alt (Ps expr inner)) :
      Composed e l fun expr inner => firstAfter alt (P expr inner :: Ps expr inner)
  | optional {e l : Bool} {α : Type} {P : Rule α} (h : Composed e l P) :
      Composed e l fun expr inner => (P expr inner).optional
  | many {e l : Bool} {α : Type} {P : Rule α} (h : Composed e l P) (hitem : Repeated P.parser) :
      Composed e l fun expr inner => (P expr inner).many
  | many1 {e l : Bool} {α : Type} {p : Parser α} (h : Composed e l fun _ _ => p)
      (hitem : Repeated p) : Composed e l fun _ _ => p.many1
  | separated {e l : Bool} {α : Type} {P : Rule α} (h : Composed e l P)
      (hcomma : Composed e l fun _ _ => mark .comma) (hfirst : Repeated P.parser)
      (hfurther : Repeated ((mark .comma).both P.parser)) :
      Composed e l fun expr inner => (P expr inner).separated (mark .comma)
  | through {e l : Bool} {α : Type} {p : Parser α} (h : Composed e l fun _ _ => p) :
      Composed e l fun _ _ => through p

namespace Composed

variable {e l : Bool} {α β : Type} {P : Rule α} {Q : Rule β}

theorem skip (hP : Composed e l P) (hQ : Composed e l Q) :
    Composed e l fun expr inner => (P expr inner).skip (Q expr inner) := .map _ (.both hP hQ)

theorem before (hP : Composed e l P) (hQ : Composed e l Q) :
    Composed e l fun expr inner => (P expr inner).before (Q expr inner) := .map _ (.both hP hQ)

theorem beforeBehind (hP : Composed e l P) (hadvances : Advances P.parser)
    (hQ : Composed true true Q) :
    Composed e l fun expr inner => (P expr inner).before (Q expr inner) :=
  .map _ (.behind hP hadvances hQ)

theorem leaves (h : Composed e l P) : Leaves P.parser := by
  induction h with
  | noChoice alt => exact ⟨fun h => nomatch h⟩
  | choice alt hP hPs ihP ihPs =>
    constructor
    intro i a r hgives
    rcases gives_firstOf_cons.mp ((firstAfter_gives alt none _).mp hgives) with hgives | ⟨-, hgives⟩
    · exact ihP.suffix hgives
    · exact (ihPs none).suffix hgives
  | _ => infer_instance

/-- By induction on the rule: where it is read, it does what it does with the parsers of the grammar if
the parsers that it is given do, further on, and at once only where it may read at once. -/
theorem agree (h : Composed e l P) {n : Nat} {expr : Parser Expr} {inner : Parser Element}
    (hexpr : Agree (if e then n + 1 else n) Grammar.expression expr)
    (hinner : Agree (if l then n + 1 else n) (Grammar.element Grammar.expression) inner) :
    Agree (n + 1) P.parser (P expr inner) := by
  induction h generalizing n with
  | expression => exact hexpr
  | element => exact hinner
  | single | atEnd | noChoice => exact .refl _ _
  | many1 | through => exact .refl _ _
  | map f h ih => exact (ih hexpr hinner).map f
  | refine f h ih => exact (ih hexpr hinner).refine f
  | charged name h ih => exact (ih hexpr hinner).charged name
  | optional h ih => exact (ih hexpr hinner).optional
  | many h hitem ih => exact (ih hexpr hinner).many
  | orElse hP hQ ihP ihQ => exact (ihP hexpr hinner).orElse (ihQ hexpr hinner)
  | both hP hQ ihP ihQ =>
    have := hP.leaves
    exact (ihP hexpr hinner).both (ihQ hexpr hinner)
  | separated h hcomma hfirst hfurther ih =>
    have := h.leaves
    exact (ih hexpr hinner).separated
  | @choice _ _ _ P Ps alt hP hPs ihP ihPs =>
    intro i hi
    have hfirst := ihP hexpr hinner i hi
    show firstAfter alt (P.parser :: _) i = firstAfter alt (P expr inner :: _) i
    rw [firstAfter, firstAfter, ← hfirst]
    cases P.parser i with
    | done a r alt' => rfl
    | failed b => exact ihPs _ hexpr hinner i hi
  | behind hP hadvances hQ ihP ihQ =>
    refine (ihP hexpr hinner).both_advances ?_
    cases n with
    | zero => exact fun i hi => absurd hi (Nat.not_lt_zero _)
    | succ n =>
      have hmono : ∀ b : Bool, n + 1 ≤ if b then n + 1 + 1 else n + 1 := by
        intro b
        cases b <;> simp
      exact ihQ (hexpr.mono (hmono _)) (hinner.mono (hmono _))

/-! ### Words, names and strings -/

theorem satisfy (accept : Token → Bool) : Composed e l fun _ _ => satisfy accept := .single _

theorem token (k : Kind) : Composed e l fun _ _ => token k := .satisfy _

theorem trivia : Composed e l fun _ _ => trivia := by
  refine .map _ (.many (.orElse (.orElse (.map _ (.satisfy _)) (.map _ ?_)) (.map _ ?_)) .triviaItem)
  · exact .both (.both (.token _) (.token _)) (.many (.satisfy _) .commentToken)
  · exact .both (.both (.token _) (.token _)) (.through (.both (.token _) (.token _)))

theorem mark (k : Kind) : Composed e l fun _ _ => mark k := .before .trivia (.token k)

theorem word (w : String) : Composed e l fun _ _ => word w := .before .trivia (.satisfy _)

theorem name : Composed e l fun _ _ => name := .before .trivia (.single _)

theorem anyName : Composed e l fun _ _ => anyName := .before .trivia (.single _)

theorem string : Composed e l fun _ _ => Grammar.string := by
  have hquoted : ∀ quote, Composed e l fun _ _ => quotedBy quote := by
    intro quote
    refine .map _ (.both (.both (.token _) ?_) (.token _))
    refine .many (.orElse (.map _ ?_) ?_) (.stringPart quote)
    · exact .before (.token _) (.satisfy _)
    · exact .map _ (.satisfy _)
  exact .orElse (hquoted _) (hquoted _)

theorem rawString : Composed e l fun _ _ => rawString := by
  have hraw : ∀ quote, Composed e l fun _ _ => rawBy quote := fun quote =>
    .map _ (.skip (.before (.token _) (.many (.satisfy _) (.rawToken quote))) (.token _))
  exact .orElse (hraw _) (hraw _)

theorem markupName : Composed e l fun _ _ => markupName :=
  .map _ (.both (.single _) (.many (.both (.single _) (.single _)) .nameSegment))

/-- The items of a list are read behind its first mark. -/
theorem listed (h : Composed true true P) (hitem : Listed P.parser) (opening closing : Kind) :
    Composed e l fun expr inner => listed opening closing (P expr inner) :=
  .skip (.beforeBehind (.mark _) inferInstance
    (.separated h (.mark _) (.first hitem) (.further hitem))) (.mark _)

theorem semicolon : Composed e l fun _ _ => semicolon := .optional (.mark _)

/-! ### Elements -/

theorem attributeValue : Composed true true fun expr _ => attributeValue expr :=
  .orElse (.map _ (.before .trivia .rawString))
    (.map _ (.skip (.before (.mark _) .expression) (.mark _)))

theorem tagAttribute : Composed true true fun expr _ => tagAttribute expr := by
  refine .orElse (.map _ ?_) (.map _ ?_)
  · exact .skip (.before (.before (.mark _) (.mark _)) .expression) (.mark _)
  · exact .both (.before .trivia .markupName) (.optional (.before (.mark _) .attributeValue))

theorem child : Composed true true fun expr inner => child expr inner := by
  refine .orElse (.orElse (.map _ ?_) (.map _ .element)) (.map _ (.many1 (.satisfy _) .textToken))
  exact .both (.both (.token _) (.optional .expression)) (.mark _)

theorem tail : Composed true true fun expr inner => tail expr inner := by
  refine .orElse (.map _ (.before (.mark _) (.mark _))) (.map _ (.both ?_ ?_))
  · exact .before (.mark _) (.many .child .child)
  · exact .both (.before (.both (.token _) (.mark _)) (.before .trivia .markupName)) (.mark _)

/-- What is inside an element is read behind the mark that it starts with. -/
theorem elementBody : Composed false false elementBody := by
  refine .charged _ (.refine _ (.behind (.behind ?_ inferInstance ?_) inferInstance .tail))
  · exact .both (.token _) (.before .trivia .markupName)
  · exact .many .tagAttribute .attribute

/-! ### Expressions -/

theorem literal : Composed e l fun _ _ => literal := by
  refine .before .trivia (.choice _ (.map _ .string) fun _ => .choice _ (.map _ (.single _)) fun _ =>
    .choice _ ?_ fun _ => .choice _ ?_ fun _ => .choice _ ?_ fun _ => .choice _ ?_ .noChoice)
  all_goals exact .map _ (.satisfy _)

theorem params : Composed e l fun _ _ => params :=
  .orElse (.listed (.orElse (.map _ .name) (.map _ (.listed .name .name _ _))) .param _ _) (.map _ .name)

theorem declaration : Composed e l fun expr _ => declaration expr := by
  refine .charged _ (.map _ (.skip (.behind ?_ inferInstance .expression) .semicolon))
  refine .skip (.both (.skip (.optional (.word _)) ?_) .name) (.mark _)
  exact .orElse (.orElse (.word _) (.word _)) (.word _)

theorem expressionStatement : Composed true l fun expr _ => expressionStatement expr :=
  .map _ (.skip .expression .semicolon)

theorem blockStatement : Composed true l fun expr _ => blockStatement expr :=
  .orElse (.orElse .declaration (.map _ (.skip (.before (.word _) (.optional .expression)) .semicolon)))
    .expressionStatement

theorem arrow : Composed e l fun expr _ => arrow expr := by
  refine .map _ (.behind (.skip .params (.mark _)) inferInstance ?_)
  refine .orElse (.map _ ?_) (.map _ .expression)
  exact .skip (.before (.mark _) (.many .blockStatement .blockStatement)) (.mark _)

theorem property : Composed true l fun expr _ => property expr := by
  refine .choice _ (.map _ (.before (.mark _) .expression)) fun _ =>
    .choice _ (.map _ (.both ?_ .expression)) fun _ => .choice _ (.map _ .name) .noChoice
  exact .skip (.orElse .anyName (.map _ (.before .trivia .string))) (.mark _)

theorem chainStep : Composed e l fun expr _ => chainStep expr :=
  .orElse (.map _ (.before (.mark _) .anyName)) (.map _ (.listed .expression .expression _ _))

/-- An expression is read inside another one behind a token, and an element also in its place. -/
theorem expressionRule : Composed false true expressionRule := by
  refine .charged _ (.map _ (.both ?_ (.many .chainStep .chainStep)))
  refine .choice _ .arrow fun _ => .choice _ ?_ fun _ => .choice _ .literal fun _ =>
    .choice _ ?_ fun _ => .choice _ ?_ fun _ => .choice _ ?_ fun _ => .choice _ (.map _ .name) .noChoice
  · exact .map _ (.skip (.beforeBehind (.mark _) inferInstance .expression) (.mark _))
  · exact .map _ (.before .trivia .element)
  · exact .map _ (.listed .expression .expression _ _)
  · exact .map _ (.listed .property .property _ _)

/-! ### Modules -/

theorem importStatement : Composed e l fun _ _ => importStatement := by
  have hbinding : Composed true true fun _ _ => namedBinding :=
    .map _ (.both .anyName (.optional (.before (.word _) .name)))
  have hnamed : ∀ {e l}, Composed e l fun _ _ => namedBindings := .listed hbinding .binding _ _
  have hnamespace : Composed e l fun _ _ => namespaceBinding :=
    .map _ (.before (.before (.mark _) (.word _)) .name)
  refine .charged _ (.map _ (.both (.both (.both (.word _) (.optional (.skip ?_ (.word _))))
    (.before .trivia .string)) (.optional (.mark _))))
  refine .orElse (.orElse (.map _ (.both (.map _ .name) (.optional ?_))) hnamed) hnamespace
  exact .before (.mark _) (.orElse hnamed hnamespace)

theorem moduleRule : Composed true true fun expr _ => moduleRule expr := by
  refine .map _ (.skip (.skip (.many ?_ .statement) .trivia) .atEnd)
  exact .orElse (.orElse .importStatement .declaration) .expressionStatement

theorem wholeRule : Composed true true fun expr _ => wholeRule expr :=
  .skip (.skip .expression .trivia) .atEnd

end Composed

/-! ## Depth -/

section

variable (i : Input) (expr : Parser Expr) (inner : Parser Element)

/-- Whatever other parsers do here or before, an expression is what its rule makes of the expressions
further on and of the elements here and further on. -/
theorem expression_eq_rule (hexpr : ∀ j : Input, j.left < i.left → expression j = expr j)
    (hinner : ∀ j : Input, j.left ≤ i.left → element expression j = inner j) :
    expression i = expressionRule expr inner i := by
  have hhere : Agree (i.left + 1) (element expression) inner :=
    fun j hj => hinner j (Nat.le_of_lt_succ hj)
  have hagree := Composed.expressionRule.agree (n := i.left) hexpr hhere
  rw [expression_eq, expressionBody_eq]
  exact hagree i (Nat.lt_succ_self _)

/-- An element is what its rule makes of what is further on. -/
theorem element_eq_rule (hexpr : ∀ j : Input, j.left < i.left → expression j = expr j)
    (hinner : ∀ j : Input, j.left < i.left → element expression j = inner j) :
    element expression i = elementBody expr inner i := by
  have hagree := Composed.elementBody.agree (n := i.left) hexpr hinner
  rw [element_eq]
  exact hagree i (Nat.lt_succ_self _)

/-- The rules for expressions and for elements inside each other so many times, around other parsers. -/
def unfolded : Nat → Parser Expr × Parser Element
  | 0 => (expr, inner)
  | n + 1 => (expressionRule (unfolded n).1 (unfolded n).2, elementBody (unfolded n).1 (unfolded n).2)

/-- By induction on the rules: two of them are enough for one token more. An element needs one less, as
it is read behind the token that it starts with, where the expression around it may start at once. -/
theorem agree_unfolded (n : Nat) :
    (∀ k, 2 * k ≤ n → Agree k expression (unfolded expr inner n).1) ∧
      ∀ k, 2 * k ≤ n + 1 → Agree k (element expression) (unfolded expr inner n).2 := by
  induction n with
  | zero =>
    have hnone : ∀ {k} {i : Input}, 2 * k ≤ 0 + 1 → ¬ i.left < k := by omega
    exact ⟨fun k hk i hi => absurd hi (hnone (by omega)), fun k hk i hi => absurd hi (hnone hk)⟩
  | succ n ih =>
    obtain ⟨hexpr, hinner⟩ := ih
    constructor
    · intro k hk i hi
      apply expression_eq_rule
      · exact fun j hj => hexpr i.left (by omega) j hj
      · exact fun j hj => hinner (i.left + 1) (by omega) j (Nat.lt_succ_of_le hj)
    · intro k hk i hi
      apply element_eq_rule
      · exact fun j hj => hexpr i.left (by omega) j hj
      · exact fun j hj => hinner i.left (by omega) j hj

/-- A rule that starts anywhere does the same with rules unfolded twice for each token and twice more. -/
theorem Composed.parser_eq_unfolded {α : Type} {P : Rule α} (h : Composed true true P) {n : Nat}
    (hn : 2 * i.left + 2 ≤ n) :
    P.parser i = P (unfolded expr inner n).1 (unfolded expr inner n).2 i := by
  obtain ⟨hexpr, hinner⟩ := agree_unfolded expr inner n
  exact h.agree (n := i.left) (hexpr (i.left + 1) (by omega)) (hinner (i.left + 1) (by omega)) i
    (Nat.lt_succ_self _)

end

end Grammar

open Grammar Grammar.Parser

/-- What the grammar repeats takes a token whenever it succeeds, so its repetitions end without a check.
Its rules are put together of that, and they read expressions and elements inside others further on.
So whatever stands for them below, reading a module or an expression comes to the same when the rules
are unfolded twice for each token of the text, and twice more. -/
theorem grammar_always_advances :
    (∀ {α : Type} {item : Parser α}, Repeated item →
      (∀ i a r, item.Gives i a r → r.left < i.left) ∧
        ∀ stopped n alt i, i.left < n → item.rounds stopped n alt i = item.manyAfter alt i) ∧
    (∀ {α : Type} {item : Parser α}, Listed item → ∀ stopped n alt i, i.left < n →
      item.itemRounds (mark .comma) stopped n alt i = item.itemsAfter (mark .comma) alt i) ∧
    (Composed false true expressionRule ∧ Composed false false elementBody ∧
      Composed true true (fun expr _ => moduleRule expr) ∧
      Composed true true fun expr _ => wholeRule expr) ∧
    (∀ i expr inner, (∀ j : Input, j.left < i.left → expression j = expr j) →
      (∀ j : Input, j.left ≤ i.left → element expression j = inner j) →
      expression i = expressionRule expr inner i) ∧
    (∀ i expr inner, (∀ j : Input, j.left < i.left → expression j = expr j) →
      (∀ j : Input, j.left < i.left → element expression j = inner j) →
      element expression i = elementBody expr inner i) ∧
    ∀ expr inner n source, 2 * (tokenize source).length + 2 ≤ n →
      Module.parse source = parseWith (moduleRule (unfolded expr inner n).1) source ∧
      Expr.parse source = parseWith (wholeRule (unfolded expr inner n).1) source := by
  refine ⟨fun h => ?_, fun h => ?_, ?_, expression_eq_rule, element_eq_rule, ?_⟩
  · have := h.advances
    exact ⟨fun i a r hgives => Advances.left_lt hgives,
      fun stopped n alt i hi => rounds_eq_manyAfter stopped hi alt⟩
  · have := h.advances
    exact fun stopped n alt i hi => itemRounds_eq_itemsAfter stopped hi alt
  · exact ⟨.expressionRule, .elementBody, .moduleRule, .wholeRule⟩
  · intro expr inner n source hn
    have hmodule := Composed.moduleRule.parser_eq_unfolded (.ofTokens (tokenize source)) expr inner hn
    have hwhole := Composed.wholeRule.parser_eq_unfolded (.ofTokens (tokenize source)) expr inner hn
    unfold Module.parse Expr.parse parseWith
    rw [← hmodule, ← hwhole, module_eq, wholeExpression_eq]
    exact ⟨rfl, rfl⟩

end MarkupTrace.Source
