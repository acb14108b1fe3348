import MarkupTrace.Eval.Module

/-!
# Derivations of evaluations

A derivation spells out an evaluation that succeeds: which expressions were evaluated inside it, in
which states, and which elements were created on the way. Every evaluation that succeeds has one,
and what holds of an evaluation is shown along its derivation.

As `step` does, the rules take a parameter for the expressions inside; `Derives n` are the
derivations that are no deeper than `n`.
-/

namespace MarkupTrace.Eval

open Source

/-- One element that was created: from which syntax, evaluated in which scope when how many records
were there, what its children contributed, and the created value. -/
structure Creation where
  scope : ScopeId
  element : Element
  before : Nat
  given : List (Option Value)
  value : CreatedElement Value

/-- An expression in a scope takes a store to a value and a store, with these creations. -/
abbrev Judgement := ScopeId → Expr → Store → Value → Store → List Creation → Prop

section

variable (J : Judgement)

inductive Items (scope : ScopeId) :
    List Expr → Store → List Value → Store → List Creation → Prop
  | nil {s : Store} : Items scope [] s [] s []
  | cons {e : Expr} {es : List Expr} {s s₁ s₂ : Store} {v : Value} {vs : List Value}
      {l₁ l₂ : List Creation} (head : J scope e s v s₁ l₁) (tail : Items scope es s₁ vs s₂ l₂) :
      Items scope (e :: es) s (v :: vs) s₂ (l₁ ++ l₂)

inductive Named (name : String) (scope : ScopeId) :
    Expr → Store → Value → Store → List Creation → Prop
  | arrow {params : List Param} {body : Body} {s s' : Store} {v : Value}
      (made : Run.closure (some name) params body scope s = (.ok v, s')) :
      Named name scope (.arrow params body) s v s' []
  | other {e : Expr} {s s' : Store} {v : Value} {l : List Creation}
      (unnamed : ∀ params body, e ≠ .arrow params body) (evaluated : J scope e s v s' l) :
      Named name scope e s v s' l

inductive Block (scope : ScopeId) :
    List Statement → Store → Value → Store → List Creation → Prop
  | nil {s : Store} : Block scope [] s .undefined s []
  | const {exported : Bool} {name : String} {e : Expr} {rest : List Statement}
      {s s₁ s₂ : Store} {v w : Value} {l₁ l₂ : List Creation}
      (bound : Named J name scope e s v s₁ l₁)
      (further : Block scope rest (s₁.declare scope name v) w s₂ l₂) :
      Block scope (.const exported name e :: rest) s w s₂ (l₁ ++ l₂)
  | expr {e : Expr} {rest : List Statement} {s s₁ s₂ : Store} {v w : Value}
      {l₁ l₂ : List Creation} (evaluated : J scope e s v s₁ l₁)
      (further : Block scope rest s₁ w s₂ l₂) :
      Block scope (.expr e :: rest) s w s₂ (l₁ ++ l₂)
  | returns {e : Expr} {rest : List Statement} {s s' : Store} {v : Value} {l : List Creation}
      (evaluated : J scope e s v s' l) : Block scope (.returns e :: rest) s v s' l
  | returnsNothing {rest : List Statement} {s : Store} :
      Block scope (.returnsNothing :: rest) s .undefined s []

inductive Returned (scope : ScopeId) : Body → Store → Value → Store → List Creation → Prop
  | result {e : Expr} {s s' : Store} {v : Value} {l : List Creation}
      (evaluated : J scope e s v s' l) : Returned scope (.result e) s v s' l
  | block {ss : List Statement} {s s' : Store} {v : Value} {l : List Creation}
      (ran : Block J scope ss s v s' l) : Returned scope (.block ss) s v s' l

inductive Called : Value → List Value → Store → Value → Store → List Creation → Prop
  | function {f : Function} {arguments : List Value} {s s₁ s₂ : Store} {v : Value}
      {l : List Creation}
      (bound : bindParams ⟨s.scopes.size⟩ f.params arguments
        (s.newScope (some f.scope) (s.stackOf f.scope)).2 = (.ok (), s₁))
      (ran : Returned J ⟨s.scopes.size⟩ f.body s₁ v s₂ l) :
      Called (.function f) arguments s v s₂ l
  | builtin {b : Builtin} {arguments : List Value} {s s' : Store} {v : Value}
      (done : callBuiltin b arguments s = (.ok v, s')) : Called (.builtin b) arguments s v s' []

inductive FieldsOf (scope : ScopeId) :
    Fields → List Property → Store → Fields → Store → List Creation → Prop
  | nil {fields : Fields} {s : Store} : FieldsOf scope fields [] s fields s []
  | entry {fields fields' : Fields} {key : String} {e : Expr} {ps : List Property}
      {s s₁ s₂ : Store} {v : Value} {l₁ l₂ : List Creation} (evaluated : J scope e s v s₁ l₁)
      (further : FieldsOf scope (fields.insert key v) ps s₁ fields' s₂ l₂) :
      FieldsOf scope fields (.entry key e :: ps) s fields' s₂ (l₁ ++ l₂)
  | shorthand {fields fields' : Fields} {name : String} {ps : List Property} {s s' : Store}
      {v : Value} {l : List Creation} (found : nameValue scope name s = (.ok v, s))
      (further : FieldsOf scope (fields.insert name v) ps s fields' s' l) :
      FieldsOf scope fields (.shorthand name :: ps) s fields' s' l
  | spread {fields spread fields' : Fields} {e : Expr} {ps : List Property} {s s₁ s₂ : Store}
      {v : Value} {l₁ l₂ : List Creation} (evaluated : J scope e s v s₁ l₁)
      (taken : Run.spread fields v s₁ = (.ok spread, s₁))
      (further : FieldsOf scope spread ps s₁ fields' s₂ l₂) :
      FieldsOf scope fields (.spread e :: ps) s fields' s₂ (l₁ ++ l₂)

inductive Attributes (scope : ScopeId) :
    Given → List Attribute → Store → Given → Store → List Creation → Prop
  | nil {g : Given} {s : Store} : Attributes scope g [] s g s []
  | bare {g g' : Given} {name : String} {as : List Attribute} {s s' : Store} {l : List Creation}
      (further : Attributes scope (g.take name (.bool true)) as s g' s' l) :
      Attributes scope g (.bare name :: as) s g' s' l
  | text {g g' : Given} {name raw : String} {as : List Attribute} {s s' : Store}
      {l : List Creation} (further : Attributes scope (g.take name (.text raw)) as s g' s' l) :
      Attributes scope g (.text name raw :: as) s g' s' l
  | value {g g' : Given} {name : String} {e : Expr} {as : List Attribute} {s s₁ s₂ : Store}
      {v : Value} {l₁ l₂ : List Creation} (evaluated : J scope e s v s₁ l₁)
      (further : Attributes scope (g.take name v) as s₁ g' s₂ l₂) :
      Attributes scope g (.value name e :: as) s g' s₂ (l₁ ++ l₂)
  | spread {g g' : Given} {e : Expr} {as : List Attribute} {s s₁ s₂ : Store} {v : Value}
      {props : Fields} {l₁ l₂ : List Creation} (evaluated : J scope e s v s₁ l₁)
      (taken : Run.spread g.props v s₁ = (.ok props, s₁))
      (further : Attributes scope { g with props } as s₁ g' s₂ l₂) :
      Attributes scope g (.spread e :: as) s g' s₂ (l₁ ++ l₂)

/-- What one child contributes, if anything. -/
inductive Contributed (scope : ScopeId) :
    Child → Store → Option Value → Store → List Creation → Prop
  | hidden {t : MarkupText} {s : Store} (empty : t.cooked = "") :
      Contributed scope (.text t) s none s []
  | text {t : MarkupText} {s : Store} (shown : t.cooked ≠ "") :
      Contributed scope (.text t) s (some (.text t.cooked)) s []
  | emptyContainer {span : Text.Span} {s : Store} :
      Contributed scope (.emptyContainer span) s none s []
  | container {e : Expr} {span : Text.Span} {s s' : Store} {v : Value} {l : List Creation}
      (evaluated : J scope e s v s' l) : Contributed scope (.container e span) s (some v) s' l
  | element {e : Element} {s s' : Store} {v : Value} {l : List Creation}
      (evaluated : J scope (.markup e) s v s' l) : Contributed scope (.element e) s (some v) s' l

inductive Children (scope : ScopeId) :
    List Child → Store → List (Option Value) → Store → List Creation → Prop
  | nil {s : Store} : Children scope [] s [] s []
  | cons {c : Child} {cs : List Child} {s s₁ s₂ : Store} {v : Option Value}
      {vs : List (Option Value)} {l₁ l₂ : List Creation} (head : Contributed J scope c s v s₁ l₁)
      (tail : Children scope cs s₁ vs s₂ l₂) :
      Children scope (c :: cs) s (v :: vs) s₂ (l₁ ++ l₂)

/-- The element itself is the last to be created. -/
inductive Created (scope : ScopeId) :
    Element → Store → CreatedElement Value → Store → List Creation → Prop
  | mk {e : Element} {s s₁ s₂ s₃ s₄ : Store} {type : ElementType} {g : Given}
      {given : List (Option Value)} {props : Fields} {c : CreatedElement Value}
      {l₁ l₂ : List Creation} (found : elementType scope e.name s = (.ok type, s))
      (attributes : Attributes J scope ⟨[], none, none⟩ e.attributes s g s₁ l₁)
      (children : Children J scope e.content.toList s₁ given s₂ l₂)
      (gathered : withChildren g.props (given.filterMap id) s₂ = (.ok props, s₃))
      (made : Run.element type props g.owner g.source s₃ = (.ok (.element c), s₄)) :
      Created scope e s c s₄ (l₁ ++ l₂ ++ [⟨scope, e, s.records.size, given, c⟩])

inductive Steps (scope : ScopeId) : Expr → Store → Value → Store → List Creation → Prop
  | text {v : String} {s : Store} : Steps scope (.text v) s (.text v) s []
  | number {n : Double} {s : Store} : Steps scope (.number n) s (.number n) s []
  | bool {b : Bool} {s : Store} : Steps scope (.bool b) s (.bool b) s []
  | null {s : Store} : Steps scope .null s .null s []
  | this {s : Store} : Steps scope .this s .undefined s []
  | name {n : String} {s : Store} {v : Value} (found : nameValue scope n s = (.ok v, s)) :
      Steps scope (.name n) s v s []
  | member {e : Expr} {p : String} {s s' : Store} {v w : Value} {l : List Creation}
      (evaluated : J scope e s v s' l) (read : v.get? p = some w) :
      Steps scope (.member e p) s w s' l
  | call {callee : Expr} {arguments : List Expr} {s s₁ s₂ s₃ : Store} {f v : Value}
      {vs : List Value} {l₁ l₂ l₃ : List Creation} (evaluated : J scope callee s f s₁ l₁)
      (passed : Items J scope arguments s₁ vs s₂ l₂) (called : Called J f vs s₂ v s₃ l₃) :
      Steps scope (.call callee arguments) s v s₃ (l₁ ++ l₂ ++ l₃)
  | arrow {params : List Param} {body : Body} {s s' : Store} {v : Value}
      (made : Run.closure none params body scope s = (.ok v, s')) :
      Steps scope (.arrow params body) s v s' []
  | object {ps : List Property} {s s₁ s₂ : Store} {fields : Fields} {v : Value}
      {l : List Creation} (evaluated : FieldsOf J scope [] ps s fields s₁ l)
      (made : Run.object fields s₁ = (.ok v, s₂)) : Steps scope (.object ps) s v s₂ l
  | array {items : List Expr} {s s₁ s₂ : Store} {vs : List Value} {v : Value}
      {l : List Creation} (evaluated : Items J scope items s vs s₁ l)
      (made : Run.array vs s₁ = (.ok v, s₂)) : Steps scope (.array items) s v s₂ l
  | paren {e : Expr} {s s' : Store} {v : Value} {l : List Creation}
      (evaluated : J scope e s v s' l) : Steps scope (.paren e) s v s' l
  | markup {e : Element} {s s' : Store} {c : CreatedElement Value} {l : List Creation}
      (created : Created J scope e s c s' l) : Steps scope (.markup e) s (.element c) s' l
  | location {literal : LocationLiteral} {s s' : Store} {v : Value}
      (made : Run.record (locationOf literal scope s) s = (.ok v, s')) :
      Steps scope (.location literal) s v s' []
  | helper {h : Helper} {s s' : Store} {v : Value} (made : helper scope h s = (.ok v, s')) :
      Steps scope (.helper h) s v s' []

/-- The statements of a module, with the exports so far and in the end. -/
inductive TopLevel (modules : Importable) (scope : ScopeId) :
    Fields → List Statement → Store → Fields → Store → List Creation → Prop
  | nil {exports : Fields} {s : Store} : TopLevel modules scope exports [] s exports s []
  | imports {exports exports' : Fields} {decl : Import} {rest : List Statement}
      {s s₁ s₂ : Store} {l : List Creation}
      (bound : bindImports scope
        ((modules.find? fun m => m.1 == decl.specifier).map (·.2)) decl.bindings s = (.ok (), s₁))
      (further : TopLevel modules scope exports rest s₁ exports' s₂ l) :
      TopLevel modules scope exports (.imports decl :: rest) s exports' s₂ l
  | const {exports exports' : Fields} {exported : Bool} {name : String} {e : Expr}
      {rest : List Statement} {s s₁ s₂ : Store} {v : Value} {l₁ l₂ : List Creation}
      (bound : Named J name scope e s v s₁ l₁)
      (further : TopLevel modules scope (if exported then exports.insert name v else exports) rest
        (s₁.declare scope name v) exports' s₂ l₂) :
      TopLevel modules scope exports (.const exported name e :: rest) s exports' s₂ (l₁ ++ l₂)
  | expr {exports exports' : Fields} {e : Expr} {rest : List Statement} {s s₁ s₂ : Store}
      {v : Value} {l₁ l₂ : List Creation} (evaluated : J scope e s v s₁ l₁)
      (further : TopLevel modules scope exports rest s₁ exports' s₂ l₂) :
      TopLevel modules scope exports (.expr e :: rest) s exports' s₂ (l₁ ++ l₂)

end

/-- Derivations no deeper than `n`. -/
def Derives : Nat → Judgement
  | 0 => fun _ _ _ _ _ _ => False
  | n + 1 => Steps (Derives n)

/-- Loading a module takes a store to exports and a store, with these creations. -/
def Loads (depth : Nat) (modules : Importable) (stack : StackId) (m : Module) (s : Store)
    (exports : Fields) (s' : Store) (log : List Creation) : Prop :=
  TopLevel (Derives depth) modules ⟨s.scopes.size⟩ [] m.body (s.newScope none stack).2 exports s' log

/-! ## One part after another -/

theorem attributes_append (ev : Evaluator) (scope : ScopeId) (g : Given)
    (as bs : List Attribute) : attributes ev scope g (as ++ bs) =
      attributes ev scope g as >>= fun g₁ => attributes ev scope g₁ bs := by
  induction as generalizing g with
  | nil => rfl
  | cons a as ih =>
    cases a with
    | bare name => exact ih _
    | text name raw => exact ih _
    | value name e =>
      rw [List.cons_append, attributes, attributes, Attempt.bind_assoc]
      congr 1
      funext v
      exact ih _
    | spread e =>
      rw [List.cons_append, attributes, attributes, Attempt.bind_assoc]
      congr 1
      funext v
      rw [Attempt.bind_assoc]
      congr 1
      funext props
      exact ih _

theorem topLevel_append (ev : Evaluator) (modules : Importable) (scope : ScopeId)
    (exports : Fields) (ss ts : List Statement) : topLevel ev modules scope exports (ss ++ ts) =
      topLevel ev modules scope exports ss >>= fun exports' =>
        topLevel ev modules scope exports' ts := by
  induction ss generalizing exports with
  | nil => rfl
  | cons st ss ih =>
    cases st with
    | imports decl =>
      rw [List.cons_append, topLevel, topLevel, Attempt.bind_assoc]
      congr 1
      funext u
      exact ih _
    | const exported name e =>
      rw [List.cons_append, topLevel, topLevel, Attempt.bind_assoc]
      congr 1
      funext v
      rw [Attempt.bind_assoc]
      congr 1
      funext u
      exact ih _
    | expr e =>
      rw [List.cons_append, topLevel, topLevel, Attempt.bind_assoc]
      congr 1
      funext v
      exact ih _
    | returns e => rfl
    | returnsNothing => rfl

/-! ## What does not change the store -/

theorem property_eq_ok {p : String} {v w : Value} {s s' : Store} :
    Run.property p v s = (.ok w, s') ↔ v.get? p = some w ∧ s' = s := by
  unfold Run.property
  cases v.get? p with
  | none => simp [Run.throw, Attempt.fail]
  | some x => simp [eq_comm]

theorem lookup_eq_ok {n : String} {scope : ScopeId} {v : Value} {s s' : Store} :
    Run.lookup n scope s = (.ok v, s') ↔ s.lookup n scope = some v ∧ s' = s := by
  unfold Run.lookup
  rw [Attempt.bind_eq_ok]
  simp only [Attempt.gets, Prod.mk.injEq, Except.ok.injEq]
  constructor
  · rintro ⟨a, s₁, ⟨rfl, rfl⟩, h⟩
    cases ha : s.lookup n scope with
    | none => simp [ha, Run.throw, Attempt.fail] at h
    | some w =>
      rw [ha, Attempt.pure_eq_ok] at h
      exact ⟨h.1 ▸ rfl, h.2.symm⟩
  · rintro ⟨h, rfl⟩
    exact ⟨some v, s', ⟨h, rfl⟩, rfl⟩

theorem nameValue_store {scope : ScopeId} {n : String} {v : Value} {s s' : Store}
    (h : nameValue scope n s = (.ok v, s')) : s' = s := by
  unfold nameValue at h
  split at h
  · exact (Attempt.pure_eq_ok.mp h).2.symm
  · exact (lookup_eq_ok.mp h).2

theorem spread_store {fields added : Fields} {v : Value} {s s' : Store}
    (h : Run.spread fields v s = (.ok added, s')) : s' = s := by
  unfold Run.spread at h
  cases v <;> first
    | exact (Attempt.pure_eq_ok.mp h).2.symm
    | exact absurd h Attempt.fail_ne_ok

theorem follow_store {v w : Value} {names : List String} {s s' : Store}
    (h : follow v names s = (.ok w, s')) : s' = s := by
  induction names generalizing v with
  | nil => exact (Attempt.pure_eq_ok.mp h).2.symm
  | cons n names ih =>
    obtain ⟨x, s₁, hx, h⟩ := Attempt.bind_eq_ok.mp h
    rw [(property_eq_ok.mp hx).2] at h
    exact ih h

theorem elementType_store {scope : ScopeId} {name : String} {type : ElementType} {s s' : Store}
    (h : elementType scope name s = (.ok type, s')) : s' = s := by
  unfold elementType at h
  split at h
  · exact (Attempt.pure_eq_ok.mp h).2.symm
  · cases hsegments : segments name with
    | nil =>
      rw [hsegments] at h
      exact absurd h Attempt.fail_ne_ok
    | cons first rest =>
      rw [hsegments] at h
      obtain ⟨v, s₁, hv, h⟩ := Attempt.bind_eq_ok.mp h
      obtain ⟨w, s₂, hw, h⟩ := Attempt.bind_eq_ok.mp h
      rw [(lookup_eq_ok.mp hv).2] at hw
      rw [follow_store hw] at h
      cases w with
      | function f => exact (Attempt.pure_eq_ok.mp h).2.symm
      | _ => exact absurd h Attempt.fail_ne_ok

/-! ## Every evaluation that succeeds has a derivation -/

/-- The rules cover all successes of the evaluator. -/
def Covers (ev : Evaluator) (J : Judgement) : Prop :=
  ∀ scope e s v s', ev scope e s = (.ok v, s') → ∃ l, J scope e s v s' l

namespace Covers

variable {ev : Evaluator} {J : Judgement} (hev : Covers ev J)
include hev

theorem items {scope : ScopeId} {es : List Expr} {s s' : Store} {vs : List Value}
    (h : all ev scope es s = (.ok vs, s')) : ∃ l, Items J scope es s vs s' l := by
  induction es generalizing s vs with
  | nil =>
    obtain ⟨rfl, rfl⟩ := Attempt.pure_eq_ok.mp h
    exact ⟨_, .nil⟩
  | cons e es ih =>
    obtain ⟨v, s₁, hv, h⟩ := Attempt.bind_eq_ok.mp h
    obtain ⟨ws, s₂, hws, h⟩ := Attempt.bind_eq_ok.mp h
    obtain ⟨rfl, rfl⟩ := Attempt.pure_eq_ok.mp h
    obtain ⟨l₁, hl₁⟩ := hev _ _ _ _ _ hv
    obtain ⟨l₂, hl₂⟩ := ih hws
    exact ⟨_, .cons hl₁ hl₂⟩

theorem named {name : String} {scope : ScopeId} {e : Expr} {s s' : Store} {v : Value}
    (h : named ev name scope e s = (.ok v, s')) : ∃ l, Named J name scope e s v s' l := by
  unfold Eval.named at h
  split at h
  · exact ⟨_, .arrow h⟩
  · rename_i hne
    obtain ⟨l, hl⟩ := hev _ _ _ _ _ h
    exact ⟨l, .other hne hl⟩

theorem block {scope : ScopeId} {ss : List Statement} {s s' : Store} {v : Value}
    (h : block ev scope ss s = (.ok v, s')) : ∃ l, Block J scope ss s v s' l := by
  induction ss generalizing s with
  | nil =>
    obtain ⟨rfl, rfl⟩ := Attempt.pure_eq_ok.mp h
    exact ⟨_, .nil⟩
  | cons st ss ih =>
    cases st with
    | imports decl => exact absurd h Attempt.fail_ne_ok
    | const exported name e =>
      obtain ⟨w, s₁, hw, h⟩ := Attempt.bind_eq_ok.mp h
      obtain ⟨u, s₂, hu, h⟩ := Attempt.bind_eq_ok.mp h
      cases hu
      obtain ⟨l₁, hl₁⟩ := hev.named hw
      obtain ⟨l₂, hl₂⟩ := ih h
      exact ⟨_, .const hl₁ hl₂⟩
    | returns e =>
      obtain ⟨l, hl⟩ := hev _ _ _ _ _ h
      exact ⟨l, .returns hl⟩
    | returnsNothing =>
      obtain ⟨rfl, rfl⟩ := Attempt.pure_eq_ok.mp h
      exact ⟨_, .returnsNothing⟩
    | expr e =>
      obtain ⟨w, s₁, hw, h⟩ := Attempt.bind_eq_ok.mp h
      obtain ⟨l₁, hl₁⟩ := hev _ _ _ _ _ hw
      obtain ⟨l₂, hl₂⟩ := ih h
      exact ⟨_, .expr hl₁ hl₂⟩

theorem returned {scope : ScopeId} {b : Body} {s s' : Store} {v : Value}
    (h : bodyOf ev scope b s = (.ok v, s')) : ∃ l, Returned J scope b s v s' l := by
  cases b with
  | result e =>
    obtain ⟨l, hl⟩ := hev _ _ _ _ _ h
    exact ⟨l, .result hl⟩
  | block ss =>
    obtain ⟨l, hl⟩ := hev.block h
    exact ⟨l, .block hl⟩

theorem called {callee : Value} {arguments : List Value} {s s' : Store} {v : Value}
    (h : callWith ev callee arguments s = (.ok v, s')) : ∃ l, Called J callee arguments s v s' l := by
  cases callee with
  | function f =>
    obtain ⟨stack, s₁, hstack, h⟩ := Attempt.bind_eq_ok.mp h
    cases hstack
    obtain ⟨scope, s₂, hscope, h⟩ := Attempt.bind_eq_ok.mp h
    cases hscope
    obtain ⟨u, s₃, hu, h⟩ := Attempt.bind_eq_ok.mp h
    obtain ⟨l, hl⟩ := hev.returned h
    exact ⟨l, .function hu hl⟩
  | builtin b => exact ⟨_, .builtin h⟩
  | _ =>
    obtain ⟨shown, s₁, -, h⟩ := Attempt.bind_eq_ok.mp h
    exact absurd h Attempt.fail_ne_ok

theorem fieldsOf {scope : ScopeId} {fields fields' : Fields} {ps : List Property} {s s' : Store}
    (h : objectFields ev scope fields ps s = (.ok fields', s')) :
    ∃ l, FieldsOf J scope fields ps s fields' s' l := by
  induction ps generalizing s fields with
  | nil =>
    obtain ⟨rfl, rfl⟩ := Attempt.pure_eq_ok.mp h
    exact ⟨_, .nil⟩
  | cons p ps ih =>
    cases p with
    | entry key e =>
      obtain ⟨v, s₁, hv, h⟩ := Attempt.bind_eq_ok.mp h
      obtain ⟨l₁, hl₁⟩ := hev _ _ _ _ _ hv
      obtain ⟨l₂, hl₂⟩ := ih h
      exact ⟨_, .entry hl₁ hl₂⟩
    | shorthand n =>
      obtain ⟨v, s₁, hv, h⟩ := Attempt.bind_eq_ok.mp h
      cases nameValue_store hv
      obtain ⟨l, hl⟩ := ih h
      exact ⟨_, .shorthand hv hl⟩
    | spread e =>
      obtain ⟨v, s₁, hv, h⟩ := Attempt.bind_eq_ok.mp h
      obtain ⟨added, s₂, hadded, h⟩ := Attempt.bind_eq_ok.mp h
      cases spread_store hadded
      obtain ⟨l₁, hl₁⟩ := hev _ _ _ _ _ hv
      obtain ⟨l₂, hl₂⟩ := ih h
      exact ⟨_, .spread hl₁ hadded hl₂⟩

theorem attributes {scope : ScopeId} {g g' : Given} {as : List Attribute} {s s' : Store}
    (h : attributes ev scope g as s = (.ok g', s')) :
    ∃ l, Attributes J scope g as s g' s' l := by
  induction as generalizing s g with
  | nil =>
    obtain ⟨rfl, rfl⟩ := Attempt.pure_eq_ok.mp h
    exact ⟨_, .nil⟩
  | cons a as ih =>
    cases a with
    | bare name =>
      obtain ⟨l, hl⟩ := ih h
      exact ⟨_, .bare hl⟩
    | text name raw =>
      obtain ⟨l, hl⟩ := ih h
      exact ⟨_, .text hl⟩
    | value name e =>
      obtain ⟨v, s₁, hv, h⟩ := Attempt.bind_eq_ok.mp h
      obtain ⟨l₁, hl₁⟩ := hev _ _ _ _ _ hv
      obtain ⟨l₂, hl₂⟩ := ih h
      exact ⟨_, .value hl₁ hl₂⟩
    | spread e =>
      obtain ⟨v, s₁, hv, h⟩ := Attempt.bind_eq_ok.mp h
      obtain ⟨props, s₂, hprops, h⟩ := Attempt.bind_eq_ok.mp h
      cases spread_store hprops
      obtain ⟨l₁, hl₁⟩ := hev _ _ _ _ _ hv
      obtain ⟨l₂, hl₂⟩ := ih h
      exact ⟨_, .spread hl₁ hprops hl₂⟩

/-- The values of children are what they contribute, one after the other. -/
theorem children {scope : ScopeId} {cs : List Child} {s s' : Store} {vs : List Value}
    (h : childValues ev scope cs s = (.ok vs, s')) :
    ∃ given l, Children J scope cs s given s' l ∧ given.filterMap id = vs := by
  induction cs generalizing s vs with
  | nil =>
    obtain ⟨rfl, rfl⟩ := Attempt.pure_eq_ok.mp h
    exact ⟨_, _, .nil, rfl⟩
  | cons c cs ih =>
    cases c with
    | text t =>
      obtain ⟨ws, s₁, hws, h⟩ := Attempt.bind_eq_ok.mp h
      obtain ⟨hvs, rfl⟩ := Attempt.pure_eq_ok.mp h
      obtain ⟨given, l, hl, rfl⟩ := ih hws
      split at hvs
      · rename_i hempty
        exact ⟨_, _, .cons (.hidden hempty) hl, hvs⟩
      · rename_i hshown
        exact ⟨_, _, .cons (.text hshown) hl, hvs⟩
    | emptyContainer span =>
      obtain ⟨given, l, hl, rfl⟩ := ih h
      exact ⟨_, _, .cons .emptyContainer hl, rfl⟩
    | container e span =>
      obtain ⟨v, s₁, hv, h⟩ := Attempt.bind_eq_ok.mp h
      obtain ⟨ws, s₂, hws, h⟩ := Attempt.bind_eq_ok.mp h
      obtain ⟨rfl, rfl⟩ := Attempt.pure_eq_ok.mp h
      obtain ⟨l₁, hl₁⟩ := hev _ _ _ _ _ hv
      obtain ⟨given, l₂, hl₂, rfl⟩ := ih hws
      exact ⟨_, _, .cons (.container hl₁) hl₂, rfl⟩
    | element e =>
      obtain ⟨v, s₁, hv, h⟩ := Attempt.bind_eq_ok.mp h
      obtain ⟨ws, s₂, hws, h⟩ := Attempt.bind_eq_ok.mp h
      obtain ⟨rfl, rfl⟩ := Attempt.pure_eq_ok.mp h
      obtain ⟨l₁, hl₁⟩ := hev _ _ _ _ _ hv
      obtain ⟨given, l₂, hl₂, rfl⟩ := ih hws
      exact ⟨_, _, .cons (.element hl₁) hl₂, rfl⟩

theorem created {scope : ScopeId} {e : Element} {s s' : Store} {v : Value}
    (h : createElement ev scope e s = (.ok v, s')) :
    ∃ c l, v = .element c ∧ Created J scope e s c s' l := by
  obtain ⟨type, s₁, htype, h⟩ := Attempt.bind_eq_ok.mp h
  cases elementType_store htype
  obtain ⟨g, s₂, hg, h⟩ := Attempt.bind_eq_ok.mp h
  obtain ⟨vs, s₃, hvs, h⟩ := Attempt.bind_eq_ok.mp h
  obtain ⟨props, s₄, hprops, hmade⟩ := Attempt.bind_eq_ok.mp h
  obtain ⟨l₁, hl₁⟩ := hev.attributes hg
  obtain ⟨given, l₂, hl₂, rfl⟩ := hev.children hvs
  obtain ⟨c, rfl⟩ : ∃ c, v = .element c := by
    obtain ⟨p, s₅, -, h⟩ := Attempt.bind_eq_ok.mp hmade
    obtain ⟨q, s₆, -, h⟩ := Attempt.bind_eq_ok.mp h
    exact ⟨_, (Attempt.pure_eq_ok.mp h).1.symm⟩
  exact ⟨c, _, rfl, .mk htype hl₁ hl₂ hprops hmade⟩

theorem steps : Covers (step ev) (Steps J) := by
  intro scope e s v s' h
  cases e with
  | text t =>
    obtain ⟨rfl, rfl⟩ := Attempt.pure_eq_ok.mp h
    exact ⟨_, .text⟩
  | number n =>
    obtain ⟨rfl, rfl⟩ := Attempt.pure_eq_ok.mp h
    exact ⟨_, .number⟩
  | bool b =>
    obtain ⟨rfl, rfl⟩ := Attempt.pure_eq_ok.mp h
    exact ⟨_, .bool⟩
  | null =>
    obtain ⟨rfl, rfl⟩ := Attempt.pure_eq_ok.mp h
    exact ⟨_, .null⟩
  | this =>
    obtain ⟨rfl, rfl⟩ := Attempt.pure_eq_ok.mp h
    exact ⟨_, .this⟩
  | name n =>
    cases nameValue_store h
    exact ⟨_, .name h⟩
  | member e p =>
    obtain ⟨w, s₁, hw, h⟩ := Attempt.bind_eq_ok.mp h
    obtain ⟨hread, rfl⟩ := property_eq_ok.mp h
    obtain ⟨l, hl⟩ := hev _ _ _ _ _ hw
    exact ⟨_, .member hl hread⟩
  | call callee arguments =>
    obtain ⟨f, s₁, hf, h⟩ := Attempt.bind_eq_ok.mp h
    obtain ⟨vs, s₂, hvs, h⟩ := Attempt.bind_eq_ok.mp h
    obtain ⟨l₁, hl₁⟩ := hev _ _ _ _ _ hf
    obtain ⟨l₂, hl₂⟩ := hev.items hvs
    obtain ⟨l₃, hl₃⟩ := hev.called h
    exact ⟨_, .call hl₁ hl₂ hl₃⟩
  | arrow params body => exact ⟨_, .arrow h⟩
  | object ps =>
    obtain ⟨fields, s₁, hfields, h⟩ := Attempt.bind_eq_ok.mp h
    obtain ⟨l, hl⟩ := hev.fieldsOf hfields
    exact ⟨_, .object hl h⟩
  | array items =>
    obtain ⟨vs, s₁, hvs, h⟩ := Attempt.bind_eq_ok.mp h
    obtain ⟨l, hl⟩ := hev.items hvs
    exact ⟨_, .array hl h⟩
  | paren e =>
    obtain ⟨l, hl⟩ := hev _ _ _ _ _ h
    exact ⟨_, .paren hl⟩
  | markup e =>
    obtain ⟨c, l, rfl, hl⟩ := hev.created h
    exact ⟨_, .markup hl⟩
  | location literal =>
    obtain ⟨place, s₁, hplace, h⟩ := Attempt.bind_eq_ok.mp h
    cases hplace
    exact ⟨_, .location h⟩
  | helper x => exact ⟨_, .helper h⟩

theorem topLevel {modules : Importable} {scope : ScopeId} {exports exports' : Fields}
    {ss : List Statement} {s s' : Store}
    (h : topLevel ev modules scope exports ss s = (.ok exports', s')) :
    ∃ l, TopLevel J modules scope exports ss s exports' s' l := by
  induction ss generalizing s exports with
  | nil =>
    obtain ⟨rfl, rfl⟩ := Attempt.pure_eq_ok.mp h
    exact ⟨_, .nil⟩
  | cons st ss ih =>
    cases st with
    | imports decl =>
      obtain ⟨u, s₁, hu, h⟩ := Attempt.bind_eq_ok.mp h
      obtain ⟨l, hl⟩ := ih h
      exact ⟨_, .imports hu hl⟩
    | const exported name e =>
      obtain ⟨w, s₁, hw, h⟩ := Attempt.bind_eq_ok.mp h
      obtain ⟨u, s₂, hu, h⟩ := Attempt.bind_eq_ok.mp h
      cases hu
      obtain ⟨l₁, hl₁⟩ := hev.named hw
      obtain ⟨l₂, hl₂⟩ := ih h
      exact ⟨_, .const hl₁ hl₂⟩
    | returns e => exact absurd h Attempt.fail_ne_ok
    | returnsNothing => exact absurd h Attempt.fail_ne_ok
    | expr e =>
      obtain ⟨w, s₁, hw, h⟩ := Attempt.bind_eq_ok.mp h
      obtain ⟨l₁, hl₁⟩ := hev _ _ _ _ _ hw
      obtain ⟨l₂, hl₂⟩ := ih h
      exact ⟨_, .expr hl₁ hl₂⟩

end Covers

theorem covers_eval (n : Nat) : Covers (eval n) (Derives n) := by
  induction n with
  | zero =>
    intro scope e s v s' h
    exact absurd h Attempt.fail_ne_ok
  | succ n ih => exact ih.steps

theorem exists_called {depth : Nat} {callee v : Value} {arguments : List Value} {s s' : Store}
    (h : call depth callee arguments s = (.ok v, s')) :
    ∃ log, Called (Derives depth) callee arguments s v s' log :=
  (covers_eval depth).called h

theorem exists_loads {depth : Nat} {modules : Importable} {stack : StackId} {m : Module}
    {s s' : Store} {exports : Fields} (h : load depth modules stack m s = (.ok exports, s')) :
    ∃ log, Loads depth modules stack m s exports s' log := by
  obtain ⟨scope, s₁, hscope, h⟩ := Attempt.bind_eq_ok.mp h
  cases hscope
  exact (covers_eval depth).topLevel h

end MarkupTrace.Eval
