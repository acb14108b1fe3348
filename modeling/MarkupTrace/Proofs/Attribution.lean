import MarkupTrace.Proofs.Recording

/-!
# Evaluation keeps the books

An evaluation that succeeds leaves all stacks as they were, changes no record that was there, and
accounts for every element it creates. This is shown along its derivation, by induction on the
depth. Inside an element the stack is not as it was: the element's record lies on top from its last
attribute to its last recorded child. What is evaluated in between does not notice.
-/

namespace MarkupTrace.Eval

open Source Annotate Store

variable {Γ : Typing}

namespace Accounted

variable {before : Nat} {but : Option Nat} {s s' : Store} {log log' : List Creation}

theorem nil : Accounted Γ before s [] := by
  intro c hc
  cases hc

/-- Accounts stay right while the store grows, records made before aside. -/
theorem grow (h : Accounted Γ before s log) (hs : s.Grows but s')
    (hbut : ∀ r, but = some r → r < before) (hsub : log ⊆ log') :
    ∀ c ∈ log, before ≤ c.before ∧
      ∃ o e, s'.Home Γ c.scope.index o ∧ o.Fits e.mentions ∧ c.From o e s' log' := by
  intro c hc
  obtain ⟨hle, o, e, hhome, hfits, hfrom⟩ := h c hc
  refine ⟨hle, o, e, hhome.grow hs, hfits, hfrom.element, ?_, hfrom.gathered, ?_⟩
  · exact hfrom.contributed.imp fun _ _ hv => hv.mono hsub
  · intro i hi hsource
    obtain ⟨r, hvalue, hfresh, hlt, hplace, hrecorded⟩ := hfrom.attributed i hi hsource
    have hne : but ≠ some r.index := by
      intro heq
      have := hbut r.index heq
      omega
    exact ⟨r, hvalue, hfresh, hlt.trans_le hs.size, hplace, (hs.recorded hlt hne).trans hrecorded⟩

theorem append {before' : Nat} (h : Accounted Γ before s log) (hs : s.Grows but s')
    (hbut : ∀ r, but = some r → r < before) (h' : Accounted Γ before' s' log')
    (hle : before ≤ before') : Accounted Γ before s' (log ++ log') := by
  intro c hc
  rcases List.mem_append.mp hc with hc | hc
  · exact h.grow hs hbut (List.subset_append_left _ _) c hc
  · obtain ⟨hle', hrest⟩ :=
      h'.grow (show s'.Grows none s' from .refl s') nofun (List.subset_append_right _ _) c hc
    exact ⟨hle.trans hle', hrest⟩

end Accounted

/-- What every evaluation does. -/
structure Keeps (Γ : Typing) (s s' : Store) (log : List Creation) : Prop where
  sound : s'.Sound Γ
  grows : s.Grows none s'
  stackEntries : s'.stackEntries = s.stackEntries
  accounted : Accounted Γ s.records.size s' log

namespace Keeps

variable {s s₁ s₂ : Store} {l₁ l₂ : List Creation}

theorem refl (h : s.Sound Γ) : Keeps Γ s s [] := ⟨h, .refl s, rfl, .nil⟩

theorem trans (h₁ : Keeps Γ s s₁ l₁) (h₂ : Keeps Γ s₁ s₂ l₂) : Keeps Γ s s₂ (l₁ ++ l₂) :=
  ⟨h₂.sound, h₁.grows.trans h₂.grows, h₂.stackEntries.trans h₁.stackEntries,
    h₁.accounted.append h₂.grows nofun h₂.accounted h₁.grows.size⟩

/-- A step that creates no element behind an evaluation. -/
theorem andThen (h₁ : Keeps Γ s s₁ l₁) (h₂ : Keeps Γ s₁ s₂ []) : Keeps Γ s s₂ l₁ :=
  List.append_nil l₁ ▸ h₁.trans h₂

/-- Only identities were handed out. -/
theorem of_eq (h : s.Sound Γ) (hscopes : s₁.scopes = s.scopes) (hrecords : s₁.records = s.records)
    (hstack : s₁.stackEntries = s.stackEntries) : Keeps Γ s s₁ [] :=
  ⟨h.of_scopes_eq hscopes (congrArg List.length hstack), .of_eq hscopes hrecords, hstack, .nil⟩

theorem home (h : Keeps Γ s s₁ l₁) {i : Nat} {o : Origin} (hi : s.Home Γ i o) : s₁.Home Γ i o :=
  hi.grow h.grows

theorem clean (h : Keeps Γ s s₁ l₁) {v : Value} (hv : v.Clean (s.Home Γ)) :
    v.Clean (s₁.Home Γ) := hv.mono fun _ _ hi => h.home hi

end Keeps

/-! ## Steps without evaluation -/

section

variable {s s' : Store} {scope : ScopeId} {o : Origin}

theorem identity_keeps (h : s.Sound Γ) : Keeps Γ s s.identity.2 [] := .of_eq h rfl rfl rfl

theorem array_keeps {items : List Value} {v : Value} (h : s.Sound Γ)
    (hitems : ∀ v ∈ items, v.Clean (s.Home Γ)) (hv : Run.array items s = (.ok v, s')) :
    Keeps Γ s s' [] ∧ v.Clean (s'.Home Γ) := by
  cases hv
  have hkeeps := identity_keeps h
  exact ⟨hkeeps, .array _ fun v hv => hkeeps.clean (hitems v hv)⟩

theorem object_keeps {fields : Fields} {v : Value} (h : s.Sound Γ)
    (hfields : ∀ e ∈ fields, e.2.Clean (s.Home Γ)) (hv : Run.object fields s = (.ok v, s')) :
    Keeps Γ s s' [] ∧ v.Clean (s'.Home Γ) := by
  cases hv
  have hkeeps := identity_keeps h
  exact ⟨hkeeps, .object _ fun e he => hkeeps.clean (hfields e he)⟩

theorem closure_keeps {name : Option String} {params : List Param} {b : Body} {v : Value}
    (h : s.Sound Γ) (hi : s.Home Γ scope.index o)
    (hfits : o.Fits (params.flatMap Param.mentions ++ b.mentions))
    (hv : Run.closure name params (o.body b) scope s = (.ok v, s')) :
    Keeps Γ s s' [] ∧ v.Clean (s'.Home Γ) := by
  cases hv
  have hkeeps := identity_keeps h
  exact ⟨hkeeps, .function ⟨o, b, hkeeps.home hi, rfl, hfits⟩⟩

theorem nameValue_clean {n : String} {v : Value} (h : s.Sound Γ) (hi : s.Home Γ scope.index o)
    (hn : n ∉ o.hidden) (hv : nameValue scope n s = (.ok v, s)) : v.Clean (s.Home Γ) := by
  unfold nameValue at hv
  split_ifs at hv with hundefined
  · cases hv
    exact .undefined
  · exact h.lookup_clean hi hn (lookup_eq_ok.mp hv).1

theorem declare_keeps {n : String} {v : Value} (h : s.Sound Γ) (hi : s.Home Γ scope.index o)
    (hn : n ∉ o.hidden) (hv : v.Clean (s.Home Γ)) : Keeps Γ s (s.declare scope n v) [] :=
  ⟨h.declare hi hn hv, grows_declare scope.index n v s, rfl, .nil⟩

theorem bindProperties_keeps {argument : Value} {names : List String} (h : s.Sound Γ)
    (hi : s.Home Γ scope.index o) (hargument : argument.Clean (s.Home Γ))
    (hnames : ∀ n ∈ names, n ∉ o.hidden)
    (hb : bindProperties scope argument names s = (.ok (), s')) : Keeps Γ s s' [] := by
  induction names generalizing s with
  | nil =>
    cases hb
    exact .refl h
  | cons n names ih =>
    rw [List.forall_mem_cons] at hnames
    obtain ⟨v, s₁, hv, hrest⟩ := Attempt.bind_eq_ok.mp hb
    obtain ⟨hread, rfl⟩ := property_eq_ok.mp hv
    obtain ⟨u, s₂, hu, hrest⟩ := Attempt.bind_eq_ok.mp hrest
    cases hu
    have hkeeps := declare_keeps h hi hnames.1 (hargument.get? hread)
    exact hkeeps.trans (ih hkeeps.sound (hkeeps.home hi) (hkeeps.clean hargument) hnames.2 hrest)

theorem bindParams_keeps {params : List Param} {arguments : List Value} (h : s.Sound Γ)
    (hi : s.Home Γ scope.index o) (harguments : ∀ v ∈ arguments, v.Clean (s.Home Γ))
    (hfits : o.Fits (params.flatMap Param.mentions))
    (hb : bindParams scope params arguments s = (.ok (), s')) : Keeps Γ s s' [] := by
  induction params generalizing s arguments with
  | nil =>
    cases hb
    exact .refl h
  | cons p params ih =>
    rw [List.flatMap_cons] at hfits
    have hargument : (arguments.headD .undefined).Clean (s.Home Γ) := by
      cases arguments with
      | nil => exact .undefined
      | cons v vs => exact harguments v List.mem_cons_self
    obtain ⟨s₁, hkeeps, hrest⟩ : ∃ s₁, Keeps Γ s s₁ [] ∧
        bindParams scope params arguments.tail s₁ = (.ok (), s') := by
      cases p with
      | name n =>
        obtain ⟨u, s₁, hu, hrest⟩ := Attempt.bind_eq_ok.mp hb
        cases hu
        exact ⟨_, declare_keeps h hi (hfits.left.binder List.mem_cons_self) hargument, hrest⟩
      | properties names =>
        obtain ⟨u, s₁, hu, hrest⟩ := Attempt.bind_eq_ok.mp hb
        refine ⟨s₁, bindProperties_keeps h hi hargument ?_ hu, hrest⟩
        intro n hn
        exact hfits.left.binder (List.mem_flatMap.mpr ⟨n, hn, List.mem_cons_self⟩)
    exact hkeeps.trans (ih hkeeps.sound (hkeeps.home hi)
      (fun v hv => hkeeps.clean (harguments v (List.mem_of_mem_tail hv))) hfits.right hrest)

theorem follow_inert {v w : Value} {names : List String} (hv : v.Inert)
    (h : follow v names s = (.ok w, s')) : w.Inert := by
  induction names generalizing v s with
  | nil =>
    cases h
    exact hv
  | cons n names ih =>
    obtain ⟨x, s₁, hx, h⟩ := Attempt.bind_eq_ok.mp h
    exact ih (hv.get? (property_eq_ok.mp hx).1) h

theorem follow_clean {home : Nat → Origin → Prop} {v w : Value} {names : List String}
    (hv : v.Clean home) (h : follow v names s = (.ok w, s')) : w.Clean home := by
  induction names generalizing v s with
  | nil =>
    cases h
    exact hv
  | cons n names ih =>
    obtain ⟨x, s₁, hx, h⟩ := Attempt.bind_eq_ok.mp h
    exact ih (hv.get? (property_eq_ok.mp hx).1) h

/-- Components are clean functions, whatever the tag: what annotation declares leads to none. -/
theorem elementType_clean {name : String} {type : ElementType} (h : s.Sound Γ)
    (hi : s.Home Γ scope.index o) (ht : elementType scope name s = (.ok type, s)) :
    ∀ f, type = .component f → f.Clean (s.Home Γ) := by
  rintro f rfl
  unfold elementType at ht
  split_ifs at ht with hhost
  · cases ht
  · cases hsegments : segments name with
    | nil =>
      rw [hsegments] at ht
      exact absurd ht Attempt.fail_ne_ok
    | cons first rest =>
      rw [hsegments] at ht
      obtain ⟨v, s₁, hv, ht⟩ := Attempt.bind_eq_ok.mp ht
      obtain ⟨w, s₂, hw, ht⟩ := Attempt.bind_eq_ok.mp ht
      obtain ⟨hlookup, rfl⟩ := lookup_eq_ok.mp hv
      cases w with
      | function g =>
        cases ht
        by_cases hn : first ∈ o.hidden
        · cases follow_inert (h.lookup_inert hi hn hlookup) hw
        · cases follow_clean (h.lookup_clean hi hn hlookup) hw with
          | function hg => exact hg
      | _ => exact absurd ht Attempt.fail_ne_ok

end

/-! ## Along derivations -/

/-- Evaluation of code in its scopes keeps the books and gives clean values. -/
def Preserves (Γ : Typing) (J : Judgement) : Prop :=
  ∀ (o : Origin) (scope : ScopeId) (e : Expr) (s s' : Store) (v : Value) (l : List Creation),
    s.Sound Γ → s.Home Γ scope.index o → o.Fits e.mentions → J scope (o.expr e) s v s' l →
      Keeps Γ s s' l ∧ v.Clean (s'.Home Γ)

section

variable {J : Judgement} (hJ : Preserves Γ J) {o : Origin} {scope : ScopeId} {s s' : Store}
  {v : Value} {l : List Creation}
include hJ

theorem Items.keeps {es : List Expr} {vs : List Value} (hs : s.Sound Γ)
    (hi : s.Home Γ scope.index o) (hfits : o.Fits (mentionsOfItems es))
    (h : Items J scope (o.exprs es) s vs s' l) :
    Keeps Γ s s' l ∧ ∀ v ∈ vs, v.Clean (s'.Home Γ) := by
  induction es generalizing s vs l with
  | nil =>
    rw [Origin.exprs_nil] at h
    cases h
    exact ⟨.refl hs, by simp⟩
  | cons e es ih =>
    rw [Origin.exprs_cons] at h
    rw [mentionsOfItems] at hfits
    cases h with
    | cons head tail =>
      obtain ⟨hkeeps, hv⟩ := hJ _ _ _ _ _ _ _ hs hi hfits.left head
      obtain ⟨hkeeps', hvs⟩ := ih hkeeps.sound (hkeeps.home hi) hfits.right tail
      exact ⟨hkeeps.trans hkeeps', List.forall_mem_cons.mpr ⟨hkeeps'.clean hv, hvs⟩⟩

theorem Named.keeps {name : String} {e : Expr} (hs : s.Sound Γ) (hi : s.Home Γ scope.index o)
    (hfits : o.Fits e.mentions) (h : Named J name scope (o.expr e) s v s' l) :
    Keeps Γ s s' l ∧ v.Clean (s'.Home Γ) := by
  cases e with
  | arrow params b =>
    rw [Origin.expr_arrow] at h
    rw [Expr.mentions] at hfits
    cases h with
    | arrow made => exact closure_keeps hs hi hfits made
    | other unnamed _ => exact absurd rfl (unnamed params (o.body b))
  | _ =>
    generalize he : o.expr _ = e' at h
    cases h with
    | arrow made => simp at he
    | other _ evaluated => exact hJ _ _ _ _ _ _ _ hs hi hfits (he ▸ evaluated)

theorem Block.keeps {ss : List Statement} (hs : s.Sound Γ) (hi : s.Home Γ scope.index o)
    (hfits : o.Fits (mentionsOfStatements ss)) (h : Block J scope (o.statements ss) s v s' l) :
    Keeps Γ s s' l ∧ v.Clean (s'.Home Γ) := by
  induction ss generalizing s l with
  | nil =>
    rw [Origin.statements_nil] at h
    cases h
    exact ⟨.refl hs, .undefined⟩
  | cons st ss ih =>
    rw [Origin.statements_cons] at h
    rw [mentionsOfStatements] at hfits
    cases st with
    | imports decl =>
      rw [Origin.statement_imports] at h
      cases h
    | const exported name e =>
      rw [Origin.statement_const] at h
      rw [Statement.mentions] at hfits
      cases h with
      | const bound further =>
        obtain ⟨hkeeps, hv⟩ := Named.keeps hJ hs hi hfits.left.tail bound
        have hdeclare := declare_keeps hkeeps.sound (hkeeps.home hi)
          (hfits.left.binder List.mem_cons_self) hv
        have hboth := hkeeps.andThen hdeclare
        obtain ⟨hkeeps', hw⟩ := ih hboth.sound (hboth.home hi) hfits.right further
        exact ⟨hboth.trans hkeeps', hw⟩
    | returns e =>
      rw [Origin.statement_returns] at h
      rw [Statement.mentions] at hfits
      cases h with
      | returns evaluated => exact hJ _ _ _ _ _ _ _ hs hi hfits.left evaluated
    | returnsNothing =>
      rw [Origin.statement_returnsNothing] at h
      cases h
      exact ⟨.refl hs, .undefined⟩
    | expr e =>
      rw [Origin.statement_expr] at h
      rw [Statement.mentions] at hfits
      cases h with
      | expr evaluated further =>
        obtain ⟨hkeeps, -⟩ := hJ _ _ _ _ _ _ _ hs hi hfits.left evaluated
        obtain ⟨hkeeps', hw⟩ := ih hkeeps.sound (hkeeps.home hi) hfits.right further
        exact ⟨hkeeps.trans hkeeps', hw⟩

theorem Returned.keeps {b : Body} (hs : s.Sound Γ) (hi : s.Home Γ scope.index o)
    (hfits : o.Fits b.mentions) (h : Returned J scope (o.body b) s v s' l) :
    Keeps Γ s s' l ∧ v.Clean (s'.Home Γ) := by
  cases b with
  | result e =>
    rw [Origin.body_result] at h
    rw [Body.mentions] at hfits
    cases h with
    | result evaluated => exact hJ _ _ _ _ _ _ _ hs hi hfits evaluated
  | block ss =>
    rw [Origin.body_block] at h
    rw [Body.mentions] at hfits
    cases h with
    | block ran => exact Block.keeps hJ hs hi hfits ran

/-- A call of a clean function; builtins are not clean. -/
theorem Called.keeps {callee : Value} {arguments : List Value} (hs : s.Sound Γ)
    (hcallee : callee.Clean (s.Home Γ)) (harguments : ∀ v ∈ arguments, v.Clean (s.Home Γ))
    (h : Called J callee arguments s v s' l) : Keeps Γ s s' l ∧ v.Clean (s'.Home Γ) := by
  cases h with
  | builtin done => cases hcallee
  | @function f _ _ s₁ _ _ _ bound ran =>
    cases hcallee with
    | function hf =>
      obtain ⟨o, b, hi, hbody, hfits⟩ := hf
      obtain ⟨hsound, hnew⟩ := hs.newScope hi (s.stackOf f.scope)
      have hscope : Keeps Γ s (s.newScope (some f.scope) (s.stackOf f.scope)).2 [] :=
        ⟨hsound, grows_newScope _ _ s, rfl, .nil⟩
      have hbind : Keeps Γ _ s₁ [] := bindParams_keeps hsound hnew
        (fun v hv => hscope.clean (harguments v hv)) hfits.left bound
      rw [hbody] at ran
      obtain ⟨hkeeps, hv⟩ := Returned.keeps hJ hbind.sound (hbind.home hnew) hfits.right ran
      exact ⟨(hscope.trans hbind).trans hkeeps, hv⟩

theorem FieldsOf.keeps {fields fields' : Fields} {ps : List Property} (hs : s.Sound Γ)
    (hi : s.Home Γ scope.index o) (hfits : o.Fits (mentionsOfProperties ps))
    (hfields : ∀ e ∈ fields, e.2.Clean (s.Home Γ))
    (h : FieldsOf J scope fields (o.properties ps) s fields' s' l) :
    Keeps Γ s s' l ∧ ∀ e ∈ fields', e.2.Clean (s'.Home Γ) := by
  induction ps generalizing s fields l with
  | nil =>
    rw [Origin.properties_nil] at h
    cases h
    exact ⟨.refl hs, hfields⟩
  | cons p ps ih =>
    rw [Origin.properties_cons] at h
    rw [mentionsOfProperties] at hfits
    cases p with
    | entry key e =>
      rw [Origin.property_entry] at h
      rw [Property.mentions] at hfits
      cases h with
      | entry evaluated further =>
        obtain ⟨hkeeps, hv⟩ := hJ _ _ _ _ _ _ _ hs hi hfits.left evaluated
        have hinsert := Keyed.forall_mem_insert (fun e he => hkeeps.clean (hfields e he)) hv key
        obtain ⟨hkeeps', hfields'⟩ := ih hkeeps.sound (hkeeps.home hi) hfits.right hinsert further
        exact ⟨hkeeps.trans hkeeps', hfields'⟩
    | shorthand n =>
      rw [Origin.property_shorthand] at h
      rw [Property.mentions] at hfits
      cases h with
      | shorthand found further =>
        have hv := nameValue_clean hs hi (hfits.left.shorthand List.mem_cons_self) found
        exact ih hs hi hfits.right (Keyed.forall_mem_insert hfields hv n) further
    | spread e =>
      rw [Origin.property_spread] at h
      rw [Property.mentions] at hfits
      cases h with
      | spread evaluated taken further =>
        obtain ⟨hkeeps, hv⟩ := hJ _ _ _ _ _ _ _ hs hi hfits.left evaluated
        have hspread := hv.spread (fun e he => hkeeps.clean (hfields e he)) taken
        obtain ⟨hkeeps', hfields'⟩ := ih hkeeps.sound (hkeeps.home hi) hfits.right hspread further
        exact ⟨hkeeps.trans hkeeps', hfields'⟩

end

end MarkupTrace.Eval
