import MarkupTrace.Proofs.Loading
import MarkupTrace.Proofs.SimulatedElements

/-!
# Loading in two runs

A module is loaded on both sides, from similar modules to import. Both sides open a root scope and
bind the same imports; then each side binds its own declarations, if it has any, and from there on
the scope is typed and code runs as everywhere.
-/

namespace MarkupTrace

open Source Annotate Store

/-- The comparison with a further root scope on both sides. -/
def Comparison.open (C : Comparison) (s t : Store) (o₁ o₂ : Origin) : Comparison :=
  ⟨C.left.open s o₁, C.right.open t o₂, C.records, C.legible⟩

/-- Modules under the same specifiers with similar exports. -/
def Comparison.SimilarModules (C : Comparison) (s t : Store) :
    Eval.Importable → Eval.Importable → Prop :=
  Keyed.Related (C.SimilarFields s t)

/-- Both stores have one more root scope, with similar bindings in it. -/
structure BothOpened (C : Comparison) (o₁ o₂ : Origin) (stack₁ stack₂ : StackId)
    (b₁ b₂ : Keyed Value) (s t s₁ t₁ : Store) : Prop where
  left : Opened C.left o₁ stack₁ b₁ s s₁
  right : Opened C.right o₂ stack₂ b₂ t t₁
  next : s₁.next = t₁.next
  bindings : ∀ n, n ∉ o₁.hidden → n ∉ o₂.hidden →
    Option.Rel (C.Similar s t) (b₁.get? n) (b₂.get? n)

namespace BothOpened

variable {C : Comparison} {o₁ o₂ : Origin} {stack₁ stack₂ : StackId} {b₁ b₂ : Keyed Value}
  {s t s₁ t₁ : Store}

theorem identity (h : BothOpened C o₁ o₂ stack₁ stack₂ b₁ b₂ s t s₁ t₁) :
    BothOpened C o₁ o₂ stack₁ stack₂ b₁ b₂ s t s₁.identity.2 t₁.identity.2 :=
  ⟨h.left.identity, h.right.identity, congrArg (· + 1) h.next, h.bindings⟩

theorem declare (h : BothOpened C o₁ o₂ stack₁ stack₂ b₁ b₂ s t s₁ t₁) (n : String) {v w : Value}
    (hv : C.Similar s t v w) :
    BothOpened C o₁ o₂ stack₁ stack₂ (b₁.insert n v) (b₂.insert n w) s t
      (s₁.declare ⟨s.scopes.size⟩ n v) (t₁.declare ⟨t.scopes.size⟩ n w) := by
  refine ⟨h.left.declare (.inr (Value.Similar.clean hv)),
    h.right.declare (.inr (Value.Similar.clean (Value.Similar.symm hv))), h.next, ?_⟩
  intro m hm₁ hm₂
  by_cases hmn : m = n
  · subst hmn
    rw [Keyed.get?_insert_self, Keyed.get?_insert_self]
    exact .some hv
  · rw [Keyed.get?_insert_of_ne hmn, Keyed.get?_insert_of_ne hmn]
    exact h.bindings m hm₁ hm₂

/-- Once everything is declared, code may run in the new scope. -/
theorem placed (h : BothOpened C o₁ o₂ stack₁ stack₂ b₁ b₂ s t s₁ t₁) (ha : Alike C s t)
    (hdeclared₁ : o₁.Declared b₁) (hdeclared₂ : o₂.Declared b₂)
    (hstack₁ : ∀ i, o₁ = .annotated i → i.stack.index < s.stackEntries.length)
    (hstack₂ : ∀ i, o₂ = .annotated i → i.stack.index < t.stackEntries.length) :
    Placed (C.open s t o₁ o₂) o₁ o₂ ⟨s.scopes.size⟩ s₁ t₁ ∧
      ∀ v w, C.Similar s t v w → (C.open s t o₁ o₂).Similar s₁ t₁ v w := by
  have hold₁ : ∀ k < s.scopes.size, C.left.open s o₁ k = C.left k := fun k hk => if_neg hk.ne
  have hold₂ : ∀ k < t.scopes.size, C.right.open t o₂ k = C.right k := fun k hk => if_neg hk.ne
  have hmono₁ : ∀ i o, s.Home C.left i o → s₁.Home (C.left.open s o₁) i o := fun i o hi =>
    hi.mono h.left.grows fun k o' hk hΓ => (hold₁ k hk).trans hΓ
  have hmono₂ : ∀ i o, t.Home C.right i o → t₁.Home (C.right.open t o₂) i o := fun i o hi =>
    hi.mono h.right.grows fun k o' hk hΓ => (hold₂ k hk).trans hΓ
  have hsimilar : ∀ v w, C.Similar s t v w → (C.open s t o₁ o₂).Similar s₁ t₁ v w :=
    fun v w hv => Value.Similar.mono hv hmono₁ hmono₂
  have hhome₁ := h.left.home (C.left.open s o₁) rfl
  have hhome₂ := h.right.home (C.right.open t o₂) rfl
  have hsize := ha.size_eq
  refine ⟨⟨⟨h.left.sound ha.left hdeclared₁ hstack₁, h.right.sound ha.right hdeclared₂ hstack₂,
    h.next, ?_, ?_, ?_, ?_⟩, hhome₁, ?_⟩, hsimilar⟩
  · intro i
    rw [h.left.scopes, h.right.scopes, Array.getElem?_push, Array.getElem?_push, hsize]
    split_ifs
    · rfl
    · exact ha.parents i
  · intro i p₁ p₂ sc₁ sc₂ hi₁ hi₂ hsc₁ hsc₂ n hn₁ hn₂
    rw [h.left.scopes, Array.getElem?_push] at hsc₁
    rw [h.right.scopes, Array.getElem?_push] at hsc₂
    rw [hsize] at hsc₁
    split_ifs at hsc₁ hsc₂ with heq
    · cases hsc₁
      cases hsc₂
      subst heq
      rw [← hsize] at hi₁
      cases hi₁.unique hhome₁
      cases hi₂.unique hhome₂
      exact rel_imp (h.bindings n hn₁ hn₂) hsimilar
    · have hlt₁ := (Array.getElem?_eq_some_iff.mp hsc₁).1
      have hlt₂ := (Array.getElem?_eq_some_iff.mp hsc₂).1
      have hrel := ha.bindings i p₁ p₂ sc₁ sc₂ (hi₁.shrink h.left.grows hold₁ hlt₁)
        (hi₂.shrink h.right.grows hold₂ hlt₂) hsc₁ hsc₂ n hn₁ hn₂
      exact rel_imp hrel hsimilar
  · exact ⟨h.left.records ▸ ha.holds₁.size, fun i hi => h.left.records ▸ ha.holds₁.same i hi⟩
  · exact ⟨h.right.records ▸ ha.holds₂.size, fun i hi => h.right.records ▸ ha.holds₂.same i hi⟩
  · rw [hsize]
    exact hhome₂

end BothOpened

namespace Eval

variable {C : Comparison} {o₁ o₂ : Origin} {scope : ScopeId} {s t : Store}

/-! ## Imports -/

theorem find?_eq_get? (modules : Importable) (specifier : String) :
    (modules.find? fun m => m.1 == specifier).map (·.2) = Keyed.get? specifier modules := by
  induction modules with
  | nil => rfl
  | cons m modules ih =>
    obtain ⟨k, fields⟩ := m
    rw [List.find?_cons, Keyed.get?]
    by_cases hk : k = specifier
    · simp [hk]
    · have hne : (k == specifier) = false := by simpa using hk
      rw [hne, if_neg hk]
      exact ih

section

variable {I : Store → Store → Prop} {home₁ home₂ : Nat → Origin → Prop} {bound : Nat}
  (hnext : ∀ s t, I s t → s.next = t.next)
  (hidentity : ∀ s t, I s t → I s.identity.2 t.identity.2)
  {found₁ found₂ : Option Fields}
  (hfound : Option.Rel (Keyed.Related (Value.Similar home₁ home₂ bound)) found₁ found₂)
include hnext hidentity hfound

theorem importedValue_matches (h : I s t) (imported : Imported) :
    Matches (fun v w s' t' => Value.Similar home₁ home₂ bound v w ∧ I s' t')
      (importedValue found₁ imported s) (importedValue found₂ imported t) := by
  have hget : ∀ key, Value.Similar home₁ home₂ bound
      ((found₁.bind (Keyed.get? key)).getD .undefined)
      ((found₂.bind (Keyed.get? key)).getD .undefined) := by
    intro key
    cases hfound with
    | none => exact .undefined
    | some hfields => exact .getD (hfields.get? key)
  cases imported with
  | default => exact .ok ⟨hget "default", h⟩
  | named n => exact .ok ⟨hget n, h⟩
  | everything =>
    cases hfound with
    | none => exact .ok ⟨.undefined, h⟩
    | @some fs gs hfields =>
      have hsame : Value.object s.next gs = .object t.next gs := by rw [hnext s t h]
      exact .ok ⟨hsame ▸ .ofFields s.next hfields, hidentity s t h⟩

theorem bindImports_matches {scope' : ScopeId} {bs : List Binding}
    (hdeclare : ∀ s t, I s t → ∀ b ∈ bs, ∀ v w, Value.Similar home₁ home₂ bound v w →
      I (s.declare scope b.name v) (t.declare scope' b.name w)) (h : I s t) :
    Matches (fun _ _ s' t' => I s' t') (bindImports scope found₁ bs s)
      (bindImports scope' found₂ bs t) := by
  induction bs generalizing s t with
  | nil => exact .ok h
  | cons b bs ih =>
    refine (importedValue_matches hnext hidentity hfound h b.imported).bind ?_
    rintro v w s₁ t₁ ⟨hv, h₁⟩ - -
    have h₂ := hdeclare s₁ t₁ h₁ b List.mem_cons_self v w hv
    exact ih (fun s t h b hb => hdeclare s t h b (List.mem_cons_of_mem _ hb)) h₂

end

/-- Imports in a scope that is typed already. -/
theorem bindImports_placed (h : Placed C o₁ o₂ scope s t) {bs : List Binding}
    (hnames : ∀ b ∈ bs, b.name ∉ o₁.hidden ∧ b.name ∉ o₂.hidden) {found₁ found₂ : Option Fields}
    (hfound : Option.Rel (C.SimilarFields s t) found₁ found₂) :
    Matches (Ends C C.Nothing s t) (bindImports scope found₁ bs s)
      (bindImports scope found₂ bs t) := by
  refine (bindImports_matches (I := Onward C s t) ?_ ?_ hfound ?_ h.alike.refl).imp ?_
  · exact fun s' t' ho => ho.alike.next
  · exact fun s' t' ho => ho.trans ho.alike.identity
  · intro s' t' ho b hb v w hv
    have hv' : C.Similar s' t' v w := Value.Similar.mono hv ho.left ho.right
    exact ho.trans (Alike.declare (h.onward ho) (hnames b hb).1 (hnames b hb).2 hv')
  · exact fun _ _ s' t' ho => ⟨ho, trivial⟩

theorem topLevel_imports (ev : Evaluator) (modules : Importable) (scope : ScopeId)
    (exports : Fields) (decl : Import) (rest : List Statement) :
    topLevel ev modules scope exports (.imports decl :: rest) =
      bindImports scope (Keyed.get? decl.specifier modules) decl.bindings >>= fun _ =>
        topLevel ev modules scope exports rest := by
  rw [← find?_eq_get?]
  rfl

/-- Leading imports are bound alike, and none under a generated name. -/
theorem imports_matches {ev₁ ev₂ : Evaluator} {modules₁ modules₂ : Importable}
    {exports₁ exports₂ : Fields} {stack₁ stack₂ : StackId} {b₁ b₂ : Keyed Value} {s₁ t₁ : Store}
    {imports : List Statement} (himports : ∀ st ∈ imports, st.isImport = true)
    (hmentions : Shared o₁ o₂ (mentionsOfStatements imports))
    (hmodules : C.SimilarModules s t modules₁ modules₂)
    (h : BothOpened C o₁ o₂ stack₁ stack₂ b₁ b₂ s t s₁ t₁)
    (hfresh₁ : ∀ n ∈ o₁.hidden, b₁.get? n = none) (hfresh₂ : ∀ n ∈ o₂.hidden, b₂.get? n = none) :
    Matches (fun es es' s₁ t₁ => (es = exports₁ ∧ es' = exports₂) ∧
        ∃ b₁ b₂, BothOpened C o₁ o₂ stack₁ stack₂ b₁ b₂ s t s₁ t₁ ∧
          (∀ n ∈ o₁.hidden, b₁.get? n = none) ∧ ∀ n ∈ o₂.hidden, b₂.get? n = none)
      (topLevel ev₁ modules₁ ⟨s.scopes.size⟩ exports₁ imports s₁)
      (topLevel ev₂ modules₂ ⟨t.scopes.size⟩ exports₂ imports t₁) := by
  induction imports generalizing b₁ b₂ s₁ t₁ with
  | nil => exact .ok ⟨⟨rfl, rfl⟩, b₁, b₂, h, hfresh₁, hfresh₂⟩
  | cons st imports ih =>
    rw [List.forall_mem_cons] at himports
    rw [mentionsOfStatements] at hmentions
    cases st with
    | imports decl =>
      have hst := hmentions.front
      rw [Statement.mentions] at hst
      rw [topLevel_imports, topLevel_imports]
      have hbound : Matches
          (fun _ _ s₂ t₂ => ∃ b₁ b₂, BothOpened C o₁ o₂ stack₁ stack₂ b₁ b₂ s t s₂ t₂ ∧
            (∀ n ∈ o₁.hidden, b₁.get? n = none) ∧ ∀ n ∈ o₂.hidden, b₂.get? n = none)
          (bindImports ⟨s.scopes.size⟩ (Keyed.get? decl.specifier modules₁) decl.bindings s₁)
          (bindImports ⟨t.scopes.size⟩ (Keyed.get? decl.specifier modules₂) decl.bindings t₁) := by
        refine bindImports_matches (I := fun s₂ t₂ => ∃ b₁ b₂, BothOpened C o₁ o₂ stack₁ stack₂ b₁
          b₂ s t s₂ t₂ ∧ (∀ n ∈ o₁.hidden, b₁.get? n = none) ∧
          ∀ n ∈ o₂.hidden, b₂.get? n = none) ?_ ?_ (hmodules.get? decl.specifier) ?_
          ⟨b₁, b₂, h, hfresh₁, hfresh₂⟩
        · rintro s₂ t₂ ⟨c₁, c₂, h₂, -⟩
          exact h₂.next
        · rintro s₂ t₂ ⟨c₁, c₂, h₂, hf⟩
          exact ⟨c₁, c₂, h₂.identity, hf⟩
        · rintro s₂ t₂ ⟨c₁, c₂, h₂, hf₁, hf₂⟩ b hb v w hv
          obtain ⟨hn₁, hn₂⟩ := hst.binder (List.mem_map_of_mem hb)
          refine ⟨_, _, h₂.declare b.name hv, ?_, ?_⟩
          · intro n hn
            have hne : n ≠ b.name := fun heq => hn₁ (heq ▸ hn)
            rw [Keyed.get?_insert_of_ne hne, hf₁ n hn]
          · intro n hn
            have hne : n ≠ b.name := fun heq => hn₂ (heq ▸ hn)
            rw [Keyed.get?_insert_of_ne hne, hf₂ n hn]
      refine hbound.bind ?_
      rintro - - s₂ t₂ ⟨c₁, c₂, h₂, hf₁, hf₂⟩ - -
      exact ih himports.2 hmentions.back h₂ hf₁ hf₂
    | _ => cases himports.1

/-! ## Declarations -/

section

variable {Γ : Typing} {modules : Importable} {exports : Fields} {o : Origin} {s₁ : Store}
  {stack : StackId} {b : Keyed Value}

theorem topLevel_declare {ev : Evaluator} {name : String} {e : Expr} {v : Value}
    (h : named ev name scope e s = (.ok v, s)) (rest : List Statement) :
    topLevel ev modules scope exports (Annotate.declare name e :: rest) s =
      topLevel ev modules scope exports rest (s.declare scope name v) := by
  show (named ev name scope e >>= _) s = _
  rw [Attempt.bind_ok h]
  rfl

theorem topLevel_declare_helper {n : Nat} {name : String} {x : Helper} {v : Value}
    (h : helper scope x s = (.ok v, s)) (rest : List Statement) :
    topLevel (eval (n + 1)) modules scope exports (Annotate.declare name (.helper x) :: rest) s =
      topLevel (eval (n + 1)) modules scope exports rest (s.declare scope name v) := by
  have hnamed : named (eval (n + 1)) name scope (.helper x) s = (.ok v, s) := h
  exact topLevel_declare hnamed rest

theorem settled_declarations (modules : Importable) (exports : Fields)
    (hstack : ∀ i, o = .annotated i → i.stack = stack)
    (h : Opened Γ o stack b s s₁) (n : Nat) :
    Settled 1 n (fun es s₂ => es = exports ∧ Opened Γ o stack (withDeclared o b) s s₂ ∧
      s₂.next = s₁.next) (topLevel (eval n) modules ⟨s.scopes.size⟩ exports o.declarations s₁) := by
  cases o with
  | plain => exact .ok ⟨rfl, h, rfl⟩
  | annotated i =>
    obtain rfl := hstack i rfl
    obtain ⟨hfs, hfp, hfe, hsp, hse, hpe⟩ := i.names_ne
    have hfile : Settled 1 n (fun es s₂ => es = exports ∧ Opened Γ (.annotated i) i.stack
        (if 0 < i.tally.annotated then b.insert i.names.fileName (.text i.fileName) else b) s s₂ ∧
        s₂.next = s₁.next) (topLevel (eval n) modules ⟨s.scopes.size⟩ exports
          (if i.tally.annotated > 0 then [Annotate.declare i.names.fileName (.text i.fileName)]
            else []) s₁) := by
      split_ifs
      · cases n with
        | zero => exact .exhausted _ (by omega)
        | succ n =>
          rw [topLevel_declare (v := .text i.fileName) rfl]
          exact .ok ⟨rfl, h.declare (.inr (.text _)), rfl⟩
      · exact .ok ⟨rfl, h, rfl⟩
    rw [Origin.declarations, declarations, topLevel_append]
    refine hfile.bind ?_
    rintro es s₂ ⟨rfl, h₂, hnext⟩
    simp only [withDeclared]
    generalize (if 0 < i.tally.annotated then _ else b) = b₂ at h₂ ⊢
    split_ifs
    · cases n with
      | zero => exact .exhausted _ (by omega)
      | succ n =>
        have hstackOf : s₂.stackOf ⟨s.scopes.size⟩ = i.stack := by
          simp [stackOf, scope?, h₂.scopes]
        have h₃ := h₂.declare (n := i.names.stack) (v := .stack i.stack)
          (.inl (by simp [Origin.hidden, Names.toList]))
        have hlookup₃ : Keyed.get? i.names.stack (b₂.insert i.names.stack (.stack i.stack)) =
            some (.stack i.stack) := Keyed.get?_insert_self _ _ _
        have h₄ := h₃.declare (n := i.names.recordParent) (v := .builtin (.recordParent i.stack))
          (.inl (by simp [Origin.hidden, Names.toList]))
        have hlookup₄ := (Keyed.get?_insert_of_ne hsp (.builtin (.recordParent i.stack))
          (b₂.insert i.names.stack (.stack i.stack))).trans hlookup₃
        rw [topLevel_declare_helper (helper_newStack hstackOf),
          topLevel_declare_helper (helper_recordParent ((h₃.lookup _).trans hlookup₃)),
          topLevel_declare_helper (helper_recordExpression ((h₄.lookup _).trans hlookup₄))]
        exact .ok ⟨rfl, h₄.declare (.inl (by simp [Origin.hidden, Names.toList])), hnext⟩
    · exact .ok ⟨rfl, h₂, hnext⟩

end

/-! ## Statements -/

theorem Follows.topLevel {ev₁ ev₂ : Evaluator} (hev : Follows C ev₁ ev₂)
    {modules₁ modules₂ : Importable} {exports₁ exports₂ : Fields} {ss : List Statement}
    (h : Placed C o₁ o₂ scope s t) (hss : Shared o₁ o₂ (mentionsOfStatements ss))
    (hmodules : C.SimilarModules s t modules₁ modules₂)
    (hexports : C.SimilarFields s t exports₁ exports₂) : Matches (Ends C C.SimilarFields s t)
      (topLevel ev₁ modules₁ scope exports₁ (o₁.statements ss) s)
      (topLevel ev₂ modules₂ scope exports₂ (o₂.statements ss) t) := by
  have hlater : ∀ {s' t'}, Onward C s t s' t' → C.SimilarModules s' t' modules₁ modules₂ :=
    fun ho => hmodules.imp fun _ _ hfields => ho.fields hfields
  induction ss generalizing s t exports₁ exports₂ with
  | nil =>
    rw [Origin.statements_nil, Origin.statements_nil]
    exact .ok ⟨h.alike.refl, hexports⟩
  | cons st ss ih =>
    rw [mentionsOfStatements] at hss
    rw [Origin.statements_cons, Origin.statements_cons]
    have hst := hss.front
    have hrest : ∀ {s' t' es es'}, Onward C s t s' t' → C.SimilarFields s' t' es es' →
        Matches (Ends C C.SimilarFields s t)
          (Eval.topLevel ev₁ modules₁ scope es (o₁.statements ss) s')
          (Eval.topLevel ev₂ modules₂ scope es' (o₂.statements ss) t') := fun ho hes =>
      (ih (h.onward ho) hss.back (hlater ho) hes fun ho' => hlater (ho.trans ho')).after ho
    cases st with
    | imports decl =>
      rw [Statement.mentions] at hst
      rw [Origin.statement_imports, Origin.statement_imports, topLevel_imports, topLevel_imports]
      refine (bindImports_placed h (fun b hb => hst.binder (List.mem_map_of_mem hb))
        (hmodules.get? decl.specifier)).bind ?_
      rintro - - s₁ t₁ ⟨ho, -⟩ - -
      exact hrest ho (ho.fields hexports)
    | const exported name e =>
      rw [Statement.mentions] at hst
      rw [Origin.statement_const, Origin.statement_const]
      refine (hev.named h hst.tail).bind ?_
      rintro v w s₁ t₁ ⟨ho₁, hv⟩ - -
      refine (declare_matches (h.onward ho₁) (hst.binder List.mem_cons_self) hv).bind ?_
      rintro - - s₂ t₂ ⟨ho₂, -⟩ - -
      have ho := ho₁.trans ho₂
      cases exported with
      | false => exact hrest ho (ho.fields hexports)
      | true => exact hrest ho ((ho.fields hexports).insert name (hv.onward ho₂))
    | returns e =>
      rw [Origin.statement_returns, Origin.statement_returns]
      exact .error _ s t
    | returnsNothing =>
      rw [Origin.statement_returnsNothing, Origin.statement_returnsNothing]
      exact .error _ s t
    | expr e =>
      rw [Statement.mentions] at hst
      rw [Origin.statement_expr, Origin.statement_expr]
      refine (hev _ _ _ _ _ _ h hst).bind ?_
      rintro v w s₁ t₁ ⟨ho, -⟩ - -
      exact hrest ho (ho.fields hexports)

/-- What loading on both sides leads to: alike stores with one more root scope, in which everything
that was similar before still is, and similar exports. -/
structure Loaded (C : Comparison) (o₁ o₂ : Origin) (s t : Store) (es es' : Fields)
    (s' t' : Store) : Prop where
  alike : Alike (C.open s t o₁ o₂) s' t'
  exports : (C.open s t o₁ o₂).SimilarFields s' t' es es'
  similar : ∀ v w, C.Similar s t v w → (C.open s t o₁ o₂).Similar s' t' v w

theorem load_matches {m : Module} {stack₁ stack₂ : StackId} {modules₁ modules₂ : Importable}
    (h : Alike C s t) (ho₁ : o₁.Of m stack₁) (ho₂ : o₂.Of m stack₂)
    (hm : Shared o₁ o₂ m.mentions) (hstack₁ : stack₁.index < s.stackEntries.length)
    (hstack₂ : stack₂.index < t.stackEntries.length)
    (hmodules : C.SimilarModules s t modules₁ modules₂) {n k : Nat} (hk : 2 * n < k) :
    Matches (Loaded C o₁ o₂ s t) (load n modules₁ stack₁ (o₁.code m) s)
      (load k modules₂ stack₂ (o₂.code m) t) := by
  rw [Module.mentions, ← List.take_append_drop m.leadingImports m.body,
    mentionsOfStatements_append] at hm
  show Matches _ (topLevel (eval n) modules₁ ⟨s.scopes.size⟩ [] (o₁.code m).body
    (s.newScope none stack₁).2) (topLevel (eval k) modules₂ ⟨t.scopes.size⟩ [] (o₂.code m).body
      (t.newScope none stack₂).2)
  rw [Origin.code_body ho₁, Origin.code_body ho₂, topLevel_append, topLevel_append]
  have hopened : BothOpened C o₁ o₂ stack₁ stack₂ [] [] s t (s.newScope none stack₁).2
      (t.newScope none stack₂).2 :=
    ⟨opened_newScope _ _ _ _, opened_newScope _ _ _ _, h.next, fun _ _ _ => .none⟩
  refine (imports_matches (isImport_of_mem_take m) hm.front hmodules hopened
    (fun _ _ => rfl) fun _ _ => rfl).bind ?_
  rintro _ _ s₁ t₁ ⟨⟨rfl, rfl⟩, b₁, b₂, h₁, hfresh₁, hfresh₂⟩ - -
  rw [topLevel_append, topLevel_append]
  have hleft := settled_declarations modules₁ [] (fun i hi => (ho₁ i hi).2) h₁.left n
  have hright := settled_declarations modules₂ [] (fun i hi => (ho₂ i hi).2) h₁.right k
  refine (hleft.both hright (by omega)).bind ?_
  rintro _ _ s₂ t₂ ⟨⟨rfl, hl, hnext₁⟩, rfl, hr, hnext₂⟩ - -
  have h₂ : BothOpened C o₁ o₂ stack₁ stack₂ (withDeclared o₁ b₁) (withDeclared o₂ b₂) s t s₂
      t₂ := by
    refine ⟨hl, hr, hnext₁.trans (h₁.next.trans hnext₂.symm), fun x hx₁ hx₂ => ?_⟩
    rw [get?_withDeclared hx₁, get?_withDeclared hx₂]
    exact h₁.bindings x hx₁ hx₂
  obtain ⟨hplaced, hsimilar⟩ := h₂.placed h (declared_withDeclared hfresh₁)
    (declared_withDeclared hfresh₂) (fun i hi => (ho₁ i hi).2 ▸ hstack₁)
    fun i hi => (ho₂ i hi).2 ▸ hstack₂
  have hev : Follows (C.open s t o₁ o₂) (eval n) (eval k) := followsTo _ n n le_rfl k hk
  rw [← h.size_eq]
  refine (hev.topLevel hplaced hm.back (hmodules.imp fun _ _ hfields => hfields.imp hsimilar)
    .nil).imp ?_
  rintro es es' s' t' ⟨ho, hes⟩
  exact ⟨ho.alike, hes, fun v w hv => (hsimilar v w hv).onward ho⟩

end Eval

end MarkupTrace
