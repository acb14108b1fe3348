import MarkupTrace.Proofs.EnclosedRuns
import MarkupTrace.Proofs.Loading

/-!
# Annotated modules enclose the names that they declare

When an annotated module is loaded, its root scope first gets what the leading imports bind, then the
generated names with their values, and from then on it encloses them: the code of the module binds no
generated name, and other code cannot get inside. This stays so for everything that is called later.
-/

namespace MarkupTrace

open Source Annotate Eval

/-! ## A new root scope -/

/-- The function was made in a scope of the store. -/
def Function.MadeIn (s : Store) (f : Function) : Prop := f.scope.index < s.scopes.size

/-- All functions that are bound in the store were made in scopes of it. -/
def Store.Made (s : Store) : Prop := ∀ (i : Nat) (sc : Scope), s.scopes[i]? = some sc →
  ∀ e ∈ sc.bindings, e.2.Every (Function.MadeIn s)

/-- All functions that can be imported were made in scopes of the store. -/
def Eval.Importable.Made (s : Store) (modules : Importable) : Prop :=
  ∀ m ∈ modules, ∀ e ∈ m.2, e.2.Every (Function.MadeIn s)

theorem Store.made_of_no_scopes {s : Store} (h : s.scopes = #[]) : s.Made := by
  intro i sc hsc
  simp [h] at hsc

theorem Store.Inside.le {s : Store} {root i : Nat} (h : s.Inside root i) : root ≤ i := by
  induction h with
  | root _ => exact le_rfl
  | inner _ _ earlier _ ih => exact ih.trans earlier.le

namespace Enclosure

variable {E : Enclosure} {s : Store}

/-- What was made before the root scope may be called: it is outside. -/
theorem admits_of_made {f : Function} (h : f.MadeIn s) (hroot : E.root = s.scopes.size) :
    E.Admits s f := by
  refine ⟨h, fun hi => ?_⟩
  have hle := hi.le
  have hlt : f.scope.index < s.scopes.size := h
  omega

/-- In a new root scope nothing is bound. -/
theorem kept_newScope (hs : s.Made) (hroot : E.root = s.scopes.size) (hdeclared : E.declared = [])
    (stack : StackId) : E.Kept (s.newScope none stack).2 := by
  have hgrows := Store.Extends.newScope none stack s
  refine ⟨⟨⟨[], none, stack⟩, ?_, rfl, ?_⟩, ?_, ?_⟩
  · rw [Store.getElem?_newScope, if_pos hroot]
  · intro n _
    rw [hdeclared]
  · intro i sc hsc hi hne
    have hle := hi.le
    rw [Store.getElem?_newScope] at hsc
    split_ifs at hsc with heq
    · exact absurd (heq.trans hroot.symm) hne
    · have hlt := (Array.getElem?_eq_some_iff.mp hsc).1
      omega
  · intro i sc hsc e he
    rw [Store.getElem?_newScope] at hsc
    split_ifs at hsc
    · cases hsc
      cases he
    · exact grow_every ((hs i sc hsc e he).imp fun f hf => admits_of_made hf hroot) hgrows

theorem takes_made {modules : Importable} (hmodules : modules.Made s)
    (hroot : E.root = s.scopes.size) : Run.Minds.TakesModules E s modules :=
  fun m hm e he => (hmodules m hm e he).imp fun _ hf => admits_of_made hf hroot

/-- The same enclosure with further declarations. -/
def declaringAll (E : Enclosure) (entries : Keyed Value) : Enclosure :=
  { E with declared := E.declared.extend entries }

theorem declaringAll_append (E : Enclosure) (xs ys : Keyed Value) :
    E.declaringAll (xs ++ ys) = (E.declaringAll xs).declaringAll ys := by
  simp only [declaringAll, Keyed.extend, List.foldl_append]

end Enclosure

theorem Store.stackOf_declare (scope id : ScopeId) (n : String) (v : Value) (s : Store) :
    (s.declare scope n v).stackOf id = s.stackOf id := by
  unfold Store.stackOf Store.scope?
  rw [Store.getElem?_declare scope.index]
  cases s.scopes[id.index]? with
  | none => rfl
  | some sc =>
    simp only [Option.map_some, Option.getD_some]
    split_ifs <;> rfl

theorem Store.stackOf_newScope (stack : StackId) (s : Store) :
    (s.newScope none stack).2.stackOf ⟨s.scopes.size⟩ = stack := by
  simp [Store.stackOf, Store.scope?, Store.newScope]

theorem Store.stackOf_extends {s s' : Store} {id : ScopeId} (h : s'.scopes = s.scopes) :
    s'.stackOf id = s.stackOf id := by
  rw [Store.stackOf, Store.stackOf, Store.scope?, Store.scope?, h]

/-! ## Leading imports -/

namespace Eval

variable {modules : Importable} {scope : ScopeId} {exports : Fields} {s : Store}

theorem importedValue_ok (found : Option Fields) (imported : Imported) (s : Store) :
    ∃ v s', importedValue found imported s = (.ok v, s') ∧ s'.scopes = s.scopes := by
  cases imported with
  | default => exact ⟨_, _, rfl, rfl⟩
  | named n => exact ⟨_, _, rfl, rfl⟩
  | everything => cases found <;> exact ⟨_, _, rfl, rfl⟩

theorem bindImports_ok (scope id : ScopeId) (found : Option Fields) (bs : List Binding)
    (s : Store) :
    ∃ s', bindImports scope found bs s = (.ok (), s') ∧ s'.stackOf id = s.stackOf id := by
  induction bs generalizing s with
  | nil => exact ⟨s, rfl, rfl⟩
  | cons b bs ih =>
    obtain ⟨v, s₁, hv, hscopes⟩ := importedValue_ok found b.imported s
    obtain ⟨s₂, hrest, hstack⟩ := ih (s₁.declare scope b.name v)
    refine ⟨s₂, ?_, ?_⟩
    · have hdeclare : Run.declare scope b.name v s₁ = (.ok (), s₁.declare scope b.name v) := rfl
      rw [bindImports, Attempt.bind_ok hv]
      exact (Attempt.bind_ok hdeclare _).trans hrest
    · rw [hstack, Store.stackOf_declare, Store.stackOf_extends hscopes]

/-- Imports do not fail, export nothing and keep to the stack. -/
theorem imports_ok (ev : Evaluator) (modules : Importable) (scope id : ScopeId) (exports : Fields)
    {imports : List Statement} (himports : ∀ st ∈ imports, st.isImport = true) (s : Store) :
    ∃ s', topLevel ev modules scope exports imports s = (.ok exports, s') ∧
      s'.stackOf id = s.stackOf id := by
  induction imports generalizing s with
  | nil => exact ⟨s, rfl, rfl⟩
  | cons st imports ih =>
    rw [List.forall_mem_cons] at himports
    cases st with
    | imports decl =>
      obtain ⟨s₁, hbound, hstack⟩ := bindImports_ok scope id
        ((modules.find? fun m => m.1 == decl.specifier).map (·.2)) decl.bindings s
      obtain ⟨s₂, hrest, hstack'⟩ := ih himports.2 s₁
      refine ⟨s₂, ?_, hstack'.trans hstack⟩
      rw [topLevel, Attempt.bind_ok hbound, hrest]
    | _ => cases himports.1

theorem visits_imports (ev : Evaluator) (up : ScopeId → Expr → Visits) {imports : List Statement}
    (himports : ∀ st ∈ imports, st.isImport = true) :
    Visit.topLevel ev up modules scope imports = silent := by
  induction imports with
  | nil => rfl
  | cons st imports ih =>
    rw [List.forall_mem_cons] at himports
    cases st with
    | imports decl =>
      rw [Visit.topLevel, ih himports.2]
      exact along_silent _ _
    | _ => cases himports.1

end Eval

/-! ## Declarations -/

/-- Declarations in the root scope bind these entries: what is behind them goes on from there, and
each of them was visited, none as a name. -/
structure Fronted (depth : Nat) (modules : Importable) (E : Enclosure) (ds : List Statement)
    (entries : Keyed Value) (s s' : Store) : Prop where
  run : ∀ exports rest, topLevel (eval depth) modules ⟨E.root⟩ exports (ds ++ rest) s =
    topLevel (eval depth) modules ⟨E.root⟩ exports rest s'
  visits : ∃ front : List Visit, front.length = ds.length ∧ (∀ v ∈ front, ∀ n, v.code ≠ .name n) ∧
    ∀ rest, Visit.topLevel (eval depth) (Visit.eval depth) modules ⟨E.root⟩ (ds ++ rest) s =
      front ++ Visit.topLevel (eval depth) (Visit.eval depth) modules ⟨E.root⟩ rest s'
  kept : (E.declaringAll entries).Kept s'
  grows : s.Extends s'
  stack : s'.stackOf ⟨E.root⟩ = s.stackOf ⟨E.root⟩

namespace Fronted

variable {depth : Nat} {modules : Importable} {E : Enclosure} {ds ds' : List Statement}
  {xs ys : Keyed Value} {s s₁ s₂ : Store}

theorem nil (depth : Nat) (modules : Importable) (h : E.Kept s) :
    Fronted depth modules E [] [] s s :=
  ⟨fun _ _ => rfl, ⟨[], rfl, nofun, fun _ => rfl⟩, h, .refl s, rfl⟩

theorem append (h : Fronted depth modules E ds xs s s₁)
    (h' : Fronted depth modules (E.declaringAll xs) ds' ys s₁ s₂) :
    Fronted depth modules E (ds ++ ds') (xs ++ ys) s s₂ := by
  obtain ⟨front, hlength, hcode, hvisits⟩ := h.visits
  obtain ⟨front', hlength', hcode', hvisits'⟩ := h'.visits
  refine ⟨?_, ⟨front ++ front', ?_, ?_, ?_⟩, ?_, h.grows.trans h'.grows, h'.stack.trans h.stack⟩
  · intro exports rest
    rw [List.append_assoc, h.run]
    exact h'.run exports rest
  · rw [List.length_append, List.length_append, hlength, hlength']
  · intro v hv
    exact (List.mem_append.mp hv).elim (hcode v) (hcode' v)
  · intro rest
    rw [List.append_assoc, hvisits, List.append_assoc]
    exact congrArg (front ++ ·) (hvisits' rest)
  · rw [E.declaringAll_append]
    exact h'.kept

/-- One declaration of a value without functions, which is evaluated without visiting anything else
or changing anything. -/
theorem one {e : Expr} {n : String} {v : Value} (h : E.Kept s)
    (hnamed : named (eval depth) n ⟨E.root⟩ e s = (.ok v, s))
    (hvisits : Visit.named (Visit.eval depth) ⟨E.root⟩ e s = [⟨⟨E.root⟩, e, s⟩])
    (hcode : ∀ n, e ≠ .name n) (hv : v.Every fun _ => False) :
    Fronted depth modules E [declare n e] [(n, v)] s (s.declare ⟨E.root⟩ n v) := by
  refine ⟨?_, ⟨[⟨⟨E.root⟩, e, s⟩], rfl, ?_, ?_⟩, ?_, .declare ⟨E.root⟩ n v s,
    Store.stackOf_declare _ _ n v s⟩
  · intro exports rest
    show (named (eval depth) n ⟨E.root⟩ e >>= fun v => Run.declare ⟨E.root⟩ n v >>= fun _ =>
      topLevel (eval depth) modules ⟨E.root⟩ exports rest) s = _
    rw [Attempt.bind_ok hnamed]
    rfl
  · intro x hx
    rw [List.mem_singleton.mp hx]
    exact hcode
  · intro rest
    show along (named (eval depth) n ⟨E.root⟩ e) (Visit.named (Visit.eval depth) ⟨E.root⟩ e)
      (fun v => along (Run.declare ⟨E.root⟩ n v) silent fun _ => _) s = _
    unfold along
    rw [hvisits, hnamed]
    rfl
  · exact h.declaring n (hv.imp fun _ hf => hf.elim)

theorem text (h : E.Kept s) (n t : String) :
    Fronted (depth + 1) modules E [declare n (.text t)] [(n, .text t)] s
      (s.declare ⟨E.root⟩ n (.text t)) :=
  one h rfl rfl (by simp) (.text t)

theorem helper (depth : Nat) (modules : Importable) {x : Helper} {v : Value} (h : E.Kept s)
    (n : String) (hx : Eval.helper ⟨E.root⟩ x s = (.ok v, s)) (hv : v.Every fun _ => False) :
    Fronted (depth + 1) modules E [declare n (.helper x)] [(n, v)] s (s.declare ⟨E.root⟩ n v) :=
  one h hx rfl (by simp) hv

end Fronted

/-- What the declarations of an annotated module on a stack bind. -/
def declaredValues (names : Names) (fileName : String) (t : Tally) (stack : StackId) :
    Keyed Value :=
  (if t.annotated > 0 then [(names.fileName, .text fileName)] else []) ++
    if t.wrapped > 0 then
      [(names.stack, .stack stack), (names.recordParent, .builtin (.recordParent stack)),
        (names.recordExpression, .builtin (.recordExpression stack))]
    else []

theorem fronted_helpers (depth : Nat) (modules : Importable) {E : Enclosure} {s : Store}
    {names : Names} {stack : StackId} (h : E.Kept s) (hnames : E.names = names.toList)
    (hdistinct : names.toList.Nodup) (hstack : s.stackOf ⟨E.root⟩ = stack) :
    ∃ s', Fronted (depth + 1) modules E
      [declare names.stack (.helper .newStack),
        declare names.recordParent (.helper (.recordParent names.stack)),
        declare names.recordExpression (.helper (.recordExpression names.stack))]
      [(names.stack, .stack stack), (names.recordParent, .builtin (.recordParent stack)),
        (names.recordExpression, .builtin (.recordExpression stack))] s s' := by
  have hmem : names.stack ∈ E.names := by simp [hnames, Names.toList]
  have hne : names.stack ≠ names.recordParent := by
    intro heq
    simp [Names.toList, heq] at hdistinct
  have h₁ := Fronted.helper depth modules h names.stack
    (Eval.helper_newStack hstack) (.stack stack)
  have hlookup₁ : (s.declare ⟨E.root⟩ names.stack (.stack stack)).lookup names.stack ⟨E.root⟩ =
      some (.stack stack) :=
    (h₁.kept.lookup_declared (.root h₁.kept.root_lt) hmem).trans (Keyed.get?_insert_self _ _ _)
  have h₂ := Fronted.helper depth modules h₁.kept names.recordParent
    (Eval.helper_recordParent hlookup₁) (.builtin _)
  have hlookup₂ : (((s.declare ⟨E.root⟩ names.stack (.stack stack)).declare ⟨E.root⟩
      names.recordParent (.builtin (.recordParent stack))).lookup names.stack ⟨E.root⟩) =
      some (.stack stack) := by
    refine (h₂.kept.lookup_declared (.root h₂.kept.root_lt) hmem).trans ?_
    exact (Keyed.get?_insert_of_ne hne _ _).trans (Keyed.get?_insert_self _ _ _)
  have h₃ := Fronted.helper depth modules h₂.kept names.recordExpression
    (Eval.helper_recordExpression hlookup₂) (.builtin _)
  exact ⟨_, h₁.append (h₂.append h₃)⟩

theorem fronted_declarations (depth : Nat) (modules : Importable) {E : Enclosure} {s : Store}
    {names : Names} (fileName : String) {stack : StackId} (t : Tally) (h : E.Kept s)
    (hnames : E.names = names.toList) (hdistinct : names.toList.Nodup)
    (hstack : s.stackOf ⟨E.root⟩ = stack) :
    ∃ s', Fronted (depth + 1) modules E (declarations names fileName t)
      (declaredValues names fileName t stack) s s' := by
  have hfile : ∃ s₁, Fronted (depth + 1) modules E
      (if t.annotated > 0 then [declare names.fileName (.text fileName)] else [])
      (if t.annotated > 0 then [(names.fileName, .text fileName)] else []) s s₁ := by
    split_ifs
    · exact ⟨_, .text h names.fileName fileName⟩
    · exact ⟨s, .nil _ _ h⟩
  obtain ⟨s₁, h₁⟩ := hfile
  unfold declarations declaredValues
  by_cases hwrapped : t.wrapped > 0
  · rw [if_pos hwrapped, if_pos hwrapped]
    obtain ⟨s₂, h₂⟩ := fronted_helpers depth modules h₁.kept hnames
      hdistinct (h₁.stack.trans hstack)
    exact ⟨s₂, h₁.append h₂⟩
  · rw [if_neg hwrapped, if_neg hwrapped]
    exact ⟨s₁, h₁.append (.nil _ _ h₁.kept)⟩

/-! ## Loading -/

/-- What is visited once the declarations of an annotated module stand, and what is there when
loading succeeds. -/
structure Enclosure.Loads (E : Enclosure) (front : Nat) (visits : List Visit)
    (result : Except (Stop EvalError) Fields × Store) : Prop where
  declared : ∀ v ∈ visits.take front, ∀ n, v.code ≠ .name n
  behind : ∀ v ∈ visits.drop front, E.Oversees v
  given : ∀ exports, result.1 = .ok exports → E.Kept result.2 ∧ E.TakesFields result.2 exports

theorem Enclosure.Loads.of_error {E : Enclosure} {front : Nat} {visits : List Visit}
    {result : Except (Stop EvalError) Fields × Store} {e : Stop EvalError} {s : Store}
    (h : result = (.error e, s)) (hvisits : visits = []) : E.Loads front visits result := by
  subst hvisits h
  exact ⟨by simp, by simp, nofun⟩

/-- Behind declarations, code runs with what these have bound. -/
theorem Fronted.loads {depth : Nat} {modules : Importable} {E : Enclosure} {ds rest : List Statement}
    {entries : Keyed Value} {s s' : Store} (h : Fronted depth modules E ds entries s s')
    (hmodules : Run.Minds.TakesModules (E.declaringAll entries) s' modules)
    (hrest : (E.declaringAll entries).Licenses s' ⟨E.root⟩ (usesOfStatements rest)) :
    (E.declaringAll entries).Loads ds.length
      (Visit.topLevel (eval depth) (Visit.eval depth) modules ⟨E.root⟩ (ds ++ rest) s)
      (topLevel (eval depth) modules ⟨E.root⟩ [] (ds ++ rest) s) := by
  obtain ⟨front, hlength, hcode, hvisits⟩ := h.visits
  have hend := Run.Minds.topLevel depth hmodules (Enclosure.TakesFields.nil _ _) hrest s' (.refl s')
    h.kept
  rw [hvisits, h.run]
  refine ⟨?_, ?_, fun exports hexports => ⟨hend.kept, hend.given exports hexports⟩⟩
  · rw [List.take_left' hlength]
    exact hcode
  · rw [List.drop_left' hlength]
    exact hend.visits

/-- The root scope of an annotated module that is loaded encloses the generated names, with what is
declared under them. -/
def Annotate.Annotated.enclosure (a : Annotated) (fileName : String) (stack : StackId) (s : Store)
    (allows : Use → Prop) (avoids : ∀ n, allows (.binds n) → n ∉ a.names.toList) : Enclosure where
  root := s.scopes.size
  names := a.names.toList
  declared := Keyed.ofList (declaredValues a.names fileName a.report.tally stack)
  allows := allows
  avoids := avoids

/-- A declaration cannot be evaluated to no depth at all. -/
theorem topLevel_zero_declare (modules : Importable) (scope : ScopeId) (exports : Fields)
    (n : String) {e : Expr} (he : ∀ ps b, e ≠ .arrow ps b) (rest : List Statement) (s : Store) :
    topLevel (eval 0) modules scope exports (declare n e :: rest) s = (.error .exhausted, s) ∧
      Visit.topLevel (eval 0) (Visit.eval 0) modules scope (declare n e :: rest) s = [] := by
  cases e with
  | arrow ps b => exact absurd rfl (he ps b)
  | _ => exact ⟨rfl, rfl⟩

theorem fronted_or_exhausted (depth : Nat) (modules : Importable) {E : Enclosure} {s : Store}
    {names : Names} (fileName : String) {stack : StackId} (t : Tally) (h : E.Kept s)
    (hnames : E.names = names.toList) (hdistinct : names.toList.Nodup)
    (hstack : s.stackOf ⟨E.root⟩ = stack) :
    (∃ s', Fronted depth modules E (declarations names fileName t)
      (declaredValues names fileName t stack) s s') ∨
      ∀ exports rest, topLevel (eval depth) modules ⟨E.root⟩ exports
          (declarations names fileName t ++ rest) s = (.error .exhausted, s) ∧
        Visit.topLevel (eval depth) (Visit.eval depth) modules ⟨E.root⟩
          (declarations names fileName t ++ rest) s = [] := by
  cases depth with
  | succ depth => exact .inl (fronted_declarations depth modules fileName t h hnames hdistinct hstack)
  | zero =>
    unfold declarations declaredValues
    by_cases hannotated : t.annotated > 0
    · rw [if_pos hannotated]
      exact .inr fun exports rest => topLevel_zero_declare _ _ _ _ (by simp) _ s
    · rw [if_neg hannotated, if_neg hannotated]
      by_cases hwrapped : t.wrapped > 0
      · rw [if_pos hwrapped]
        exact .inr fun exports rest => topLevel_zero_declare _ _ _ _ (by simp) _ s
      · rw [if_neg hwrapped, if_neg hwrapped]
        exact .inl ⟨s, .nil 0 modules h⟩

/-- Leading imports run through, so loading an annotated module comes down to what is behind them. -/
theorem load_behind_imports (m : Module) (source fileName : String) (o : Options) (depth : Nat)
    (modules : Importable) (stack : StackId) (s : Store) :
    let a := annotate m source fileName o
    let site : Site := ⟨Text.LineIndex.ofText source, o.normalizeLineEndings, a.names⟩
    let behind := declarations a.names fileName a.report.tally ++
      statements site (m.body.drop m.leadingImports)
    ∃ s₁, topLevel (eval depth) modules ⟨s.scopes.size⟩ [] (m.body.take m.leadingImports)
        (s.newScope none stack).2 = (.ok [], s₁) ∧
      s₁.stackOf ⟨s.scopes.size⟩ = stack ∧
      load depth modules stack a.module s =
        topLevel (eval depth) modules ⟨s.scopes.size⟩ [] behind s₁ ∧
      Visit.load depth modules stack a.module s =
        Visit.topLevel (eval depth) (Visit.eval depth) modules ⟨s.scopes.size⟩ behind s₁ := by
  intro a site behind
  have hbody : a.module.body = m.body.take m.leadingImports ++ behind :=
    annotate_body m source fileName o
  obtain ⟨s₁, hrun, hstack⟩ := imports_ok (eval depth) modules ⟨s.scopes.size⟩ ⟨s.scopes.size⟩
    [] (isImport_of_mem_take m) (s.newScope none stack).2
  refine ⟨s₁, hrun, hstack.trans (Store.stackOf_newScope stack s), ?_, ?_⟩
  · show topLevel (eval depth) modules ⟨s.scopes.size⟩ [] a.module.body (s.newScope none stack).2 = _
    rw [hbody, topLevel_append, Attempt.bind_ok hrun]
  · show Visit.topLevel (eval depth) (Visit.eval depth) modules ⟨s.scopes.size⟩ a.module.body
      (s.newScope none stack).2 = _
    rw [hbody, Visit.topLevel_append _ _ _ _ [], visits_imports _ _ (isImport_of_mem_take m)]
    unfold along
    rw [hrun]
    rfl

/-- An annotated module, loaded into a store whose functions were all made there, encloses the
generated names, if its code keeps to the allowed uses. -/
theorem load_encloses {m : Module} (source fileName : String) (o : Options) (depth : Nat)
    {modules : Importable} (stack : StackId) {s : Store} (hs : s.Made) (hmodules : modules.Made s)
    {allows : Use → Prop}
    (avoids : ∀ n, allows (.binds n) → n ∉ (annotate m source fileName o).names.toList)
    (huses : ∀ u ∈ usesOfStatements m.body, allows u) :
    let a := annotate m source fileName o
    (a.enclosure fileName stack s allows avoids).Loads
      (declarations a.names fileName a.report.tally).length
      (Visit.load depth modules stack a.module s) (load depth modules stack a.module s) := by
  intro a
  let E₀ : Enclosure := ⟨s.scopes.size, a.names.toList, [], allows, avoids⟩
  rw [← List.take_append_drop m.leadingImports m.body, usesOfStatements_append] at huses
  have hkept₀ : E₀.Kept (s.newScope none stack).2 := Enclosure.kept_newScope hs rfl rfl stack
  have hlicensed : ∀ {us}, (∀ u ∈ us, allows u) →
      E₀.Licenses (s.newScope none stack).2 ⟨s.scopes.size⟩ us :=
    fun h => ⟨hkept₀.root_lt, fun _ => h⟩
  have htakes : Run.Minds.TakesModules E₀ (s.newScope none stack).2 modules := fun x hx =>
    (Enclosure.takes_made hmodules rfl x hx).grow (.newScope none stack s)
  -- The leading imports bind no generated name, so the names are still free behind them.
  have himports := Run.Minds.topLevel depth htakes (Enclosure.TakesFields.nil E₀ _)
    (hlicensed fun u hu => huses u (List.mem_append_left _ hu)) _ (.refl _) hkept₀
  obtain ⟨s₁, hrun₁, hstack, hload, hvisits⟩ :=
    load_behind_imports m source fileName o depth modules stack s
  rw [hrun₁] at himports
  rw [hload, hvisits]
  have hdistinct : a.names.toList.Nodup := Names.avoiding_nodup m.names o
  rcases fronted_or_exhausted depth modules fileName a.report.tally himports.kept rfl hdistinct
    hstack with ⟨s₂, hfront⟩ | hexhausted
  · have hgrows := himports.grows.trans hfront.grows
    refine hfront.loads (fun x hx => (htakes x hx).grow hgrows) ?_
    rw [uses_statements]
    exact ⟨hgrows.lt hkept₀.root_lt, fun _ u hu => huses u (List.mem_append_right _ hu)⟩
  · obtain ⟨hrun, hnothing⟩ := hexhausted [] _
    exact .of_error hrun hnothing

/-! ## Afterwards -/

/-- All that a run visits is as `Q` says, and however the run ends, the names are still enclosed. -/
structure Enclosure.Works {α : Type} (E : Enclosure) (Q : Visit → Prop) (P : Store → α → Prop)
    (result : Except (Stop EvalError) α × Store) (visits : List Visit) : Prop where
  visits : ∀ v ∈ visits, Q v
  kept : E.Kept result.2
  given : ∀ a, result.1 = .ok a → P result.2 a

/-- Whenever the names are enclosed, all that is visited from there on is as `Q` says, whatever is
called and whatever other module is loaded. -/
structure Enclosure.Lasts (E : Enclosure) (Q : Visit → Prop) : Prop where
  calls : ∀ s, E.Kept s → ∀ depth callee arguments, E.Takes s callee → E.TakesItems s arguments →
    E.Works Q E.Takes (call depth callee arguments s) (Visit.call depth callee arguments s)
  loads : ∀ s, E.Kept s → ∀ depth modules stack m, Run.Minds.TakesModules E s modules →
    E.Works Q E.TakesFields (load depth modules stack m s) (Visit.load depth modules stack m s)

theorem Enclosure.lasts {E : Enclosure} {Q : Visit → Prop} (h : ∀ v, E.Oversees v → Q v) :
    E.Lasts Q := by
  have hworks : ∀ {α : Type} {P : Store → α → Prop} {s : Store}
      {result : Except (Stop EvalError) α × Store} {visits : List Visit},
      Run.Ended E P s result visits → E.Works Q P result visits :=
    fun hend => ⟨fun v hv => h v (hend.visits v hv), hend.kept, hend.given⟩
  refine ⟨?_, ?_⟩
  · intro s hkept depth callee arguments hcallee harguments
    exact hworks (Run.Minds.call depth hcallee harguments s (.refl s) hkept)
  · intro s hkept depth modules stack m hmodules
    exact hworks (Run.Minds.load depth hmodules stack m s (.refl s) hkept)

/-- Whatever module is loaded, the functions that are then bound or exported were made in scopes of
the store: a root scope that encloses no names keeps nothing else. -/
theorem Store.Made.load (depth : Nat) {modules : Importable} (stack : StackId) (m : Module)
    {s : Store} (hs : s.Made) (hmodules : modules.Made s) :
    (Eval.load depth modules stack m s).2.Made ∧
      ∀ exports, (Eval.load depth modules stack m s).1 = .ok exports →
        ∀ e ∈ exports, e.2.Every (Function.MadeIn (Eval.load depth modules stack m s).2) := by
  let E : Enclosure := ⟨s.scopes.size, [], [], fun _ => True, fun _ _ => List.not_mem_nil⟩
  have hkept : E.Kept (s.newScope none stack).2 := Enclosure.kept_newScope hs rfl rfl stack
  have htakes : Run.Minds.TakesModules E (s.newScope none stack).2 modules := fun x hx =>
    (Enclosure.takes_made hmodules rfl x hx).grow (.newScope none stack s)
  have hlicensed : E.Licenses (s.newScope none stack).2 ⟨s.scopes.size⟩
      (usesOfStatements m.body) := ⟨hkept.root_lt, fun _ _ _ => trivial⟩
  have hrun := Run.Minds.topLevel depth htakes (Enclosure.TakesFields.nil E _) hlicensed _ (.refl _)
    hkept
  have hmade : ∀ {t : Store} {v : Value}, E.Takes t v → v.Every (Function.MadeIn t) :=
    fun hv => hv.imp fun _ hf => hf.1
  exact ⟨fun i sc hsc e he => hmade (hrun.kept.functions i sc hsc e he),
    fun exports hexports e he => hmade (hrun.given exports hexports e he)⟩

end MarkupTrace
