import MarkupTrace.Proofs.EnclosedLoading
import MarkupTrace.Proofs.FailedSteps
import MarkupTrace.Proofs.OptionNames
import MarkupTrace.Proofs.PrintedHelpers

/-!
# Declared names stand for what was declared

What an annotated module declares under its generated names is what its code finds there: while it is
loaded and whenever one of its functions is called later. Two kinds of names are left out, though
options that set them validate. The name `undefined` has a value of its own wherever it is evaluated,
so a helper that is declared under it cannot be called. And a stack that is named like a parameter or
a constant of the printed helpers is hidden there.
-/

namespace MarkupTrace

open Source Annotate Eval

/-! ## Names in a scope -/

/-- In the scope, each of the names evaluates to the value it was declared with, and a call of a
builtin by its name fails only if one of the arguments does, in the same way. -/
structure Stands (declared : Keyed Value) (scope : ScopeId) (s : Store) : Prop where
  values : ∀ e ∈ declared, ∀ depth, eval (depth + 1) scope (.name e.1) s = (.ok e.2, s)
  calls : ∀ e ∈ declared, ∀ b, e.2 = .builtin b → ∀ depth arguments reason s',
    eval (depth + 2) scope (.call (.name e.1) arguments) s = (.error reason, s') ↔
      all (eval (depth + 1)) scope arguments s = (.error reason, s')

/-- A name other than `undefined` evaluates to what is found under it. -/
theorem eval_name {n : String} (hn : n ≠ "undefined") {scope : ScopeId} {s : Store} {v : Value}
    (h : s.lookup n scope = some v) (depth : Nat) :
    eval (depth + 1) scope (.name n) s = (.ok v, s) := by
  show nameValue scope n s = _
  have hfound : (Attempt.gets (Store.lookup n scope) : Run _) s = (.ok (some v), s) := by
    rw [← h]
    rfl
  rw [nameValue, if_neg hn, Run.lookup, Attempt.bind_ok hfound]
  rfl

/-- What is declared under `undefined` is not found there, so it cannot be called. -/
theorem call_undefined_fails {scope : ScopeId} {arguments : List Expr} {depth : Nat}
    {s s' : Store} {vs : List Value} (h : all (eval (depth + 1)) scope arguments s = (.ok vs, s')) :
    eval (depth + 2) scope (.call (.name "undefined") arguments) s =
      (.error (.error (.notCallable (Value.undefined.inspect s'))), s') := by
  have hcallee : eval (depth + 1) scope (.name "undefined") s = (.ok .undefined, s) := rfl
  show (eval (depth + 1) scope (.name "undefined") >>= fun f =>
    all (eval (depth + 1)) scope arguments >>= fun vs => callWith (eval (depth + 1)) f vs) s = _
  rw [Attempt.bind_ok hcallee, Attempt.bind_ok h]
  rfl

/-- Builtins do not fail, so a call of one fails only with its arguments. -/
theorem call_builtin_fails_iff {scope : ScopeId} {n : String} {b : Builtin} {depth : Nat}
    {s : Store} (h : eval (depth + 1) scope (.name n) s = (.ok (.builtin b), s))
    (arguments : List Expr) (reason : Stop EvalError) (s' : Store) :
    eval (depth + 2) scope (.call (.name n) arguments) s = (.error reason, s') ↔
      all (eval (depth + 1)) scope arguments s = (.error reason, s') := by
  show (eval (depth + 1) scope (.name n) >>= fun f =>
    all (eval (depth + 1)) scope arguments >>= fun vs => callWith (eval (depth + 1)) f vs) s = _ ↔ _
  rw [Attempt.bind_ok h]
  rcases hall : all (eval (depth + 1)) scope arguments s with ⟨reason' | vs, s₁⟩
  · rw [Attempt.bind_error hall]
    simp
  · rw [Attempt.bind_ok hall]
    obtain ⟨v, s₂, hv⟩ := exists_callBuiltin b vs s₁
    show callBuiltin b vs s₁ = _ ↔ _
    rw [hv]
    simp

/-! ## What is declared -/

theorem Keyed.get?_extend_of_not_mem {α : Type} {n : String} (entries : Keyed α)
    {added : List (String × α)} (h : ∀ e ∈ added, e.1 ≠ n) :
    (entries.extend added).get? n = entries.get? n := by
  unfold Keyed.extend
  induction added generalizing entries with
  | nil => rfl
  | cons e rest ih =>
    rw [List.forall_mem_cons] at h
    rw [List.foldl_cons, ih _ h.2, Keyed.get?_insert_of_ne (Ne.symm h.1)]

/-- Of entries with different keys, each is found. -/
theorem Keyed.get?_extend_of_mem {α : Type} (entries : Keyed α) {added : List (String × α)}
    (h : (added.map Prod.fst).Nodup) {e : String × α} (he : e ∈ added) :
    (entries.extend added).get? e.1 = some e.2 := by
  induction added generalizing entries with
  | nil => cases he
  | cons x rest ih =>
    rw [List.map_cons, List.nodup_cons] at h
    show ((entries.insert x.1 x.2).extend rest).get? e.1 = some e.2
    rcases List.mem_cons.mp he with rfl | he
    · have hothers : ∀ y ∈ rest, y.1 ≠ e.1 := fun y hy heq => h.1 (List.mem_map.mpr ⟨y, hy, heq⟩)
      rw [Keyed.get?_extend_of_not_mem _ hothers, Keyed.get?_insert_self]
    · exact ih _ h.2 he

theorem declaredValues_names (names : Names) (fileName : String) (t : Tally) (stack : StackId) :
    ((declaredValues names fileName t stack).map Prod.fst).Sublist names.toList := by
  have hrest : List.Sublist
      (if t.wrapped > 0 then [names.stack, names.recordParent, names.recordExpression] else [])
      [names.stack, names.recordParent, names.recordExpression] := by
    split_ifs
    · exact .refl _
    · exact List.nil_sublist _
  have hfile : List.Sublist (if t.annotated > 0 then [names.fileName] else []) [names.fileName] := by
    split_ifs
    · exact .refl _
    · exact List.nil_sublist _
  have happend := hfile.append hrest
  unfold declaredValues
  rw [List.map_append]
  simpa only [apply_ite (List.map Prod.fst), List.map_cons, List.map_nil, Names.toList,
    List.singleton_append] using happend

/-- Inside an enclosure, the declared names stand. -/
theorem Enclosure.Kept.stands {E : Enclosure} {s : Store} (h : E.Kept s)
    {declared : List (String × Value)} (hdeclared : E.declared = Keyed.ofList declared)
    (hnames : (declared.map Prod.fst).Sublist E.names) (hdistinct : E.names.Nodup)
    (hundefined : "undefined" ∉ E.names) {scope : ScopeId} (hscope : s.Inside E.root scope.index) :
    Stands declared scope s := by
  have hvalues : ∀ e ∈ declared, ∀ depth, eval (depth + 1) scope (.name e.1) s = (.ok e.2, s) := by
    intro e he depth
    have hmem : e.1 ∈ E.names := hnames.subset (List.mem_map_of_mem he)
    have hne : e.1 ≠ "undefined" := fun heq => hundefined (heq ▸ hmem)
    refine eval_name hne ?_ depth
    rw [Store.lookup, h.lookup_declared hscope hmem, hdeclared, Keyed.ofList,
      Keyed.get?_extend_of_mem _ (hdistinct.sublist hnames) he]
  refine ⟨hvalues, ?_⟩
  intro e he b hb depth arguments reason s'
  exact call_builtin_fails_iff (hb ▸ hvalues e he depth) arguments reason s'

/-! ## Annotated modules -/

/-- Any use of names but to bind one of these. -/
def Source.Use.Spares (names : List String) : Use → Prop
  | binds n => n ∉ names
  | reads _ => True

/-- Let options validate, no generated name be `undefined` and the stack not be named like a local of
the printed helpers. Then the names that an annotated module declares stand for what it declared, in
every scope inside its own: from the declarations on while the module is loaded, whether loading
succeeds or not, and later, whatever is called and whatever else is loaded. In the printed helpers,
the stack's name is free. -/
theorem declared_names_stand {o : Options} (hvalid : o.validate = .ok ()) (m : Module)
    (hundefined : "undefined" ∉ (Names.ofModule m o).toList)
    (hlocal : (Names.ofModule m o).stack ∉ helperLocals) (source fileName : String)
    (stack : StackId) {modules : Importable} {s : Store} (hs : s.Made) (hmodules : modules.Made s) :
    let a := annotate m source fileName o
    let declared := declaredValues a.names fileName a.report.tally stack
    let E := a.enclosure fileName stack s (Use.Spares a.names.toList) fun _ h => h
    (∀ s' scope, E.Kept s' → s'.Inside E.root scope.index → Stands declared scope s') ∧
      (∀ depth,
        (∀ v ∈ (Visit.load depth modules stack a.module s).drop
            (declarations a.names fileName a.report.tally).length,
          v.store.Inside E.root v.scope.index → Stands declared v.scope v.store) ∧
        ∀ exports s', load depth modules stack a.module s = (.ok exports, s') →
          E.Kept s' ∧ E.TakesFields s' exports) ∧
      (E.Lasts fun v => v.store.Inside E.root v.scope.index → Stands declared v.scope v.store) ∧
      ∀ x ∈ [Helper.recordParent a.names.stack, .recordExpression a.names.stack],
        a.names.stack ∈ words x.print ∧ a.names.stack ∉ boundWords x.print := by
  intro a declared E
  have hstands : ∀ s' scope, E.Kept s' → s'.Inside E.root scope.index → Stands declared scope s' :=
    fun s' scope hkept hscope => hkept.stands rfl (declaredValues_names _ _ _ _)
      (Names.avoiding_nodup m.names o) hundefined hscope
  have huses : ∀ u ∈ usesOfStatements m.body, Use.Spares a.names.toList u := by
    intro u hu
    cases u with
    | binds n => exact binds_not_generated o hu
    | reads n => trivial
  refine ⟨hstands, ?_, E.lasts fun v hv hi => hstands _ _ hv.kept hi, ?_⟩
  · intro depth
    have hloads := load_encloses source fileName o depth stack hs hmodules (fun _ h => h) huses
    refine ⟨fun v hv hi => hstands _ _ (hloads.behind v hv).kept hi, ?_⟩
    intro exports s' hload
    have hgiven := hloads.given
    rw [hload] at hgiven
    exact hgiven exports rfl
  · have hname : IsName a.names.stack :=
      isName_uniqueName (isName_of_validate hvalid (.stack, o.stack) (by simp [Options.names])) _
    exact stack_free_in_helpers hname hlocal

def stackedSource : String :=
  "const stack = \"s\";\n" ++
  "export const f = (p) => <b>\x7bp.x\x7d\x7bstack\x7d</b>;\n"

def stackedOptions : Options := { stack := "stack" }

/-- The name that the options give to the stack is taken, and the module can be loaded. -/
def stackedLoads : Bool :=
  match Module.parse stackedSource with
  | .error _ => false
  | .ok m =>
    let a := annotate m stackedSource "n.jsx" stackedOptions
    decide (a.names = ⟨"__jsxFileName", "stack_1", "wcs_wrap_source", "wcs_wrap_expression"⟩ ∧
      0 < a.report.tally.annotated ∧ 0 < a.report.tally.wrapped) &&
    match load 20 [] ⟨0⟩ a.module Store.empty.newStack.2 with
    | (.error _, _) => false
    | (.ok exports, _) => (exports.get? "f").isSome

set_option maxRecDepth 100000 in
theorem stackedLoads_eq : stackedLoads = true := by decide +kernel

/-- What the module declares. -/
def stackedValues : Keyed Value :=
  [("__jsxFileName", .text "n.jsx"), ("stack_1", .stack ⟨0⟩),
    ("wcs_wrap_source", .builtin (.recordParent ⟨0⟩)),
    ("wcs_wrap_expression", .builtin (.recordExpression ⟨0⟩))]

/-- A module with a `stack` of its own declares the attribution stack under a number, and finds it
there, in its own scope and wherever the exported function is called. -/
theorem declared_names_stand_stacked : ∃ (m : Module) (exports : Fields) (f : Value) (s : Store),
    Module.parse stackedSource = .ok m ∧
      load 20 [] ⟨0⟩ (annotate m stackedSource "n.jsx" stackedOptions).module
        Store.empty.newStack.2 = (.ok exports, s) ∧
      exports.get? "f" = some f ∧
      eval 1 ⟨0⟩ (.name "stack_1") s = (.ok (.stack ⟨0⟩), s) ∧
      ∀ depth, ∀ v ∈ Visit.call depth f [.object 9 [("x", .text "y")]] s,
        v.store.Inside 0 v.scope.index → Stands stackedValues v.scope v.store := by
  have hloads := stackedLoads_eq
  unfold stackedLoads at hloads
  split at hloads
  · cases hloads
  rename_i m hparse
  rw [Bool.and_eq_true, decide_eq_true_eq] at hloads
  obtain ⟨⟨hnames, hannotated, hwrapped⟩, hload⟩ := hloads
  split at hload
  · cases hload
  rename_i exports s hload₁
  obtain ⟨f, hf⟩ := Option.isSome_iff_exists.mp hload
  have hmodules : Eval.Importable.Made Store.empty.newStack.2 [] := nofun
  have hgenerated : Names.ofModule m stackedOptions =
      ⟨"__jsxFileName", "stack_1", "wcs_wrap_source", "wcs_wrap_expression"⟩ := hnames
  obtain ⟨hstands, hfirst, hlater, -⟩ := declared_names_stand (o := stackedOptions) (by rfl) m
    (by rw [hgenerated]; decide) (by rw [hgenerated]; decide) stackedSource "n.jsx" ⟨0⟩
    (Store.made_of_no_scopes rfl) hmodules
  have hvalues : declaredValues (annotate m stackedSource "n.jsx" stackedOptions).names "n.jsx"
      (annotate m stackedSource "n.jsx" stackedOptions).report.tally ⟨0⟩ = stackedValues := by
    rw [declaredValues, if_pos hannotated, if_pos hwrapped, hnames]
    rfl
  rw [hvalues] at hstands hlater
  obtain ⟨hkept, htakes⟩ := (hfirst 20).2 exports s hload₁
  have hstack : ("stack_1", .stack ⟨0⟩) ∈ stackedValues := by simp [stackedValues]
  have hroot := hstands s ⟨0⟩ hkept (.root hkept.root_lt)
  refine ⟨m, exports, f, s, hparse, hload₁, hf, hroot.values _ hstack 0, ?_⟩
  intro depth
  refine (hlater.calls s hkept depth f _ (htakes _ (Keyed.mem_of_get? hf)) ?_).visits
  intro v hv
  rw [List.mem_singleton.mp hv]
  refine .object 9 fun e he => ?_
  rw [List.mem_singleton.mp he]
  exact .text "y"

end MarkupTrace
