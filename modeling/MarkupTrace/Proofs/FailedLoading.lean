import MarkupTrace.Proofs.FailedEvaluations
import MarkupTrace.Proofs.MadeRecords

/-!
# Loading that fails

Loading a module may fail before its declarations stand. No code of the module ran by then, and its
root scope, which nothing refers to, is left without a type. From there on it fails as any evaluation
does. So however loading or a call ends, the store is sound again and holds what it held.
-/

namespace MarkupTrace

open Source Annotate Eval Store

/-- The new root scope is of no origin. -/
def Typing.skip (Γ : Typing) (s : Store) : Typing := fun k => if k = s.scopes.size then none else Γ k

namespace Store

variable {Γ : Typing} {s s' : Store} {o : Origin}

/-- What is bound in a root scope without a type does not matter. -/
theorem Opened.sound_skip {stack : StackId} {bindings : Keyed Value}
    (h : Opened Γ o stack bindings s s') (hs : s.Sound Γ) : s'.Sound (Γ.skip s) := by
  have hold : ∀ k < s.scopes.size, Γ.skip s k = Γ k := fun k hk => if_neg hk.ne
  have hmono : ∀ i o', s.Home Γ i o' → s'.Home (Γ.skip s) i o' := fun i o' hi =>
    hi.mono h.grows fun k o'' hk hΓ => (hold k hk).trans hΓ
  constructor
  · intro i o' sc hi hsc
    rw [h.scopes, Array.getElem?_push] at hsc
    split_ifs at hsc with heq
    · subst heq
      cases hsc
      cases hi with
      | root found outermost typed =>
        rw [Typing.skip, if_pos rfl] at typed
        cases typed
      | inner found inside earlier home =>
        rw [h.scopes, Array.getElem?_push_size] at found
        cases found
        cases inside
    · have hlt := (Array.getElem?_eq_some_iff.mp hsc).1
      have hsound := hs.scopes i o' sc (hi.shrink h.grows hold hlt) hsc
      exact ⟨fun n v hn hv => (hsound.clean n v hn hv).mono hmono, hsound.outermost, hsound.inside⟩
  · intro k i hk
    rw [h.stackEntries]
    unfold Typing.skip at hk
    split_ifs at hk
    exact hs.stack k i hk

end Store

namespace Eval

variable {Γ : Typing} {s : Store} {scope : ScopeId} {o : Origin} {modules : Importable}
  {exports : Fields} {P : Store → Prop}

/-! ## Imports and declarations -/

theorem bindImports_leaves (scope : ScopeId) (found : Option Fields) (bs : List Binding) :
    (bindImports scope found bs).Leaves P s := by
  induction bs generalizing s with
  | nil => exact .pure _ _
  | cons b bs ih =>
    have hvalue : (importedValue found b.imported).Leaves P s := by
      cases b.imported with
      | default => exact .pure _ _
      | named n => exact .pure _ _
      | everything =>
        cases found with
        | none => exact .pure _ _
        | some fields => exact .of_ok rfl
    refine hvalue.bind fun v s₁ _ => ?_
    exact Attempt.Leaves.bind (x := Run.declare scope b.name v) (.of_ok rfl) fun _ _ _ => ih

/-- Imports do not fail. -/
theorem imports_leave (ev : Evaluator) {imports : List Statement}
    (himports : ∀ st ∈ imports, st.isImport = true) :
    (topLevel ev modules scope exports imports).Leaves P s := by
  induction imports generalizing s with
  | nil => exact .pure _ _
  | cons st imports ih =>
    rw [List.forall_mem_cons] at himports
    cases st with
    | imports decl => exact (bindImports_leaves _ _ _).bind fun u s₁ _ => ih himports.2
    | _ => cases himports.1

theorem helper_store {x : Helper} {v : Value} {s' : Store} (h : helper scope x s = (.ok v, s')) :
    s' = s := by
  cases x with
  | newStack =>
    cases h
    rfl
  | recordParent n =>
    obtain ⟨id, s₁, hid, h⟩ := Attempt.bind_eq_ok.mp h
    cases h
    exact boundStack_store hid
  | recordExpression n =>
    obtain ⟨id, s₁, hid, h⟩ := Attempt.bind_eq_ok.mp h
    cases h
    exact boundStack_store hid

/-- What annotation declares: hidden names, for a text or what a helper gives. -/
def Declares (o : Origin) (st : Statement) : Prop :=
  ∃ n e, st = Annotate.declare n e ∧ n ∈ o.hidden ∧ ((∃ t, e = .text t) ∨ ∃ x, e = .helper x)

theorem declares_declarations (o : Origin) : ∀ st ∈ o.declarations, Declares o st := by
  cases o with
  | plain => nofun
  | annotated i =>
    intro st hst
    simp only [Origin.declarations, declarations, List.mem_append] at hst
    rcases hst with hst | hst
    · split_ifs at hst
      · cases List.mem_singleton.mp hst
        exact ⟨i.names.fileName, _, rfl, by simp [Origin.hidden, Names.toList], .inl ⟨_, rfl⟩⟩
      · cases hst
    · split_ifs at hst
      · simp only [List.mem_cons, List.not_mem_nil, or_false] at hst
        rcases hst with rfl | rfl | rfl
        · exact ⟨i.names.stack, _, rfl, by simp [Origin.hidden, Names.toList], .inr ⟨_, rfl⟩⟩
        · exact ⟨i.names.recordParent, _, rfl, by simp [Origin.hidden, Names.toList],
            .inr ⟨_, rfl⟩⟩
        · exact ⟨i.names.recordExpression, _, rfl, by simp [Origin.hidden, Names.toList],
            .inr ⟨_, rfl⟩⟩
      · cases hst

/-- Where a declaration fails, only imports and declarations before it are bound, and no element was
under way. -/
theorem declarations_leave {P : List Unfinished → Store → Prop} (n : Nat) {stack : StackId}
    {b : Keyed Value} {s₀ : Store} {ds : List Statement} (hds : ∀ st ∈ ds, Declares o st)
    (h : Opened Γ o stack b s₀ s) (hP : ∀ b' s', Opened Γ o stack b' s₀ s' → P [] s') :
    (topLevel (eval n) modules ⟨s₀.scopes.size⟩ exports ds).Leaves
      (P (Unfinished.topLevel (eval n) (Unfinished.eval n) modules ⟨s₀.scopes.size⟩ ds s)) s := by
  induction ds generalizing s b exports with
  | nil => exact .pure _ _
  | cons st ds ih =>
    rw [List.forall_mem_cons] at hds
    obtain ⟨name, e, rfl, hname, he⟩ := hds.1
    have hquiet : FailsQuietly (named (eval n) name) (Unfinished.named (Unfinished.eval n))
          ⟨s₀.scopes.size⟩ e ∧
        ∀ v s₁, named (eval n) name ⟨s₀.scopes.size⟩ e s = (.ok v, s₁) → s₁ = s := by
      rcases he with ⟨t, rfl⟩ | ⟨x, rfl⟩
      · have htext := (still_eval n).text ⟨s₀.scopes.size⟩ t
        refine ⟨⟨htext.still, htext.quiet⟩, fun v s₁ hv => ?_⟩
        obtain ⟨l, hl⟩ := covers_eval n _ _ _ _ _ hv
        exact ((regular_derives n).text hl).2.1
      · have hhelper := (still_eval n).helper ⟨s₀.scopes.size⟩ x
        refine ⟨⟨hhelper.still, hhelper.quiet⟩, fun v s₁ hv => ?_⟩
        obtain ⟨l, hl⟩ := covers_eval n _ _ _ _ _ hv
        exact helper_store ((regular_derives n).helper hl).1
    obtain ⟨⟨hstill, hnothing⟩, hstore⟩ := hquiet
    refine leaves_behind ?_ fun v s₁ hv => ?_
    · rw [hnothing]
      exact hstill.leaves (hP _ _ h)
    · rw [hstore v s₁ hv]
      exact ih hds.2 (h.declare (.inl hname))

/-! ## The statements behind them -/

theorem Traced.topLevel {ev : Evaluator} {up : Trace} {J : Judgement} (hev : Traced Γ ev up J)
    {ss : List Statement} (hs : s.Sound Γ) (hi : s.Home Γ scope.index o)
    (hfits : o.Fits (mentionsOfStatements ss)) (hmodules : modules.Clean (s.Home Γ)) :
    Stops Γ (topLevel ev modules scope exports (o.statements ss))
      (Unfinished.topLevel ev up modules scope (o.statements ss)) s := by
  induction ss generalizing s exports with
  | nil =>
    rw [Origin.statements_nil]
    exact .of_ok rfl
  | cons st ss ih =>
    rw [Origin.statements_cons]
    rw [mentionsOfStatements] at hfits
    have hrest : ∀ {s₁ exports' l}, Keeps Γ s s₁ l →
        Stops Γ (Eval.topLevel ev modules scope exports' (o.statements ss))
          (Unfinished.topLevel ev up modules scope (o.statements ss)) s₁ :=
      fun k => ih k.sound (k.home hi) hfits.right fun m hm e he => k.clean (hmodules m hm e he)
    cases st with
    | imports decl =>
      rw [Origin.statement_imports]
      rw [Statement.mentions] at hfits
      refine Stops.behind (bindImports_leaves _ _ _) fun u s₁ hu => ?_
      have k := bindImports_keeps hs hi (fun fields hf => hmodules.find _ hf)
        (fun b hb => hfits.left.binder (List.mem_map_of_mem hb)) hu
      exact ⟨[], k, hrest k⟩
    | const exported name e =>
      rw [Origin.statement_const]
      rw [Statement.mentions] at hfits
      refine hev.bindNamed hs hi hfits.left.tail fun v s₁ l k hv => ?_
      have k' := declare_keeps k.sound (k.home hi) (hfits.left.binder List.mem_cons_self) hv
      refine (ih k'.sound (k'.home (k.home hi)) hfits.right ?_).after k'
      exact fun m hm e he => k'.clean (k.clean (hmodules m hm e he))
    | returns e =>
      rw [Origin.statement_returns]
      exact .of_still (.fail _) hs rfl
    | returnsNothing =>
      rw [Origin.statement_returnsNothing]
      exact .of_still (.fail _) hs rfl
    | expr e =>
      rw [Origin.statement_expr]
      rw [Statement.mentions] at hfits
      exact hev.behind hs hi hfits.left fun v s₁ l k _ => hrest k

/-! ## However it ends -/

/-- A typing that agrees with another one on the scopes of a store. -/
def Typing.Extends (Γ' Γ : Typing) (s : Store) : Prop := ∀ k < s.scopes.size, Γ' k = Γ k

/-- The parts of the code of a module, in the order in which they are loaded. -/
theorem load_eq {m : Module} {stack : StackId} (n : Nat) (ho : o.Of m stack) :
    load n modules stack (o.code m) s =
      (topLevel (eval n) modules ⟨s.scopes.size⟩ [] (m.body.take m.leadingImports) >>=
        fun exports₁ => topLevel (eval n) modules ⟨s.scopes.size⟩ exports₁ o.declarations >>=
          fun exports₂ => topLevel (eval n) modules ⟨s.scopes.size⟩ exports₂
            (o.statements (m.body.drop m.leadingImports))) (s.newScope none stack).2 := by
  show topLevel (eval n) modules ⟨s.scopes.size⟩ [] (o.code m).body (s.newScope none stack).2 = _
  simp only [Origin.code_body ho, topLevel_append]

/-- What stands once the imports of a module are bound, and then once its declarations are. -/
theorem opened_of_imports {m : Module} {stack : StackId} {n : Nat} {exports₁ : Fields} {s₁ : Store}
    (hs : s.Sound Γ) (ho : o.Of m stack) (hfits : o.Fits m.mentions)
    (hstack : stack.index < s.stackEntries.length) (hmodules : modules.Clean (s.Home Γ))
    (h₁ : topLevel (eval n) modules ⟨s.scopes.size⟩ [] (m.body.take m.leadingImports)
      (s.newScope none stack).2 = (.ok exports₁, s₁)) :
    ∃ b, Opened Γ o stack b s s₁ ∧ ∀ exports₂ s₂,
      topLevel (eval n) modules ⟨s.scopes.size⟩ exports₁ o.declarations s₁ = (.ok exports₂, s₂) →
        Opened Γ o stack (withDeclared o b) s s₂ ∧ s₂.Sound (Γ.open s o) ∧
          s₂.Home (Γ.open s o) s.scopes.size o ∧ modules.Clean (s₂.Home (Γ.open s o)) ∧
          o.Fits (mentionsOfStatements (m.body.drop m.leadingImports)) := by
  have hparts := hfits
  rw [Module.mentions, ← List.take_append_drop m.leadingImports m.body,
    mentionsOfStatements_append] at hparts
  obtain ⟨l₁, ht₁⟩ := (covers_eval n).topLevel h₁
  obtain ⟨b, ho₁, hfresh⟩ := TopLevel.imports_opened (isImport_of_mem_take m)
    (opened_newScope Γ o stack s) hmodules hparts.left (fun _ _ => rfl) ht₁
  refine ⟨b, ho₁, fun exports₂ s₂ h₂ => ?_⟩
  obtain ⟨l₂, ht₂⟩ := (covers_eval n).topLevel h₂
  rw [← List.append_nil o.declarations] at ht₂
  obtain ⟨s₂', ho₂, ht₃⟩ :=
    TopLevel.append_declarations (regular_derives n) (fun i hi => (ho i hi).2) ho₁ ht₂
  cases ht₃
  have hsound := ho₂.sound hs (declared_withDeclared hfresh) fun i hi => (ho i hi).2 ▸ hstack
  refine ⟨ho₂, hsound, ho₂.home _ rfl, fun m hm e he => ?_, hparts.right⟩
  exact (hmodules m hm e he).mono fun i o' hi => hi.mono ho₂.grows fun k o'' hk hΓ =>
    (if_neg hk.ne : Γ.open s o k = Γ k).trans hΓ

/-- Loading goes the way of `load_eq`. -/
theorem unfinished_load {m : Module} {stack : StackId} (n : Nat) (ho : o.Of m stack) :
    Unfinished.load n modules stack (o.code m) s =
      behind (topLevel (eval n) modules ⟨s.scopes.size⟩ [] (m.body.take m.leadingImports))
        (Unfinished.topLevel (eval n) (Unfinished.eval n) modules ⟨s.scopes.size⟩
          (m.body.take m.leadingImports))
        (fun exports₁ => behind (topLevel (eval n) modules ⟨s.scopes.size⟩ exports₁ o.declarations)
          (Unfinished.topLevel (eval n) (Unfinished.eval n) modules ⟨s.scopes.size⟩ o.declarations)
          fun _ => Unfinished.topLevel (eval n) (Unfinished.eval n) modules ⟨s.scopes.size⟩
            (o.statements (m.body.drop m.leadingImports))) (s.newScope none stack).2 := by
  rw [Unfinished.load, Origin.code_body ho, Unfinished.topLevel_append _ _ _ _ []]
  congr 1
  funext exports₁
  exact Unfinished.topLevel_append _ _ _ _ exports₁ _ _

/-- What a failure in loading leaves. The new root scope is of the module's origin, unless it failed
before its declarations stood, with nothing unfinished. -/
def AbandonsLoad (Γ : Typing) (o : Origin) (s : Store) (us : List Unfinished) (s' : Store) : Prop :=
  ∃ Γ', (Γ' = Γ.open s o ∨ Γ' = Γ.skip s ∧ us = []) ∧ Abandons Γ' s us s'

theorem load_stops {m : Module} {stack : StackId} (n : Nat) (hs : s.Sound Γ) (ho : o.Of m stack)
    (hfits : o.Fits m.mentions) (hstack : stack.index < s.stackEntries.length)
    (hmodules : modules.Clean (s.Home Γ)) : (load n modules stack (o.code m)).Leaves
      (AbandonsLoad Γ o s (Unfinished.load n modules stack (o.code m) s)) s := by
  intro err s' herr
  rw [load_eq n ho] at herr
  rw [unfinished_load n ho]
  refine leaves_behind (imports_leave _ (isImport_of_mem_take m))
    (fun exports₁ s₁ h₁ => ?_) err s' herr
  obtain ⟨b, ho₁, hrest⟩ := opened_of_imports hs ho hfits hstack hmodules h₁
  refine leaves_behind (declarations_leave n (declares_declarations o) ho₁ fun b' s' h => ?_)
    fun exports₂ s₂ h₂ => ?_
  · exact ⟨Γ.skip s, .inr ⟨rfl, rfl⟩, .still ⟨h.sound_skip hs, h.grows⟩ h.stackEntries⟩
  · obtain ⟨ho₂, hsound, hhome, hclean, hfits⟩ := hrest exports₂ s₂ h₂
    refine ((traced_eval (Γ.open s o) n).1.topLevel hsound hhome hfits hclean).imp fun s' hs' => ?_
    exact ⟨Γ.open s o, .inl rfl, hs'.after ho₂.grows ho₂.stackEntries⟩

theorem call_stops (n : Nat) {callee : Value} {arguments : List Value} (hs : s.Sound Γ)
    (hcallee : callee.Clean (s.Home Γ)) (harguments : ∀ v ∈ arguments, v.Clean (s.Home Γ)) :
    Stops Γ (call n callee arguments) (Unfinished.call n callee arguments) s :=
  (traced_eval Γ n).1.callWith hs hcallee harguments

end Eval

/-- A value that user code may hold: there is no builtin or stack in it, and only records that were
made. -/
structure Value.Usable (Γ : Typing) (s : Store) (v : Value) : Prop where
  clean : v.Clean (s.Home Γ)
  grounded : v.Grounded s.records.size

theorem Value.Usable.mono {Γ Γ' : Typing} {s s' : Store} {v : Value} (h : v.Usable Γ s)
    (hΓ : Eval.Typing.Extends Γ' Γ s) (hs : s.Grows none s') : v.Usable Γ' s' :=
  ⟨h.clean.mono fun _ _ hi => hi.mono hs fun k _ hk heq => (hΓ k hk).trans heq,
    h.grounded.mono hs.size⟩

theorem Value.Usable.grow {Γ : Typing} {s s' : Store} {v : Value} (h : v.Usable Γ s)
    (hs : s.Grows none s') : v.Usable Γ s' := h.mono (fun _ _ => rfl) hs

namespace Eval

/-- A store that is in order and holds what another one held. -/
structure Settles (Γ : Typing) (s s' : Store) : Prop where
  sound : s'.Sound Γ
  grounded : s'.Grounded
  grows : s.Grows none s'
  stackCount : s'.stackEntries.length = s.stackEntries.length

theorem Settles.refl {Γ : Typing} {s : Store} (hs : s.Sound Γ) (hground : s.Grounded) :
    Settles Γ s s := ⟨hs, hground, .refl s, rfl⟩

theorem Settles.trans {Γ Γ' : Typing} {s s₁ s₂ : Store} (h₁ : Settles Γ s s₁)
    (h₂ : Settles Γ' s₁ s₂) : Settles Γ' s s₂ :=
  ⟨h₂.sound, h₂.grounded, h₁.grows.trans h₂.grows, h₂.stackCount.trans h₁.stackCount⟩

variable {Γ : Typing} {s : Store} {o : Origin}

/-- A run that grounds what it gives, and of which the rest is known. -/
theorem settles_of_grounds {α : Type} {x : Run α} {P : Nat → α → Prop} (hground : s.Grounded)
    (hx : x.Grounds s.records.size P) (h : Remains Γ none s (x s).2) :
    Settles Γ s (x s).2 ∧ ∀ a, (x s).1 = .ok a → P (x s).2.records.size a := by
  obtain ⟨hwidens, hground', hgiven⟩ := hx s hground le_rfl
  exact ⟨⟨h.sound, hground', h.grows, hwidens.stackCount⟩, hgiven⟩

/-- However loading a module ends, the store settles, and if it succeeds, the exports may be held. -/
theorem load_settles {modules : Importable} {m : Module} {stack : StackId} (n : Nat)
    (hs : s.Sound Γ) (hground : s.Grounded) (ho : o.Of m stack) (hfits : o.Fits m.mentions)
    (hstack : stack.index < s.stackEntries.length)
    (hmodules : ∀ m ∈ modules, ∀ e ∈ m.2, e.2.Usable Γ s) :
    ∃ Γ', Typing.Extends Γ' Γ s ∧ Settles Γ' s (load n modules stack (o.code m) s).2 ∧
      ∀ exports, (load n modules stack (o.code m) s).1 = .ok exports →
        ∀ e ∈ exports, e.2.Usable Γ' (load n modules stack (o.code m) s).2 := by
  have hclean : modules.Clean (s.Home Γ) := fun m hm e he => (hmodules m hm e he).clean
  have hgrounds := Run.Grounds.load n (fun m hm e he => (hmodules m hm e he).grounded) stack (o.code m)
  have hany : ∃ Γ', Typing.Extends Γ' Γ s ∧
      Remains Γ' none s (load n modules stack (o.code m) s).2 ∧
      ∀ exports, (load n modules stack (o.code m) s).1 = .ok exports →
        ∀ e ∈ exports, e.2.Clean (Home Γ' (load n modules stack (o.code m) s).2) := by
    cases h : load n modules stack (o.code m) s with
    | mk result s' =>
      cases result with
      | error e =>
        obtain ⟨Γ', hΓ, hleft⟩ := load_stops n hs ho hfits hstack hclean e s' h
        refine ⟨Γ', ?_, hleft.remains, nofun⟩
        rcases hΓ with rfl | ⟨rfl, -⟩ <;> exact fun k hk => if_neg hk.ne
      | ok exports =>
        obtain ⟨l, hl⟩ := exists_loads h
        obtain ⟨k, hexports⟩ := Loads.keeps hs ho hfits hstack hclean hl
        refine ⟨Γ.open s o, fun i hi => if_neg hi.ne, k.remains, ?_⟩
        intro exports' heq
        cases heq
        exact hexports
  obtain ⟨Γ', hextends, hremains, hexports⟩ := hany
  obtain ⟨hsettles, hgiven⟩ := settles_of_grounds hground hgrounds hremains
  exact ⟨Γ', hextends, hsettles, fun exports hok e he =>
    ⟨hexports exports hok e he, hgiven exports hok e he⟩⟩

/-- However a call ends. -/
theorem call_settles (n : Nat) {callee : Value} {arguments : List Value} (hs : s.Sound Γ)
    (hground : s.Grounded) (hcallee : callee.Clean (s.Home Γ))
    (harguments : ∀ v ∈ arguments, v.Usable Γ s) :
    Settles Γ s (call n callee arguments s).2 ∧
      ∀ v, (call n callee arguments s).1 = .ok v → v.Usable Γ (call n callee arguments s).2 := by
  have hclean : ∀ v ∈ arguments, v.Clean (s.Home Γ) := fun v hv => (harguments v hv).clean
  have hgrounds : (call n callee arguments).Grounds s.records.size Value.Grounded :=
    .call n fun v hv => (harguments v hv).grounded
  have hany : Remains Γ none s (call n callee arguments s).2 ∧
      ∀ v, (call n callee arguments s).1 = .ok v →
        v.Clean (Home Γ (call n callee arguments s).2) := by
    cases h : call n callee arguments s with
    | mk result s' =>
      cases result with
      | error e => exact ⟨(call_stops n hs hcallee hclean e s' h).remains, nofun⟩
      | ok v =>
        obtain ⟨l, hl⟩ := exists_called h
        obtain ⟨k, hv⟩ := Called.keeps (derives_keeps Γ n).1 hs hcallee hclean hl
        refine ⟨k.remains, ?_⟩
        intro w heq
        cases heq
        exact hv
  obtain ⟨hsettles, hgiven⟩ := settles_of_grounds hground hgrounds hany.1
  exact ⟨hsettles, fun v hok => ⟨hany.2 v hok, hgiven v hok⟩⟩

end Eval

end MarkupTrace
