import MarkupTrace.Proofs.Identities
import MarkupTrace.Proofs.Loading

/-!
# What failures leave

What is said of an evaluation that succeeds says nothing of the store that a failure leaves. Most
steps that evaluate nothing change nothing when they fail. Binding parameters may fail halfway, but
what was bound by then is in order.
-/

namespace MarkupTrace

open Source Annotate Eval Store

/-! ## States that failures leave -/

/-- If the attempt fails, it leaves a state like this. -/
def Attempt.Leaves {σ ε α : Type} (P : σ → Prop) (x : Attempt σ ε α) (s : σ) : Prop :=
  ∀ e s', x s = (.error e, s') → P s'

namespace Attempt.Leaves

variable {σ ε α β : Type} {P Q : σ → Prop} {x : Attempt σ ε α} {s : σ}

theorem of_ok {a : α} {s' : σ} (h : x s = (.ok a, s')) : x.Leaves P s := by
  intro e s'' he
  rw [h] at he
  cases he

theorem pure (a : α) (s : σ) : (Pure.pure a : Attempt σ ε α).Leaves P s := of_ok (pure_apply a s)

theorem fail (e : ε) (h : P s) : (Attempt.fail e : Attempt σ ε α).Leaves P s := by
  intro e' s' he
  cases he
  exact h

theorem imp (h : x.Leaves P s) (hPQ : ∀ s', P s' → Q s') : x.Leaves Q s :=
  fun e s' he => hPQ s' (h e s' he)

theorem bind {f : α → Attempt σ ε β} (hx : x.Leaves P s)
    (hf : ∀ a s₁, x s = (.ok a, s₁) → (f a).Leaves P s₁) : (x >>= f).Leaves P s := by
  intro e s' he
  rw [bind_apply] at he
  cases hfirst : x s with
  | mk result s₁ =>
    rw [hfirst] at he
    cases result with
    | error e' =>
      cases he
      exact hx _ _ hfirst
    | ok a => exact hf a s₁ hfirst e s' he

theorem map (h : x.Leaves P s) (g : α → β) : (x >>= fun a => Pure.pure (g a)).Leaves P s :=
  h.bind fun a s₁ _ => pure (g a) s₁

end Attempt.Leaves

/-- If the attempt fails, it has changed nothing. -/
def Attempt.FailsStill {σ ε α : Type} (x : Attempt σ ε α) : Prop := ∀ s, x.Leaves (· = s) s

namespace Attempt.FailsStill

variable {σ ε α β : Type} {P : σ → Prop} {x : Attempt σ ε α} {s : σ}

theorem leaves (h : x.FailsStill) (hs : P s) : x.Leaves P s := by
  refine (h s).imp fun s' heq => ?_
  rw [heq]
  exact hs

theorem pure (a : α) : (Pure.pure a : Attempt σ ε α).FailsStill := fun s => .pure a s

theorem fail (e : ε) : (Attempt.fail e : Attempt σ ε α).FailsStill := fun _ => .fail e rfl

theorem bind {f : α → Attempt σ ε β} (hx : x.FailsStill)
    (hstill : ∀ a s s₁, x s = (.ok a, s₁) → s₁ = s) (hf : ∀ a, (f a).FailsStill) :
    (x >>= f).FailsStill := by
  intro s
  refine (hx s).bind fun a s₁ ha => ?_
  rw [hstill a s s₁ ha]
  exact hf a s

end Attempt.FailsStill

namespace Eval

/-- The store stays sound, and what it held stays, one record perhaps excepted. -/
structure Remains (Γ : Typing) (but : Option Nat) (s s' : Store) : Prop where
  sound : s'.Sound Γ
  grows : s.Grows but s'

namespace Remains

variable {Γ : Typing} {but : Option Nat} {s s₁ s₂ : Store}

theorem refl (h : s.Sound Γ) : Remains Γ but s s := ⟨h, .refl s⟩

theorem trans (h₁ : Remains Γ but s s₁) (h₂ : Remains Γ but s₁ s₂) : Remains Γ but s s₂ :=
  ⟨h₂.sound, h₁.grows.trans h₂.grows⟩

end Remains

theorem Keeps.remains {Γ : Typing} {but : Option Nat} {s s' : Store} {l : List Creation}
    (h : Keeps Γ s s' l) : Remains Γ but s s' := ⟨h.sound, h.grows.weaken⟩

variable {Γ : Typing} {but : Option Nat} {s : Store} {scope : ScopeId} {o : Origin}

/-- A failure behind a run that kept the books. -/
theorem leaves_bind {α β : Type} {x : Run α} {f : α → Run β}
    (hx : x.Leaves (Remains Γ but s) s) (hf : ∀ a s₁, x s = (.ok a, s₁) →
      ∃ l, Keeps Γ s s₁ l ∧ (f a).Leaves (Remains Γ but s₁) s₁) :
    (x >>= f).Leaves (Remains Γ but s) s := by
  refine hx.bind fun a s₁ ha => ?_
  obtain ⟨l, hkeeps, hleaves⟩ := hf a s₁ ha
  exact hleaves.imp fun _ h => hkeeps.remains.trans h

/-! ## Steps without evaluation -/

theorem gets_bind_failsStill {α β : Type} {g : Store → α} {f : α → Run β}
    (hf : ∀ a, (f a).FailsStill) : (Attempt.gets g >>= f).FailsStill := by
  refine .bind (fun s => .of_ok rfl) (fun a s s₁ h => ?_) hf
  cases h
  rfl

theorem property_failsStill (p : String) (v : Value) : (Run.property p v).FailsStill := by
  unfold Run.property
  split
  · exact .pure _
  · exact .fail _

theorem lookup_failsStill (n : String) (scope : ScopeId) : (Run.lookup n scope).FailsStill := by
  refine gets_bind_failsStill fun found => ?_
  cases found with
  | none => exact .fail _
  | some v => exact .pure v

theorem nameValue_failsStill (scope : ScopeId) (n : String) : (nameValue scope n).FailsStill := by
  unfold nameValue
  split_ifs
  · exact .pure _
  · exact lookup_failsStill n scope

theorem spread_failsStill (fields : Fields) (v : Value) : (Run.spread fields v).FailsStill := by
  cases v <;> first
    | exact .pure _
    | exact .fail _

theorem follow_failsStill (target : Value) (names : List String) :
    (follow target names).FailsStill := by
  induction names generalizing target with
  | nil => exact .pure _
  | cons n names ih =>
    exact (property_failsStill n target).bind (fun _ _ _ h => (property_eq_ok.mp h).2) ih

theorem elementType_failsStill (scope : ScopeId) (name : String) :
    (elementType scope name).FailsStill := by
  unfold elementType
  split_ifs
  · exact .pure _
  · split
    · exact .fail _
    · refine (lookup_failsStill _ scope).bind (fun _ _ _ h => (lookup_eq_ok.mp h).2) fun v => ?_
      refine (follow_failsStill v _).bind (fun _ _ _ h => follow_store h) fun w => ?_
      cases w with
      | function f => exact .pure _
      | _ => exact .fail _

theorem boundStack_failsStill (n : String) (scope : ScopeId) :
    (boundStack n scope).FailsStill := by
  refine gets_bind_failsStill fun found => ?_
  split
  · exact .pure _
  · exact .fail _
  · exact .fail _

theorem helper_failsStill (scope : ScopeId) (x : Helper) : (helper scope x).FailsStill := by
  cases x with
  | newStack => exact gets_bind_failsStill fun _ => .pure _
  | recordParent n =>
    exact (boundStack_failsStill n scope).bind (fun _ _ _ h => boundStack_store h) fun _ => .pure _
  | recordExpression n =>
    exact (boundStack_failsStill n scope).bind (fun _ _ _ h => boundStack_store h) fun _ => .pure _

theorem bindProperties_leaves (hs : s.Sound Γ) (hi : s.Home Γ scope.index o) {argument : Value}
    (hargument : argument.Clean (s.Home Γ)) {names : List String}
    (hnames : ∀ n ∈ names, n ∉ o.hidden) :
    (bindProperties scope argument names).Leaves (Remains Γ but s) s := by
  induction names generalizing s with
  | nil => exact .pure _ _
  | cons n names ih =>
    rw [List.forall_mem_cons] at hnames
    refine ((property_failsStill n argument).leaves (.refl hs)).bind fun v s₁ hv => ?_
    obtain ⟨hread, rfl⟩ := property_eq_ok.mp hv
    have hkeeps := declare_keeps hs hi hnames.1 (hargument.get? hread)
    refine leaves_bind (.of_ok rfl) fun u s₂ hu => ?_
    cases hu
    exact ⟨[], hkeeps, ih hkeeps.sound (hkeeps.home hi) (hkeeps.clean hargument) hnames.2⟩

theorem bindParams_leaves {params : List Param} {arguments : List Value} (hs : s.Sound Γ)
    (hi : s.Home Γ scope.index o) (harguments : ∀ v ∈ arguments, v.Clean (s.Home Γ))
    (hfits : o.Fits (params.flatMap Param.mentions)) :
    (bindParams scope params arguments).Leaves (Remains Γ but s) s := by
  induction params generalizing s arguments with
  | nil => exact .pure _ _
  | cons p params ih =>
    rw [List.flatMap_cons] at hfits
    have hargument : (arguments.headD .undefined).Clean (s.Home Γ) := by
      cases arguments with
      | nil => exact .undefined
      | cons v vs => exact harguments v List.mem_cons_self
    have hrest : ∀ {s₁}, Keeps Γ s s₁ [] →
        ∃ l, Keeps Γ s s₁ l ∧
          (bindParams scope params arguments.tail).Leaves (Remains Γ but s₁) s₁ := fun k =>
      ⟨[], k, ih k.sound (k.home hi)
        (fun v hv => k.clean (harguments v (List.mem_of_mem_tail hv))) hfits.right⟩
    cases p with
    | name n =>
      refine leaves_bind (.of_ok rfl) fun u s₁ hu => ?_
      cases hu
      exact hrest (declare_keeps hs hi (hfits.left.binder List.mem_cons_self) hargument)
    | properties names =>
      have hnames : ∀ n ∈ names, n ∉ o.hidden := fun n hn =>
        hfits.left.binder (List.mem_flatMap.mpr ⟨n, hn, List.mem_cons_self⟩)
      exact leaves_bind (bindProperties_leaves hs hi hargument hnames) fun u s₁ hu =>
        hrest (bindProperties_keeps hs hi hargument hnames hu)

/-- Builtins do not fail. -/
theorem exists_callBuiltin (b : Builtin) (arguments : List Value) (s : Store) :
    ∃ v s', callBuiltin b arguments s = (.ok v, s') := by
  cases b with
  | recordParent id =>
    rw [callBuiltin]
    generalize arguments.headD .undefined = v
    cases v with
    | object identity fields =>
      dsimp only
      cases Value.location? (.object identity fields) <;> exact ⟨_, _, rfl⟩
    | _ => exact ⟨_, _, rfl⟩
  | recordExpression id => exact ⟨_, _, rfl⟩

end Eval

end MarkupTrace
