/-!
# Attempts

An attempt is a computation over a state that can fail. A failure leaves the state as far as it was
changed until then, so what a failing run has done can still be spoken about.
-/

namespace MarkupTrace

def Attempt (σ ε α : Type) := σ → Except ε α × σ

namespace Attempt

variable {σ ε α β : Type}

protected def pure (a : α) : Attempt σ ε α := fun s => (.ok a, s)

protected def bind (x : Attempt σ ε α) (f : α → Attempt σ ε β) : Attempt σ ε β := fun s =>
  match x s with
  | (.ok a, s') => f a s'
  | (.error e, s') => (.error e, s')

instance : Monad (Attempt σ ε) where
  pure := Attempt.pure
  bind := Attempt.bind

def fail (e : ε) : Attempt σ ε α := fun s => (.error e, s)

/-- The state as it is. -/
def state : Attempt σ ε σ := fun s => (.ok s, s)

/-- A value read off the state. -/
def gets (f : σ → α) : Attempt σ ε α := fun s => (.ok (f s), s)

def modify (f : σ → σ) : Attempt σ ε Unit := fun s => (.ok (), f s)

/-- A change of the state that gives a value. -/
def update (f : σ → α × σ) : Attempt σ ε α := fun s =>
  let (a, s') := f s
  (.ok a, s')

/-- The value, or else a failure. -/
def ofOption (e : ε) : Option α → Attempt σ ε α
  | some a => Attempt.pure a
  | none => fail e

/-- Runs over a part of a larger state, with failures turned into those of the whole. -/
def within {τ δ : Type} (part : τ → σ) (put : σ → τ → τ) (widen : ε → δ) (x : Attempt σ ε α) :
    Attempt τ δ α := fun t =>
  match x (part t) with
  | (.ok a, s) => (.ok a, put s t)
  | (.error e, s) => (.error (widen e), put s t)

@[simp] theorem pure_apply (a : α) (s : σ) : (pure a : Attempt σ ε α) s = (.ok a, s) := rfl

theorem bind_apply (x : Attempt σ ε α) (f : α → Attempt σ ε β) (s : σ) :
    (x >>= f) s = match x s with
      | (.ok a, s') => f a s'
      | (.error e, s') => (.error e, s') := rfl

theorem bind_ok {x : Attempt σ ε α} {s s' : σ} {a : α} (h : x s = (.ok a, s'))
    (f : α → Attempt σ ε β) : (x >>= f) s = f a s' := by
  rw [bind_apply, h]

theorem bind_error {x : Attempt σ ε α} {s s' : σ} {e : ε} (h : x s = (.error e, s'))
    (f : α → Attempt σ ε β) : (x >>= f) s = (.error e, s') := by
  rw [bind_apply, h]

theorem bind_assoc {γ : Type} (x : Attempt σ ε α) (f : α → Attempt σ ε β)
    (g : β → Attempt σ ε γ) : (x >>= f >>= g) = x >>= fun a => f a >>= g := by
  funext s
  rw [bind_apply, bind_apply, bind_apply]
  rcases x s with ⟨e | a, s₁⟩ <;> rfl

theorem pure_eq_ok {a b : α} {s s' : σ} :
    (pure a : Attempt σ ε α) s = (.ok b, s') ↔ a = b ∧ s = s' := by
  simp

/-- A sequence succeeds when both of its parts do. -/
theorem bind_eq_ok {x : Attempt σ ε α} {f : α → Attempt σ ε β} {s s' : σ} {b : β} :
    (x >>= f) s = (.ok b, s') ↔ ∃ a s₁, x s = (.ok a, s₁) ∧ f a s₁ = (.ok b, s') := by
  rw [bind_apply]
  rcases x s with ⟨e | a, s₁⟩
  · simp
  · constructor
    · intro h
      exact ⟨a, s₁, rfl, h⟩
    · rintro ⟨a', s₁', ha, h⟩
      cases ha
      exact h

theorem fail_ne_ok {e : ε} {a : α} {s s' : σ} : (fail e : Attempt σ ε α) s ≠ (.ok a, s') := by
  simp [fail]

end Attempt

end MarkupTrace
