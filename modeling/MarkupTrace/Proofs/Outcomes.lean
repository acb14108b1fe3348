import MarkupTrace.Source.Error

/-!
# What parsers give

Alternatives and blames aside, a parser gives a value and what is left of its input, or it fails. What
a combinator gives is told from what its parts give. Nothing but a first part of the input is ever
taken.
-/

namespace MarkupTrace.Source.Grammar

theorem Input.ext {i j : Input} (h : i.tokens = j.tokens) : i = j := by
  obtain ⟨tokens, left, hleft⟩ := i
  obtain ⟨tokens', left', hleft'⟩ := j
  subst hleft hleft'
  cases h
  rfl

@[simp] theorem Input.tokens_ofTokens (ts : List Token) : (Input.ofTokens ts).tokens = ts := rfl

theorem Input.next?_eq_some {i r : Input} {t : Token} :
    i.next? = some (t, r) ↔ i.tokens = t :: r.tokens := by
  obtain ⟨tokens, left, hleft⟩ := i
  cases tokens with
  | nil => simp [Input.next?]
  | cons u us =>
    constructor
    · intro h
      simp only [Input.next?, Option.some.injEq, Prod.mk.injEq] at h
      obtain ⟨rfl, rfl⟩ := h
      rfl
    · intro h
      obtain ⟨rfl, rfl⟩ := List.cons_eq_cons.mp h
      simp only [Input.next?, Option.some.injEq, Prod.mk.injEq, true_and]
      exact Input.ext rfl

theorem Input.next?_eq_none {i : Input} : i.next? = none ↔ i.tokens = [] := by
  obtain ⟨tokens, left, hleft⟩ := i
  cases tokens <;> simp [Input.next?]

namespace Parser

variable {α β : Type}

/-- The parser succeeds. -/
def Gives (p : Parser α) (i : Input) (a : α) (r : Input) : Prop := ∃ alt, p i = .done a r alt

def Fails (p : Parser α) (i : Input) : Prop := ∃ b, p i = .failed b

section

variable {p : Parser α} {q : Parser β} {i r : Input} {a : α}

theorem gives_or_fails (p : Parser α) (i : Input) : (∃ a r, p.Gives i a r) ∨ p.Fails i := by
  cases h : p i with
  | done a r alt => exact .inl ⟨a, r, alt, h⟩
  | failed b => exact .inr ⟨b, h⟩

theorem Gives.not_fails (h : p.Gives i a r) : ¬ p.Fails i := by
  obtain ⟨alt, h⟩ := h
  rintro ⟨b, h'⟩
  rw [h] at h'
  cases h'

theorem not_fails_iff : ¬ p.Fails i ↔ ∃ a r, p.Gives i a r := by
  constructor
  · intro h
    exact (gives_or_fails p i).resolve_right h
  · rintro ⟨a, r, h⟩
    exact h.not_fails

theorem Gives.unique {a' : α} {r' : Input} (h : p.Gives i a r) (h' : p.Gives i a' r') :
    a = a' ∧ r = r' := by
  obtain ⟨alt, h⟩ := h
  obtain ⟨alt', h'⟩ := h'
  rw [h] at h'
  cases h'
  exact ⟨rfl, rfl⟩

/-! ## Combinators -/

theorem gives_single {accept : Token → Option α} :
    (single accept).Gives i a r ↔ ∃ t, i.tokens = t :: r.tokens ∧ accept t = some a := by
  unfold Gives single
  cases hn : i.next? with
  | none =>
    rw [Input.next?_eq_none] at hn
    simp [hn]
  | some next =>
    obtain ⟨t, rest⟩ := next
    rw [Input.next?_eq_some] at hn
    dsimp only
    rw [hn]
    cases ha : accept t with
    | none =>
      constructor
      · rintro ⟨alt, h⟩
        cases h
      · rintro ⟨u, hu, h⟩
        obtain ⟨rfl, -⟩ := List.cons_eq_cons.mp hu
        rw [ha] at h
        cases h
    | some b =>
      constructor
      · rintro ⟨alt, h⟩
        cases h
        exact ⟨t, rfl, ha⟩
      · rintro ⟨u, hu, h⟩
        obtain ⟨rfl, hrest⟩ := List.cons_eq_cons.mp hu
        rw [ha] at h
        cases h
        rw [Input.ext hrest]
        exact ⟨none, rfl⟩

theorem gives_satisfy {accept : Token → Bool} {t : Token} :
    (satisfy accept).Gives i t r ↔ i.tokens = t :: r.tokens ∧ accept t = true := by
  unfold satisfy
  rw [gives_single]
  constructor
  · rintro ⟨u, hu, h⟩
    split at h
    · rename_i haccept
      cases h
      exact ⟨hu, haccept⟩
    · cases h
  · rintro ⟨h, haccept⟩
    exact ⟨t, h, if_pos haccept⟩

theorem gives_token {k : Kind} {t : Token} :
    (token k).Gives i t r ↔ i.tokens = t :: r.tokens ∧ t.kind = k := by
  unfold token
  rw [gives_satisfy, beq_iff_eq]

theorem gives_map {f : α → β} {b : β} :
    (p.map f).Gives i b r ↔ ∃ a, p.Gives i a r ∧ f a = b := by
  unfold Gives Parser.map
  cases p i with
  | failed e => simp
  | done a r' alt =>
    constructor
    · rintro ⟨alt', h⟩
      cases h
      exact ⟨a, ⟨alt, rfl⟩, rfl⟩
    · rintro ⟨a', ⟨alt', h⟩, rfl⟩
      cases h
      exact ⟨alt, rfl⟩

theorem fails_map {f : α → β} : (p.map f).Fails i ↔ p.Fails i := by
  unfold Fails Parser.map
  cases p i <;> simp

theorem gives_both {c : α × β} :
    (p.both q).Gives i c r ↔ ∃ m, p.Gives i c.1 m ∧ q.Gives m c.2 r := by
  obtain ⟨a, b⟩ := c
  unfold Gives Parser.both
  cases p i with
  | failed e => simp
  | done a' m alt =>
    dsimp only
    cases hq : q m with
    | failed e =>
      constructor
      · rintro ⟨alt', h⟩
        cases alt <;> cases h
      · rintro ⟨m', ⟨alt₁, h₁⟩, alt₂, h₂⟩
        cases h₁
        rw [hq] at h₂
        cases h₂
    | done b' r' alt' =>
      constructor
      · rintro ⟨alt'', h⟩
        cases h
        exact ⟨m, ⟨alt, rfl⟩, alt', hq⟩
      · rintro ⟨m', ⟨alt₁, h₁⟩, alt₂, h₂⟩
        cases h₁
        rw [hq] at h₂
        cases h₂
        exact ⟨_, rfl⟩

theorem fails_both :
    (p.both q).Fails i ↔ p.Fails i ∨ ∃ a m, p.Gives i a m ∧ q.Fails m := by
  unfold Gives Fails Parser.both
  cases p i with
  | failed e => simp
  | done a m alt =>
    dsimp only
    constructor
    · rintro ⟨e, h⟩
      refine .inr ⟨a, m, ⟨alt, rfl⟩, ?_⟩
      cases hq : q m with
      | failed e' => exact ⟨e', rfl⟩
      | done b r alt' =>
        rw [hq] at h
        cases h
    · rintro (⟨e, h⟩ | ⟨a', m', ⟨alt', h⟩, e, hq⟩)
      · cases h
      · cases h
        rw [hq]
        cases alt <;> exact ⟨_, rfl⟩

theorem gives_skip : (p.skip q).Gives i a r ↔ ∃ m b, p.Gives i a m ∧ q.Gives m b r := by
  unfold Parser.skip
  rw [gives_map]
  constructor
  · rintro ⟨⟨a', b⟩, h, rfl⟩
    obtain ⟨m, hp, hq⟩ := gives_both.mp h
    exact ⟨m, b, hp, hq⟩
  · rintro ⟨m, b, hp, hq⟩
    exact ⟨(a, b), gives_both.mpr ⟨m, hp, hq⟩, rfl⟩

theorem gives_before {b : β} :
    (p.before q).Gives i b r ↔ ∃ m a, p.Gives i a m ∧ q.Gives m b r := by
  unfold Parser.before
  rw [gives_map]
  constructor
  · rintro ⟨⟨a, b'⟩, h, rfl⟩
    obtain ⟨m, hp, hq⟩ := gives_both.mp h
    exact ⟨m, a, hp, hq⟩
  · rintro ⟨m, a, hp, hq⟩
    exact ⟨(a, b), gives_both.mpr ⟨m, hp, hq⟩, rfl⟩

theorem fails_before : (p.before q).Fails i ↔ p.Fails i ∨ ∃ a m, p.Gives i a m ∧ q.Fails m := by
  unfold Parser.before
  rw [fails_map, fails_both]

theorem gives_orElse {p' : Parser α} :
    (p.orElse p').Gives i a r ↔ p.Gives i a r ∨ p.Fails i ∧ p'.Gives i a r := by
  unfold Gives Fails Parser.orElse
  cases p i with
  | done b r' alt => simp
  | failed e =>
    dsimp only
    cases p' i <;> simp

theorem fails_orElse {p' : Parser α} : (p.orElse p').Fails i ↔ p.Fails i ∧ p'.Fails i := by
  unfold Fails Parser.orElse
  cases p i with
  | done b r' alt => simp
  | failed e =>
    dsimp only
    cases p' i <;> simp

theorem gives_optional {o : Option α} :
    p.optional.Gives i o r ↔ (∃ a, o = some a ∧ p.Gives i a r) ∨ o = none ∧ r = i ∧ p.Fails i := by
  unfold Gives Fails Parser.optional
  cases p i with
  | done b r' alt =>
    constructor
    · rintro ⟨alt', h⟩
      cases h
      exact .inl ⟨b, rfl, alt, rfl⟩
    · rintro (⟨a, rfl, alt', h⟩ | ⟨-, -, e, h⟩)
      · cases h
        exact ⟨alt, rfl⟩
      · cases h
  | failed e =>
    constructor
    · rintro ⟨alt', h⟩
      cases h
      exact .inr ⟨rfl, rfl, e, rfl⟩
    · rintro (⟨a, rfl, alt', h⟩ | ⟨rfl, rfl, -⟩)
      · cases h
      · exact ⟨_, rfl⟩

theorem gives_refine {f : α → Option β} {b : β} :
    (p.refine f).Gives i b r ↔ ∃ a, p.Gives i a r ∧ f a = some b := by
  unfold Gives Parser.refine
  cases p i with
  | failed e => simp
  | done a r' alt =>
    dsimp only
    cases hf : f a with
    | none =>
      constructor
      · rintro ⟨alt', h⟩
        cases h
      · rintro ⟨a', ⟨alt', h⟩, hb⟩
        cases h
        rw [hf] at hb
        cases hb
    | some b' =>
      constructor
      · rintro ⟨alt', h⟩
        cases h
        exact ⟨a, ⟨alt, rfl⟩, hf⟩
      · rintro ⟨a', ⟨alt', h⟩, hb⟩
        cases h
        rw [hf] at hb
        cases hb
        exact ⟨alt, rfl⟩

theorem fails_refine {f : α → Option β} :
    (p.refine f).Fails i ↔ p.Fails i ∨ ∃ a r, p.Gives i a r ∧ f a = none := by
  unfold Gives Fails Parser.refine
  cases p i with
  | failed e => simp
  | done a r alt =>
    dsimp only
    cases hf : f a with
    | none => simp [hf]
    | some b => simp [hf]

theorem gives_charged {name : String} : (p.charged name).Gives i a r ↔ p.Gives i a r := by
  unfold Gives Parser.charged
  cases p i with
  | failed e => simp
  | done b r' alt => simp

theorem fails_charged {name : String} : (p.charged name).Fails i ↔ p.Fails i := by
  unfold Fails Parser.charged
  cases p i <;> simp

theorem gives_atEnd {u : Unit} : atEnd.Gives i u r ↔ i.tokens = [] ∧ r = i := by
  unfold Gives atEnd
  cases hn : i.next? with
  | none =>
    rw [Input.next?_eq_none] at hn
    constructor
    · rintro ⟨alt, h⟩
      cases h
      exact ⟨hn, rfl⟩
    · rintro ⟨-, rfl⟩
      exact ⟨none, rfl⟩
  | some next =>
    obtain ⟨t, rest⟩ := next
    rw [Input.next?_eq_some] at hn
    simp [hn]

/-! ## Choices -/

theorem firstAfter_gives (alt alt' : Option Blame) (ps : List (Parser α)) :
    (firstAfter alt ps).Gives i a r ↔ (firstAfter alt' ps).Gives i a r := by
  induction ps generalizing alt alt' with
  | nil => simp [Gives, firstAfter]
  | cons p ps ih =>
    unfold Gives at ih ⊢
    rw [firstAfter, firstAfter]
    cases p i with
    | done b r' alt => exact Iff.rfl
    | failed e => exact ih _ _

theorem gives_firstOf_cons {ps : List (Parser α)} :
    (firstOf (p :: ps)).Gives i a r ↔ p.Gives i a r ∨ p.Fails i ∧ (firstOf ps).Gives i a r := by
  unfold firstOf
  unfold Gives Fails
  rw [firstAfter]
  cases p i with
  | done b r' alt => simp
  | failed e =>
    simp only [Outcome.failed.injEq, exists_eq', true_and, reduceCtorEq, exists_false, false_or]
    exact firstAfter_gives (i := i) (a := a) (r := r) (Blame.merge none (some e)) none ps

theorem not_gives_firstOf_nil : ¬ (firstOf ([] : List (Parser α))).Gives i a r := by
  rintro ⟨alt, h⟩
  cases h

end

/-! ## Repetitions -/

/-- One value after the other, until the parser fails or takes nothing. -/
inductive Repeats (p : Parser α) : Input → List α → Input → Prop
  | stop {i : Input} (h : p.Fails i) : Repeats p i [] i
  | more {i m r : Input} {a : α} {as : List α} (h : p.Gives i a m) (hlt : m.left < i.left)
      (hrest : Repeats p m as r) : Repeats p i (a :: as) r
  | idle {i m : Input} {a : α} (h : p.Gives i a m) (hlt : ¬ m.left < i.left) : Repeats p i [a] m

/-- Further items, each behind a separator. -/
inductive Continues (p : Parser α) (separator : Parser β) : Input → List α → Input → Prop
  | stop {i : Input} (h : separator.Fails i) : Continues p separator i [] i
  | back {i m : Input} {b : β} (h : separator.Gives i b m) (hitem : p.Fails m) :
      Continues p separator i [] i
  | more {i m n r : Input} {a : α} {b : β} {as : List α} (h : separator.Gives i b m)
      (hitem : p.Gives m a n) (hlt : n.left < i.left) (hrest : Continues p separator n as r) :
      Continues p separator i (a :: as) r
  | idle {i m n : Input} {a : α} {b : β} (h : separator.Gives i b m) (hitem : p.Gives m a n)
      (hlt : ¬ n.left < i.left) : Continues p separator i [a] n

section

variable {p : Parser α} {q : Parser β} {i r : Input} {a : α} {as : List α}

theorem exists_manyAfter (p : Parser α) (alt : Option Blame) (i : Input) :
    ∃ as r alt', p.manyAfter alt i = .done as r alt' ∧ Repeats p i as r := by
  fun_induction Parser.manyAfter p alt i with
  | case1 alt i e he => exact ⟨_, _, _, rfl, .stop ⟨e, he⟩⟩
  | case2 alt i a m alt₁ ha alt₂ hlt as r alt₃ hm ih =>
    obtain ⟨as', r', alt', heq, hrest⟩ := ih
    rw [hm] at heq
    cases heq
    exact ⟨_, _, _, rfl, .more ⟨alt₁, ha⟩ hlt hrest⟩
  | case3 alt i a m alt₁ ha alt₂ hlt e he ih =>
    obtain ⟨as', r', alt', heq, hrest⟩ := ih
    rw [he] at heq
    cases heq
  | case4 alt i a m alt₁ ha alt₂ hlt => exact ⟨_, _, _, rfl, .idle ⟨alt₁, ha⟩ hlt⟩

theorem Repeats.unique {as' : List α} {r' : Input} (h : Repeats p i as r) (h' : Repeats p i as' r') :
    as = as' ∧ r = r' := by
  induction h generalizing as' r' with
  | stop hfails =>
    cases h' with
    | stop h' => exact ⟨rfl, rfl⟩
    | more h' => exact absurd hfails h'.not_fails
    | idle h' => exact absurd hfails h'.not_fails
  | more hgives hlt hrest ih =>
    cases h' with
    | stop h' => exact absurd h' hgives.not_fails
    | more h' hlt' hrest' =>
      obtain ⟨rfl, rfl⟩ := hgives.unique h'
      obtain ⟨rfl, rfl⟩ := ih hrest'
      exact ⟨rfl, rfl⟩
    | idle h' hlt' =>
      obtain ⟨rfl, rfl⟩ := hgives.unique h'
      exact absurd hlt hlt'
  | idle hgives hlt =>
    cases h' with
    | stop h' => exact absurd h' hgives.not_fails
    | more h' hlt' =>
      obtain ⟨rfl, rfl⟩ := hgives.unique h'
      exact absurd hlt' hlt
    | idle h' =>
      obtain ⟨rfl, rfl⟩ := hgives.unique h'
      exact ⟨rfl, rfl⟩

theorem gives_many : p.many.Gives i as r ↔ Repeats p i as r := by
  obtain ⟨as', r', alt', heq, hrepeats⟩ := exists_manyAfter p none i
  unfold Gives many
  rw [heq]
  constructor
  · rintro ⟨alt, h⟩
    cases h
    exact hrepeats
  · intro h
    obtain ⟨rfl, rfl⟩ := hrepeats.unique h
    exact ⟨alt', rfl⟩

theorem gives_many1 :
    p.many1.Gives i as r ↔ ∃ a m as', p.Gives i a m ∧ Repeats p m as' r ∧ as = a :: as' := by
  unfold Gives many1
  cases p i with
  | failed e => simp
  | done a m alt =>
    dsimp only
    obtain ⟨as', r', alt', heq, hrepeats⟩ := exists_manyAfter p alt m
    rw [heq]
    constructor
    · rintro ⟨alt'', h⟩
      cases h
      exact ⟨a, m, as', ⟨alt, rfl⟩, hrepeats, rfl⟩
    · rintro ⟨a', m', as'', ⟨alt'', h⟩, h', rfl⟩
      cases h
      obtain ⟨rfl, rfl⟩ := hrepeats.unique h'
      exact ⟨alt', rfl⟩

theorem fails_many1 : p.many1.Fails i ↔ p.Fails i := by
  unfold Fails many1
  cases p i with
  | failed e => simp
  | done a m alt =>
    obtain ⟨as', r', alt', heq, -⟩ := exists_manyAfter p alt m
    simp [heq]

theorem exists_itemsAfter (p : Parser α) (q : Parser β) (alt : Option Blame) (i : Input) :
    ∃ as r alt' ended, p.itemsAfter q alt i = (as, r, alt', ended) ∧ Continues p q i as r := by
  fun_induction Parser.itemsAfter p q alt i with
  | case1 alt i e he => exact ⟨_, _, _, _, rfl, .stop ⟨e, he⟩⟩
  | case2 alt i b m alt₁ hs alt₂ e he => exact ⟨_, _, _, _, rfl, .back ⟨alt₁, hs⟩ ⟨e, he⟩⟩
  | case3 alt i b m alt₁ hs alt₂ a n alt₃ ha alt₄ hlt as r alt₅ ended hi ih =>
    obtain ⟨as', r', alt', ended', heq, hrest⟩ := ih
    rw [hi] at heq
    cases heq
    exact ⟨_, _, _, _, rfl, .more ⟨alt₁, hs⟩ ⟨alt₃, ha⟩ hlt hrest⟩
  | case4 alt i b m alt₁ hs alt₂ a n alt₃ ha alt₄ hlt =>
    exact ⟨_, _, _, _, rfl, .idle ⟨alt₁, hs⟩ ⟨alt₃, ha⟩ hlt⟩

theorem Continues.unique {as' : List α} {r' : Input} (h : Continues p q i as r)
    (h' : Continues p q i as' r') : as = as' ∧ r = r' := by
  induction h generalizing as' r' with
  | stop hfails =>
    cases h' with
    | stop h' => exact ⟨rfl, rfl⟩
    | back h' => exact absurd hfails h'.not_fails
    | more h' => exact absurd hfails h'.not_fails
    | idle h' => exact absurd hfails h'.not_fails
  | back hgives hfails =>
    cases h' with
    | stop h' => exact ⟨rfl, rfl⟩
    | back h' => exact ⟨rfl, rfl⟩
    | more h' hitem' =>
      obtain ⟨-, rfl⟩ := hgives.unique h'
      exact absurd hfails hitem'.not_fails
    | idle h' hitem' =>
      obtain ⟨-, rfl⟩ := hgives.unique h'
      exact absurd hfails hitem'.not_fails
  | more hgives hitem hlt hrest ih =>
    cases h' with
    | stop h' => exact absurd h' hgives.not_fails
    | back h' hitem' =>
      obtain ⟨-, rfl⟩ := hgives.unique h'
      exact absurd hitem' hitem.not_fails
    | more h' hitem' hlt' hrest' =>
      obtain ⟨-, rfl⟩ := hgives.unique h'
      obtain ⟨rfl, rfl⟩ := hitem.unique hitem'
      obtain ⟨rfl, rfl⟩ := ih hrest'
      exact ⟨rfl, rfl⟩
    | idle h' hitem' hlt' =>
      obtain ⟨-, rfl⟩ := hgives.unique h'
      obtain ⟨rfl, rfl⟩ := hitem.unique hitem'
      exact absurd hlt hlt'
  | idle hgives hitem hlt =>
    cases h' with
    | stop h' => exact absurd h' hgives.not_fails
    | back h' hitem' =>
      obtain ⟨-, rfl⟩ := hgives.unique h'
      exact absurd hitem' hitem.not_fails
    | more h' hitem' hlt' =>
      obtain ⟨-, rfl⟩ := hgives.unique h'
      obtain ⟨rfl, rfl⟩ := hitem.unique hitem'
      exact absurd hlt' hlt
    | idle h' hitem' =>
      obtain ⟨-, rfl⟩ := hgives.unique h'
      obtain ⟨rfl, rfl⟩ := hitem.unique hitem'
      exact ⟨rfl, rfl⟩

/-- Behind the last item a separator may stand. -/
theorem gives_separated : (p.separated q).Gives i as r ↔
    as = [] ∧ r = i ∧ p.Fails i ∨ ∃ a m as' n, as = a :: as' ∧ p.Gives i a m ∧
      Continues p q m as' n ∧ ((∃ b, q.Gives n b r) ∨ q.Fails n ∧ r = n) := by
  unfold Gives Fails separated
  cases p i with
  | failed e =>
    constructor
    · rintro ⟨alt, h⟩
      cases h
      exact .inl ⟨rfl, rfl, e, rfl⟩
    · rintro (⟨rfl, rfl, -⟩ | ⟨a, m, as', n, -, ⟨alt, h⟩, -⟩)
      · exact ⟨_, rfl⟩
      · cases h
  | done a m alt =>
    obtain ⟨as', n, alt', ended, heq, hrest⟩ := exists_itemsAfter p q alt m
    dsimp only
    rw [heq]
    dsimp only
    constructor
    · rintro ⟨alt'', h⟩
      refine .inr ⟨a, m, as', n, ?_, ⟨alt, rfl⟩, hrest, ?_⟩
      · cases hq : q n <;> rw [hq] at h <;> cases h <;> rfl
      · cases hq : q n with
        | failed e =>
          rw [hq] at h
          cases h
          exact .inr ⟨⟨e, rfl⟩, rfl⟩
        | done b r' alt₃ =>
          rw [hq] at h
          cases h
          exact .inl ⟨b, alt₃, rfl⟩
    · rintro (⟨-, -, e, h⟩ | ⟨a', m', as'', n', rfl, ⟨alt₂, h⟩, hrest', hend⟩)
      · cases h
      · cases h
        obtain ⟨rfl, rfl⟩ := hrest.unique hrest'
        rcases hend with ⟨b, alt₃, hq⟩ | ⟨⟨e, hq⟩, rfl⟩
        · rw [hq]
          exact ⟨_, rfl⟩
        · rw [hq]
          exact ⟨_, rfl⟩

/-- Tokens are passed over until the parser succeeds. -/
inductive Passes (p : Parser α) : Input → α → Input → Prop
  | here {i r : Input} {a : α} (h : p.Gives i a r) : Passes p i a r
  | further {i m r : Input} {t : Token} {a : α} (h : p.Fails i) (ht : i.tokens = t :: m.tokens)
      (hrest : Passes p m a r) : Passes p i a r

theorem gives_throughAfter (alt : Option Blame) (i : Input) :
    (∃ alt', throughAfter p alt i = .done a r alt') ↔ Passes p i a r := by
  fun_induction Parser.throughAfter p alt i with
  | case1 alt i b m alt' h =>
    constructor
    · rintro ⟨alt'', heq⟩
      cases heq
      exact .here ⟨alt', h⟩
    · intro hpasses
      cases hpasses with
      | here h' =>
        obtain ⟨rfl, rfl⟩ := h'.unique ⟨alt', h⟩
        exact ⟨_, rfl⟩
      | further h' => exact absurd h' (Gives.not_fails ⟨alt', h⟩)
  | case2 alt i e h hnone =>
    rw [Input.next?_eq_none] at hnone
    constructor
    · rintro ⟨alt'', heq⟩
      cases heq
    · intro hpasses
      cases hpasses with
      | here h' => exact absurd ⟨e, h⟩ h'.not_fails
      | further _ ht =>
        rw [hnone] at ht
        cases ht
  | case3 alt i e h t m hsome ih =>
    rw [Input.next?_eq_some] at hsome
    rw [ih]
    constructor
    · exact .further ⟨e, h⟩ hsome
    · intro hpasses
      cases hpasses with
      | here h' => exact absurd ⟨e, h⟩ h'.not_fails
      | further _ ht hrest =>
        rw [hsome] at ht
        obtain ⟨-, htokens⟩ := List.cons_eq_cons.mp ht
        rw [Input.ext htokens]
        exact hrest

theorem gives_through : (through p).Gives i a r ↔ Passes p i a r := gives_throughAfter none i

end

end Parser

end MarkupTrace.Source.Grammar
