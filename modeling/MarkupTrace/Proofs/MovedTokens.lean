import MarkupTrace.Proofs.MixedEndings
import MarkupTrace.Proofs.ReadElements
import MarkupTrace.Proofs.Recasting

/-!
# Reading a text with other line endings

From tokens with single line feeds, moved to where these stand, every parser does what it does with the
tokens as they were: it fails on both, or gives values of which one is the other recast.
-/

namespace MarkupTrace.Source.Grammar

open Text Grammar.Parser

namespace Input

def moved (n : Nat → Nat) (i : Input) : Input := .ofTokens (i.tokens.map (Token.moved n))

def Regular (i : Input) : Prop := ∀ t ∈ i.tokens, t.Regular

@[simp] theorem left_moved (n : Nat → Nat) (i : Input) : (i.moved n).left = i.left := by
  rw [(i.moved n).left_eq, i.left_eq]
  exact List.length_map _

theorem next?_moved (n : Nat → Nat) (i : Input) :
    (i.moved n).next? = i.next?.map fun (t, r) => (t.moved n, r.moved n) := by
  cases h : i.next? with
  | none =>
    rw [next?_eq_none] at h
    rw [Option.map_none, next?_eq_none, moved, h]
    rfl
  | some next =>
    obtain ⟨t, r⟩ := next
    rw [next?_eq_some] at h
    rw [Option.map_some, next?_eq_some, moved, h]
    rfl

theorem Regular.next {i r : Input} {t : Token} (hi : i.Regular) (h : i.next? = some (t, r)) :
    t.Regular ∧ r.Regular := by
  unfold Regular at hi
  rw [next?_eq_some.mp h, List.forall_mem_cons] at hi
  exact hi

end Input

namespace Parser

variable {n : Nat → Nat} {α β : Type}

/-- Both parsers failed, or both gave values, which are related, and what is left is the same, moved. -/
inductive Alike (n : Nat → Nat) (R : α → α → Prop) : Outcome α → Outcome α → Prop
  | done {b a : α} {r : Input} {alt alt' : Option Blame} (h : R b a) (hr : r.Regular) :
      Alike n R (.done b (r.moved n) alt') (.done a r alt)
  | failed {e e' : Blame} : Alike n R (.failed e') (.failed e)

/-- On moved tokens the parser gives related values. -/
def Keeps (n : Nat → Nat) (R : α → α → Prop) (p : Parser α) : Prop :=
  ∀ i : Input, i.Regular → Alike n R (p (i.moved n)) (p i)

/-! ## Combinators -/

namespace Keeps

variable {R : α → α → Prop} {S : β → β → Prop} {p p' : Parser α} {q : Parser β}

theorem single {accept : Token → Option α}
    (h : ∀ t, t.Regular → Option.Rel R (accept (t.moved n)) (accept t)) :
    Keeps n R (single accept) := by
  intro i hi
  unfold Parser.single
  rw [Input.next?_moved]
  cases hn : i.next? with
  | none => exact .failed
  | some next =>
    obtain ⟨t, r⟩ := next
    obtain ⟨ht, hr⟩ := hi.next hn
    have haccept := h t ht
    dsimp only [Option.map_some]
    generalize accept (t.moved n) = x at haccept ⊢
    generalize accept t = y at haccept ⊢
    cases haccept with
    | none => exact .failed
    | some hab => exact .done hab hr

theorem map (hp : Keeps n R p) {f : α → β} (hf : ∀ b a, R b a → S (f b) (f a)) :
    Keeps n S (p.map f) := by
  intro i hi
  have h := hp i hi
  unfold Parser.map
  generalize p (i.moved n) = x at h ⊢
  generalize p i = y at h ⊢
  cases h with
  | done hab hr => exact .done (hf _ _ hab) hr
  | failed => exact .failed

theorem both (hp : Keeps n R p) (hq : Keeps n S q) :
    Keeps n (fun y x => R y.1 x.1 ∧ S y.2 x.2) (p.both q) := by
  intro i hi
  have h := hp i hi
  unfold Parser.both
  generalize p (i.moved n) = x at h ⊢
  generalize p i = y at h ⊢
  cases h with
  | failed => exact .failed
  | @done b a r alt alt' hab hr =>
    have h' := hq r hr
    dsimp only
    generalize q (r.moved n) = x at h' ⊢
    generalize q r = y at h' ⊢
    cases h' with
    | failed => cases alt <;> cases alt' <;> exact .failed
    | done hcd hr' => exact .done ⟨hab, hcd⟩ hr'

theorem skip (hp : Keeps n R p) (hq : Keeps n S q) : Keeps n R (p.skip q) :=
  (hp.both hq).map fun _ _ h => h.1

theorem before (hp : Keeps n R p) (hq : Keeps n S q) : Keeps n S (p.before q) :=
  (hp.both hq).map fun _ _ h => h.2

theorem orElse (hp : Keeps n R p) (hp' : Keeps n R p') : Keeps n R (p.orElse p') := by
  intro i hi
  have h := hp i hi
  have h' := hp' i hi
  unfold Parser.orElse
  generalize p (i.moved n) = x at h ⊢
  generalize p i = y at h ⊢
  cases h with
  | done hab hr => exact .done hab hr
  | failed =>
    dsimp only
    generalize p' (i.moved n) = x at h' ⊢
    generalize p' i = y at h' ⊢
    cases h' with
    | done hab hr => exact .done hab hr
    | failed => exact .failed

theorem firstOf {ps : List (Parser α)} (h : ∀ p ∈ ps, Keeps n R p) : Keeps n R (firstOf ps) := by
  suffices ∀ alt alt' i, i.Regular →
      Alike n R (firstAfter alt ps (i.moved n)) (firstAfter alt' ps i) from this none none
  induction ps with
  | nil => exact fun _ _ _ _ => .failed
  | cons p ps ih =>
    rw [List.forall_mem_cons] at h
    intro alt alt' i hi
    have hp := h.1 i hi
    rw [firstAfter, firstAfter]
    generalize p (i.moved n) = x at hp ⊢
    generalize p i = y at hp ⊢
    cases hp with
    | done hab hr => exact .done hab hr
    | failed => exact ih h.2 _ _ i hi

theorem optional (hp : Keeps n R p) : Keeps n (Option.Rel R) p.optional := by
  intro i hi
  have h := hp i hi
  unfold Parser.optional
  generalize p (i.moved n) = x at h ⊢
  generalize p i = y at h ⊢
  cases h with
  | done hab hr => exact .done (.some hab) hr
  | failed => exact .done .none hi

theorem manyAfter (hp : Keeps n R p) (alt alt' : Option Blame) {i : Input} (hi : i.Regular) :
    Alike n (List.Forall₂ R) (p.manyAfter alt (i.moved n)) (p.manyAfter alt' i) := by
  induction hleft : i.left using Nat.strongRecOn generalizing alt alt' i with
  | ind left ih =>
    have h := hp i hi
    rw [Parser.manyAfter, Parser.manyAfter.eq_def p alt' i, Input.left_moved]
    generalize p (i.moved n) = x at h ⊢
    generalize p i = y at h ⊢
    cases h with
    | failed => exact .done .nil hi
    | @done b a r alt₁' alt₁ hab hr =>
      dsimp only
      rw [Input.left_moved]
      split
      · rename_i hlt
        have hrest := ih r.left (hleft ▸ hlt) (Blame.merge alt alt₁) (Blame.merge alt' alt₁') hr rfl
        generalize p.manyAfter (Blame.merge alt alt₁) (r.moved n) = x at hrest ⊢
        generalize p.manyAfter (Blame.merge alt' alt₁') r = y at hrest ⊢
        cases hrest with
        | done hall hr' => exact .done (.cons hab hall) hr'
        | failed => exact .failed
      · exact .done (.cons hab .nil) hr

theorem many (hp : Keeps n R p) : Keeps n (List.Forall₂ R) p.many := fun _ hi =>
  hp.manyAfter none none hi

theorem many1 (hp : Keeps n R p) :
    Keeps n (fun bs as => List.Forall₂ R bs as ∧ as ≠ []) p.many1 := by
  intro i hi
  have h := hp i hi
  unfold Parser.many1
  generalize p (i.moved n) = x at h ⊢
  generalize p i = y at h ⊢
  cases h with
  | failed => exact .failed
  | @done b a r alt' alt hab hr =>
    have hrest := hp.manyAfter alt alt' hr
    dsimp only
    generalize p.manyAfter alt (r.moved n) = x at hrest ⊢
    generalize p.manyAfter alt' r = y at hrest ⊢
    cases hrest with
    | done hall hr' => exact .done ⟨.cons hab hall, nofun⟩ hr'
    | failed => exact .failed

theorem itemsAfter (hp : Keeps n R p) (hq : Keeps n S q) (alt alt' : Option Blame) {i : Input}
    (hi : i.Regular) : ∃ bs as r alt₁ alt₁' ended ended',
      p.itemsAfter q alt (i.moved n) = (bs, r.moved n, alt₁, ended) ∧
      p.itemsAfter q alt' i = (as, r, alt₁', ended') ∧ List.Forall₂ R bs as ∧ r.Regular := by
  induction hleft : i.left using Nat.strongRecOn generalizing alt alt' i with
  | ind left ih =>
    have h := hq i hi
    rw [Parser.itemsAfter, Parser.itemsAfter.eq_def p q alt' i, Input.left_moved]
    generalize q (i.moved n) = x at h ⊢
    generalize q i = y at h ⊢
    cases h with
    | failed => exact ⟨_, _, i, _, _, _, _, rfl, rfl, .nil, hi⟩
    | @done d c m alt₁' alt₁ hdc hm =>
      have hitem := hp m hm
      dsimp only
      generalize p (m.moved n) = x at hitem ⊢
      generalize p m = y at hitem ⊢
      cases hitem with
      | failed => exact ⟨_, _, i, _, _, _, _, rfl, rfl, .nil, hi⟩
      | @done b a r alt₂' alt₂ hab hr =>
        dsimp only
        rw [Input.left_moved]
        split
        · rename_i hlt
          obtain ⟨bs, as, r', alt₃, alt₃', ended, ended', hmoved, hrest, hall, hr'⟩ :=
            ih r.left (hleft ▸ hlt) (Blame.merge (Blame.merge alt alt₁) alt₂)
              (Blame.merge (Blame.merge alt' alt₁') alt₂') hr rfl
          rw [hmoved, hrest]
          exact ⟨_, _, r', _, _, _, _, rfl, rfl, .cons hab hall, hr'⟩
        · exact ⟨_, _, r, _, _, _, _, rfl, rfl, .cons hab .nil, hr⟩

theorem separated (hp : Keeps n R p) (hq : Keeps n S q) :
    Keeps n (List.Forall₂ R) (p.separated q) := by
  intro i hi
  have h := hp i hi
  unfold Parser.separated
  generalize p (i.moved n) = x at h ⊢
  generalize p i = y at h ⊢
  cases h with
  | failed => exact .done .nil hi
  | @done b a m alt' alt hab hm =>
    obtain ⟨bs, as, r, alt₁, alt₁', ended, ended', hmoved, hrest, hall, hr⟩ :=
      hp.itemsAfter hq alt alt' hm
    dsimp only
    rw [hmoved, hrest]
    have hlast := hq r hr
    dsimp only
    generalize q (r.moved n) = x at hlast ⊢
    generalize q r = y at hlast ⊢
    cases hlast with
    | failed => exact .done (.cons hab hall) hr
    | done hcd hr' => exact .done (.cons hab hall) hr'

theorem throughAfter (hp : Keeps n R p) (alt alt' : Option Blame) {i : Input} (hi : i.Regular) :
    Alike n R (throughAfter p alt (i.moved n)) (throughAfter p alt' i) := by
  induction hleft : i.left using Nat.strongRecOn generalizing alt alt' i with
  | ind left ih =>
    have h := hp i hi
    rw [Parser.throughAfter, Parser.throughAfter.eq_def p alt' i]
    generalize p (i.moved n) = x at h ⊢
    generalize p i = y at h ⊢
    cases h with
    | done hab hr => exact .done hab hr
    | failed =>
      have hmoved := Input.next?_moved n i
      dsimp only
      split
      · rename_i hnone
        rw [hnone] at hmoved
        split
        · exact .failed
        · rename_i hsome
          rw [hsome] at hmoved
          cases hmoved
      · rename_i hsome
        rw [hsome] at hmoved
        split
        · rename_i hnone
          rw [hnone] at hmoved
          cases hmoved
        · rename_i hsome'
          rw [hsome'] at hmoved
          cases hmoved
          have hlt := Input.left_lt_of_next? hsome'
          exact ih _ (hleft ▸ hlt) _ _ (hi.next hsome').2 rfl

theorem through (hp : Keeps n R p) : Keeps n R (through p) := fun _ hi =>
  hp.throughAfter none none hi

theorem refine (hp : Keeps n R p) {f : α → Option β}
    (hf : ∀ b a, R b a → Option.Rel S (f b) (f a)) : Keeps n S (p.refine f) := by
  intro i hi
  have h := hp i hi
  unfold Parser.refine
  generalize p (i.moved n) = x at h ⊢
  generalize p i = y at h ⊢
  cases h with
  | failed => exact .failed
  | @done b a r alt' alt hab hr =>
    have hboth := hf b a hab
    dsimp only
    generalize f b = x at hboth ⊢
    generalize f a = y at hboth ⊢
    cases hboth with
    | none => exact .failed
    | some h => exact .done h hr

theorem charged (hp : Keeps n R p) (name : String) : Keeps n R (p.charged name) := by
  intro i hi
  have h := hp i hi
  unfold Parser.charged
  generalize p (i.moved n) = x at h ⊢
  generalize p i = y at h ⊢
  cases h with
  | done hab hr => exact .done hab hr
  | failed => exact .failed

theorem atEnd : Keeps n (fun _ _ => True) atEnd := by
  intro i hi
  unfold Parser.atEnd
  rw [Input.next?_moved]
  cases i.next? with
  | none => exact .done trivial hi
  | some next => exact .failed

/-- A rule for the parser itself, which is used inside only where fewer tokens are left. -/
theorem recursive {body : Parser α → Parser α} (h : ∀ p, Keeps n R p → Keeps n R (body p)) :
    Keeps n R (recursive body) := by
  have hbelow : ∀ k, Keeps n R (below k (Parser.recursive body)) := by
    intro k
    induction k using Nat.strongRecOn with
    | ind k ih =>
      intro i hi
      unfold below
      rw [Input.left_moved]
      split
      · rename_i hlt
        rw [recursive_apply, recursive_apply, Input.left_moved]
        exact h _ (ih i.left hlt) i hi
      · exact .failed
  intro i hi
  rw [recursive_apply, recursive_apply, Input.left_moved]
  exact h _ (hbelow i.left) i hi

theorem mono {T : α → α → Prop} (hp : Keeps n R p) (h : ∀ b a, R b a → T b a) : Keeps n T p := by
  intro i hi
  have hi := hp i hi
  generalize p (i.moved n) = x at hi ⊢
  generalize p i = y at hi ⊢
  cases hi with
  | done hab hr => exact .done (h _ _ hab) hr
  | failed => exact .failed

end Keeps

end Parser

end MarkupTrace.Source.Grammar
