import MarkupTrace.Proofs.TiledElements

/-!
# Where failures are placed

Of all failures met on the way one is reported, and which one depends on the whole text. But whichever
it is: it is at an end of the tokens, over the first token there, and over none only where no token is
left. There is one exception. A closing tag with another name than the opening one is refused after it
was read, over no token, whatever stands behind it.
-/

namespace MarkupTrace.Source

open Text

namespace Grammar

open Grammar.Parser

/-- An opening tag and children are read here, and then a closing tag of another name. -/
inductive ClosesWrongly (i r : Input) : Prop
  | intro {m n k : Input} {first greater last : Token} {name other : String}
      {attributes : List Attribute} {cs : List Child}
      (head : tagHead.Gives i ((first, name), attributes) m)
      (opened : (mark .greater).Gives m greater n)
      (children : Repeats (child expression (element expression)) n cs k)
      (closing : closingTag.Gives k (other, last) r) (wrong : other ≠ name)

/-- A wrong closing tag ends right before these tokens. -/
def WrongBefore (ts us : List Token) : Prop :=
  ∃ i r : Input, i.tokens <:+ ts ∧ ClosesWrongly i r ∧ r.tokens = us

namespace Blame

/-- The failure is at an end of the tokens. What it found is the first token there, or nothing behind a
wrong closing tag. -/
def Placed (ts : List Token) (b : Blame) : Prop :=
  ∃ us, us <:+ ts ∧ b.left = us.length ∧
    (b.found = us.head? ∨ b.found = none ∧ WrongBefore ts us)

variable {ts ts' : List Token} {a b : Blame}

theorem Placed.mono (h : b.Placed ts) (hts : ts <:+ ts') : b.Placed ts' := by
  obtain ⟨us, hus, hleft, hfound⟩ := h
  refine ⟨us, hus.trans hts, hleft, hfound.imp_right fun ⟨hnone, i, r, hi, hwrong⟩ => ?_⟩
  exact ⟨hnone, i, r, hi.trans hts, hwrong⟩

theorem placed_none (ts : List Token) : ∀ b ∈ (none : Option Blame), b.Placed ts := by
  intro b hb
  cases hb

theorem placed_some (h : b.Placed ts) : ∀ c ∈ some b, c.Placed ts := by
  intro c hc
  cases hc
  exact h

theorem placed_here (i : Input) : (here i).Placed i.tokens :=
  ⟨i.tokens, List.suffix_refl _, i.left_eq, .inl rfl⟩

/-- What a failure is charged to plays no part. -/
theorem Placed.charge (h : b.Placed ts) (c : Charge) : { b with charge := c }.Placed ts := h

theorem Placed.furthest (ha : a.Placed ts) (hb : b.Placed ts) : (a.furthest b).Placed ts := by
  unfold Blame.furthest
  split
  · exact ha
  · split
    · exact hb
    · exact ha.charge _

theorem placed_merge {x y : Option Blame} (hx : ∀ b ∈ x, b.Placed ts) (hy : ∀ b ∈ y, b.Placed ts) :
    ∀ b ∈ merge x y, b.Placed ts := by
  cases x with
  | none => exact hy
  | some a =>
    cases y with
    | none => exact hx
    | some b =>
      rintro c ⟨⟩
      exact (hy b rfl).furthest (hx a rfl)

end Blame

/-- All failures that the outcome knows of are placed. -/
def Outcome.Placed {α : Type} (ts : List Token) : Outcome α → Prop
  | .done _ _ alt => ∀ b ∈ alt, b.Placed ts
  | .failed b => b.Placed ts

theorem Outcome.Placed.mono {α : Type} {ts ts' : List Token} {o : Outcome α} (h : o.Placed ts)
    (hts : ts <:+ ts') : o.Placed ts' := by
  cases o with
  | done a r alt => exact fun b hb => (h b hb).mono hts
  | failed b => exact Blame.Placed.mono h hts

/-- Where fewer than `n` tokens are left, all failures that the parser knows of are placed. -/
def Parser.Places {α : Type} (n : Nat) (p : Parser α) : Prop :=
  ∀ i : Input, i.left < n → (p i).Placed i.tokens

namespace Parser.Places

variable {α β : Type} {n : Nat} {p p' : Parser α} {q : Parser β}

theorem mono {k : Nat} (h : Places n p) (hk : k ≤ n) : Places k p :=
  fun i hi => h i (Nat.lt_of_lt_of_le hi hk)

section

variable (hp : Places n p) {ts : List Token} {i : Input} (hi : i.left < n) (hts : i.tokens <:+ ts)
include hp hi hts

theorem failed {b : Blame} (h : p i = .failed b) : b.Placed ts := by
  have hplaced := (hp i hi).mono hts
  rwa [h] at hplaced

theorem done {a : α} {r : Input} {alt : Option Blame} (h : p i = .done a r alt) :
    ∀ b ∈ alt, b.Placed ts := by
  have hplaced := (hp i hi).mono hts
  rwa [h] at hplaced

omit hp in
/-- What is left behind a success. -/
theorem behind [Leaves p] {a : α} {r : Input} {alt : Option Blame} (h : p i = .done a r alt) :
    r.left < n ∧ r.tokens <:+ ts := by
  have hgives : p.Gives i a r := ⟨alt, h⟩
  exact ⟨Nat.lt_of_le_of_lt (Leaves.left_le hgives) hi, (Leaves.suffix hgives).trans hts⟩

end

theorem single (accept : Token → Option α) : Places n (Parser.single accept) := by
  intro i _
  unfold Parser.single
  split
  · exact Blame.placed_here i
  · split
    · exact Blame.placed_none _
    · exact Blame.placed_here i

theorem satisfy (accept : Token → Bool) : Places n (Parser.satisfy accept) := single _

theorem map (hp : Places n p) (f : α → β) : Places n (p.map f) := by
  intro i hi
  unfold Parser.map
  cases hout : p i with
  | done a r alt => exact hp.done hi (List.suffix_refl _) hout
  | failed b => exact hp.failed hi (List.suffix_refl _) hout

theorem both_of_le [Leaves p] {k : Nat} (hp : Places n p) (hq : Places k q)
    (hleft : ∀ i a r, i.left < n → p.Gives i a r → r.left < k) : Places n (p.both q) := by
  intro i hi
  unfold Parser.both
  cases hout : p i with
  | failed b => exact hp.failed hi (List.suffix_refl _) hout
  | done a r alt =>
    have halt := hp.done hi (List.suffix_refl _) hout
    have hgives : p.Gives i a r := ⟨alt, hout⟩
    have hr := hleft i a r hi hgives
    have hsuffix := Leaves.suffix hgives
    dsimp only
    cases hout' : q r with
    | done b r' alt' => exact Blame.placed_merge halt (hq.done hr hsuffix hout')
    | failed b =>
      -- what `p` met on the way may have got further than `q` did
      have hb := hq.failed hr hsuffix hout'
      cases alt with
      | none => exact hb
      | some earlier => exact hb.furthest (halt earlier rfl)

theorem both [Leaves p] (hp : Places n p) (hq : Places n q) : Places n (p.both q) :=
  hp.both_of_le hq fun _ _ _ hi ha => Nat.lt_of_le_of_lt (Leaves.left_le ha) hi

/-- Behind a token fewer are left. -/
theorem both_advances [Leaves p] [Advances p] (hp : Places (n + 1) p) (hq : Places n q) :
    Places (n + 1) (p.both q) :=
  hp.both_of_le hq fun _ _ _ hi ha =>
    Nat.lt_of_lt_of_le (Advances.left_lt ha) (Nat.le_of_lt_succ hi)

theorem skip [Leaves p] (hp : Places n p) (hq : Places n q) : Places n (p.skip q) :=
  (hp.both hq).map _

theorem before [Leaves p] (hp : Places n p) (hq : Places n q) : Places n (p.before q) :=
  (hp.both hq).map _

theorem before_advances [Leaves p] [Advances p] (hp : Places (n + 1) p) (hq : Places n q) :
    Places (n + 1) (p.before q) :=
  (hp.both_advances hq).map _

theorem orElse (hp : Places n p) (hp' : Places n p') : Places n (p.orElse p') := by
  intro i hi
  unfold Parser.orElse
  cases hout : p i with
  | done a r alt => exact hp.done hi (List.suffix_refl _) hout
  | failed b =>
    have hb := hp.failed hi (List.suffix_refl _) hout
    dsimp only
    cases hout' : p' i with
    | done a r alt => exact hp'.done hi (List.suffix_refl _) hout'
    | failed c => exact hb.furthest (hp'.failed hi (List.suffix_refl _) hout')

theorem firstAfter {ps : List (Parser α)} (h : ∀ p ∈ ps, Places n p) {alt : Option Blame}
    {i : Input} (halt : ∀ b ∈ alt, b.Placed i.tokens) (hi : i.left < n) :
    (Parser.firstAfter alt ps i).Placed i.tokens := by
  induction ps generalizing alt with
  | nil =>
    cases alt with
    | none => exact Blame.placed_here i
    | some b => exact halt b rfl
  | cons p ps ih =>
    have hp := h p List.mem_cons_self
    rw [Parser.firstAfter]
    cases hout : p i with
    | done a r alt' => exact hp.done hi (List.suffix_refl _) hout
    | failed b =>
      have hb := hp.failed hi (List.suffix_refl _) hout
      exact ih (fun p hp => h p (List.mem_cons_of_mem _ hp))
        (Blame.placed_merge halt (Blame.placed_some hb))

theorem firstOf {ps : List (Parser α)} (h : ∀ p ∈ ps, Places n p) : Places n (firstOf ps) :=
  fun _ hi => firstAfter h (Blame.placed_none _) hi

theorem optional (hp : Places n p) : Places n p.optional := by
  intro i hi
  unfold Parser.optional
  cases hout : p i with
  | done a r alt => exact hp.done hi (List.suffix_refl _) hout
  | failed b => exact Blame.placed_some (hp.failed hi (List.suffix_refl _) hout)

/-- The alternative gathers the failures of all items, so they are placed in the tokens at the start. -/
theorem manyAfter [Leaves p] (hp : Places n p) {ts : List Token} {alt : Option Blame}
    (halt : ∀ b ∈ alt, b.Placed ts) {i : Input} (hi : i.left < n) (hts : i.tokens <:+ ts) :
    (p.manyAfter alt i).Placed ts := by
  fun_induction Parser.manyAfter p alt i with
  | case1 alt i b hout =>
    exact Blame.placed_merge halt (Blame.placed_some (hp.failed hi hts hout))
  | case2 alt i a m alt₁ hout alt₂ hlt as r alt₃ hrest ih =>
    obtain ⟨hm, hmts⟩ := behind hi hts hout
    have hall := ih (Blame.placed_merge halt (hp.done hi hts hout)) hm hmts
    rwa [hrest] at hall
  | case3 alt i a m alt₁ hout alt₂ hlt b hrest ih =>
    obtain ⟨hm, hmts⟩ := behind hi hts hout
    have hall := ih (Blame.placed_merge halt (hp.done hi hts hout)) hm hmts
    rwa [hrest] at hall
  | case4 alt i a m alt₁ hout alt₂ hlt =>
    exact Blame.placed_merge halt (hp.done hi hts hout)

theorem many [Leaves p] (hp : Places n p) : Places n p.many :=
  fun _ hi => hp.manyAfter (Blame.placed_none _) hi (List.suffix_refl _)

theorem many1 [Leaves p] (hp : Places n p) : Places n p.many1 := by
  intro i hi
  unfold Parser.many1
  cases hout : p i with
  | failed b => exact hp.failed hi (List.suffix_refl _) hout
  | done a r alt =>
    obtain ⟨hr, hrts⟩ := behind hi (List.suffix_refl _) hout
    have hrest := hp.manyAfter (hp.done hi (List.suffix_refl _) hout) hr hrts
    dsimp only
    cases hout' : p.manyAfter alt r with
    | done as r' alt' => rwa [hout'] at hrest
    | failed b => rwa [hout'] at hrest

theorem itemsAfter [Leaves p] [Leaves q] (hp : Places n p) (hq : Places n q) {ts : List Token}
    {alt : Option Blame} (halt : ∀ b ∈ alt, b.Placed ts) {i : Input} (hi : i.left < n)
    (hts : i.tokens <:+ ts) :
    (∀ b ∈ (p.itemsAfter q alt i).2.2.1, b.Placed ts) ∧
      ∀ b ∈ (p.itemsAfter q alt i).2.2.2, b.Placed ts := by
  fun_induction Parser.itemsAfter p q alt i with
  | case1 alt i b hout => exact ⟨halt, Blame.placed_some (hq.failed hi hts hout)⟩
  | case2 alt i b m alt₁ hout alt₂ c hout' =>
    obtain ⟨hm, hmts⟩ := behind hi hts hout
    exact ⟨Blame.placed_merge halt (hq.done hi hts hout),
      Blame.placed_some (hp.failed hm hmts hout')⟩
  | case3 alt i b m alt₁ hout alt₂ a k alt₃ hout' alt₄ hlt as r alt₅ ended hrest ih =>
    obtain ⟨hm, hmts⟩ := behind hi hts hout
    obtain ⟨hk, hkts⟩ := behind hm hmts hout'
    have halt₂ := Blame.placed_merge halt (hq.done hi hts hout)
    have hall := ih (Blame.placed_merge halt₂ (hp.done hm hmts hout')) hk hkts
    rwa [hrest] at hall
  | case4 alt i b m alt₁ hout alt₂ a k alt₃ hout' alt₄ hlt =>
    obtain ⟨hm, hmts⟩ := behind hi hts hout
    have halt₂ := Blame.placed_merge halt (hq.done hi hts hout)
    exact ⟨Blame.placed_merge halt₂ (hp.done hm hmts hout'), Blame.placed_none _⟩

theorem separated [Leaves p] [Leaves q] (hp : Places n p) (hq : Places n q) :
    Places n (p.separated q) := by
  intro i hi
  unfold Parser.separated
  cases hout : p i with
  | failed b => exact Blame.placed_some (hp.failed hi (List.suffix_refl _) hout)
  | done a r alt =>
    obtain ⟨hr, hrts⟩ := behind hi (List.suffix_refl _) hout
    obtain ⟨as, k, alt', ended, heq, hrest⟩ := exists_itemsAfter p q alt r
    obtain ⟨halt', hended⟩ := hp.itemsAfter hq (hp.done hi (List.suffix_refl _) hout) hr hrts
    have hk := Nat.lt_of_le_of_lt (left_le_of_suffix hrest.suffix) hr
    have hkts := hrest.suffix.trans hrts
    rw [heq] at halt' hended
    dsimp only at halt' hended ⊢
    rw [heq]
    dsimp only
    cases hout' : q k with
    | done b r' alt₂ =>
      exact Blame.placed_merge (Blame.placed_merge halt' (hq.done hk hkts hout')) hended
    | failed b =>
      have hb := Blame.placed_some (hq.failed hk hkts hout')
      exact Blame.placed_merge (Blame.placed_merge halt' hb) hended

theorem throughAfter (hp : Places n p) {ts : List Token} {alt : Option Blame}
    (halt : ∀ b ∈ alt, b.Placed ts) {i : Input} (hi : i.left < n) (hts : i.tokens <:+ ts) :
    (Parser.throughAfter p alt i).Placed ts := by
  fun_induction Parser.throughAfter p alt i with
  | case1 alt i a m alt' hout => exact Blame.placed_merge halt (hp.done hi hts hout)
  | case2 alt i b hout hnone => exact hp.failed hi hts hout
  | case3 alt i b hout t m hsome ih =>
    have hm : m.tokens <:+ i.tokens := by
      rw [Input.next?_eq_some.mp hsome]
      exact List.suffix_cons t m.tokens
    exact ih (Blame.placed_merge halt (Blame.placed_some (hp.failed hi hts hout)))
      (Nat.lt_of_le_of_lt (left_le_of_suffix hm) hi) (hm.trans hts)

theorem through (hp : Places n p) : Places n (Parser.through p) :=
  fun _ hi => hp.throughAfter (Blame.placed_none _) hi (List.suffix_refl _)

/-- A value that is refused has to explain itself. -/
theorem refine {f : α → Option β} (hp : Places n p)
    (hf : ∀ i a r, i.left < n → p.Gives i a r → f a = none →
      (⟨r.left, none, .none⟩ : Blame).Placed i.tokens) : Places n (p.refine f) := by
  intro i hi
  unfold Parser.refine
  cases hout : p i with
  | failed b => exact hp.failed hi (List.suffix_refl _) hout
  | done a r alt =>
    dsimp only
    cases hfa : f a with
    | some b => exact hp.done hi (List.suffix_refl _) hout
    | none => exact hf i a r hi ⟨alt, hout⟩ hfa

theorem charged (hp : Places n p) (name : String) : Places n (p.charged name) := by
  intro i hi
  unfold Parser.charged
  cases hout : p i with
  | failed b => exact (hp.failed hi (List.suffix_refl _) hout).charge _
  | done a r alt =>
    intro b hb
    obtain ⟨c, hc, rfl⟩ := Option.map_eq_some_iff.mp hb
    exact (hp.done hi (List.suffix_refl _) hout c hc).charge _

theorem atEnd : Places n Parser.atEnd := by
  intro i _
  unfold Parser.atEnd
  split
  · exact Blame.placed_none _
  · exact Blame.placed_here i

end Parser.Places

end Grammar

end MarkupTrace.Source
