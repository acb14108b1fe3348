import MarkupTrace.Proofs.TokenEnds
import MarkupTrace.Proofs.ReadParts

/-!
# Reading from texts

A parser reads a value from one text and leaves another, wherever in a source they stand. What a
combinator reads is put together from what its parts read, one text to the next, and where a part
refuses its text the combinator refuses or goes on.
-/

namespace MarkupTrace.Source.Grammar

open Text Grammar.Parser

/-- The tokens of a text that stands at `offset`. -/
def chars (offset : Nat) (cs : List Char) : Input := .ofTokens (tokensFrom offset cs)

theorem tokens_chars_nil (offset : Nat) : (chars offset []).tokens = [] := by
  unfold chars
  rw [tokensFrom, Input.tokens_ofTokens]

theorem tokens_chars_cons (offset : Nat) {c : Char} {text rest : List Char} {k : Kind}
    (h : lexeme c (text ++ rest) = (k, text.length)) : ∃ span offset',
      (chars offset (c :: (text ++ rest))).tokens =
        ⟨k, String.ofList (c :: text), span⟩ :: (chars offset' rest).tokens := by
  unfold chars
  rw [tokensFrom_cons, h, List.take_left, List.drop_left]
  exact ⟨_, _, rfl⟩

namespace Parser

variable {α β : Type} {p p' : Parser α} {q : Parser β} {s t r : List Char} {P P' : α → Prop}
  {Q : β → Prop} {R : List Char → Prop}

/-- From the text `s` the parser reads a value with the property and leaves `r`. -/
def Consumes (p : Parser α) (s r : List Char) (P : α → Prop) : Prop :=
  ∀ offset, ∃ a offset', P a ∧ p.Gives (chars offset s) a (chars offset' r)

def Refuses (p : Parser α) (s : List Char) : Prop := ∀ offset, p.Fails (chars offset s)

/-- What the parser leaves of the text `s`, if it reads anything from it. -/
def Reaches (p : Parser α) (s : List Char) (R : List Char → Prop) : Prop :=
  ∀ offset a i, p.Gives (chars offset s) a i → ∃ offset' r, i = chars offset' r ∧ R r

theorem Consumes.reaches (h : p.Consumes s r P) : p.Reaches s (· = r) := by
  intro offset a i ha
  obtain ⟨b, offset', -, hb⟩ := h offset
  obtain ⟨-, rfl⟩ := ha.unique hb
  exact ⟨offset', r, rfl, rfl⟩

theorem Refuses.reaches (h : p.Refuses s) (R : List Char → Prop) : p.Reaches s R :=
  fun offset _ _ ha => absurd (h offset) ha.not_fails

/-! ## Single tokens -/

theorem single_reaches {accept : Token → Option α} {c : Char} {text rest : List Char} {k : Kind}
    (h : lexeme c (text ++ rest) = (k, text.length)) :
    (single accept).Reaches (c :: (text ++ rest)) (· = rest) := by
  intro offset a i ha
  obtain ⟨span, offset', htokens⟩ := tokens_chars_cons offset h
  obtain ⟨t, ht, -⟩ := gives_single.mp ha
  rw [htokens] at ht
  exact ⟨offset', rest, Input.ext (List.cons.inj ht).2.symm, rfl⟩

theorem consumes_single {accept : Token → Option α} {c : Char} {t rest : List Char} {k : Kind}
    (h : lexeme c (t ++ rest) = (k, t.length))
    (ha : ∀ span, ∃ a, P a ∧ accept ⟨k, String.ofList (c :: t), span⟩ = some a) :
    (single accept).Consumes (c :: (t ++ rest)) rest P := by
  intro offset
  obtain ⟨span, offset', htokens⟩ := tokens_chars_cons offset h
  obtain ⟨a, hP, ha⟩ := ha span
  exact ⟨a, offset', hP, gives_single.mpr ⟨_, htokens, ha⟩⟩

theorem consumes_satisfy {f : Token → Bool} {c : Char} {t rest : List Char} {k : Kind}
    (h : lexeme c (t ++ rest) = (k, t.length))
    (ha : ∀ span, f ⟨k, String.ofList (c :: t), span⟩ = true) :
    (satisfy f).Consumes (c :: (t ++ rest)) rest
      fun u => u.kind = k ∧ u.text = String.ofList (c :: t) := by
  refine consumes_single h fun span => ⟨⟨k, String.ofList (c :: t), span⟩, ⟨rfl, rfl⟩, ?_⟩
  exact if_pos (ha span)

theorem consumes_token {c : Char} {t rest : List Char} {k : Kind}
    (h : lexeme c (t ++ rest) = (k, t.length)) :
    (token k).Consumes (c :: (t ++ rest)) rest fun u => u.text = String.ofList (c :: t) := by
  intro offset
  obtain ⟨u, offset', hu, hgives⟩ :=
    consumes_satisfy (f := fun t => t.kind == k) h (fun _ => beq_self_eq_true k) offset
  exact ⟨u, offset', hu.2, hgives⟩

/-! ## Combinators -/

theorem Consumes.mono (h : p.Consumes s r P) (hP : ∀ a, P a → P' a) : p.Consumes s r P' := by
  intro offset
  obtain ⟨a, offset', ha, hgives⟩ := h offset
  exact ⟨a, offset', hP a ha, hgives⟩

theorem Consumes.map (h : p.Consumes s r P) {f : α → β} (hf : ∀ a, P a → Q (f a)) :
    (p.map f).Consumes s r Q := by
  intro offset
  obtain ⟨a, offset', ha, hgives⟩ := h offset
  exact ⟨f a, offset', hf a ha, gives_map.mpr ⟨a, hgives, rfl⟩⟩

theorem Consumes.both (h : p.Consumes s t P) (h' : q.Consumes t r Q) :
    (p.both q).Consumes s r fun c => P c.1 ∧ Q c.2 := by
  intro offset
  obtain ⟨a, offset', ha, hp⟩ := h offset
  obtain ⟨b, offset'', hb, hq⟩ := h' offset'
  exact ⟨(a, b), offset'', ⟨ha, hb⟩, gives_both.mpr ⟨_, hp, hq⟩⟩

theorem Consumes.skip (h : p.Consumes s t P) (h' : q.Consumes t r Q) : (p.skip q).Consumes s r P :=
  (h.both h').map fun _ hc => hc.1

theorem Consumes.before (h : p.Consumes s t P) (h' : q.Consumes t r Q) :
    (p.before q).Consumes s r Q :=
  (h.both h').map fun _ hc => hc.2

theorem Consumes.orElse_left (h : p.Consumes s r P) (p' : Parser α) :
    (p.orElse p').Consumes s r P := by
  intro offset
  obtain ⟨a, offset', ha, hgives⟩ := h offset
  exact ⟨a, offset', ha, gives_orElse.mpr (.inl hgives)⟩

theorem Consumes.orElse_right (h : p'.Consumes s r P) (hp : p.Refuses s) :
    (p.orElse p').Consumes s r P := by
  intro offset
  obtain ⟨a, offset', ha, hgives⟩ := h offset
  exact ⟨a, offset', ha, gives_orElse.mpr (.inr ⟨hp offset, hgives⟩)⟩

theorem Consumes.firstOf_here (h : p.Consumes s r P) (ps : List (Parser α)) :
    (firstOf (p :: ps)).Consumes s r P := by
  intro offset
  obtain ⟨a, offset', ha, hgives⟩ := h offset
  exact ⟨a, offset', ha, gives_firstOf_cons.mpr (.inl hgives)⟩

theorem Consumes.firstOf_there {ps : List (Parser α)} (h : (firstOf ps).Consumes s r P)
    (hp : p.Refuses s) : (firstOf (p :: ps)).Consumes s r P := by
  intro offset
  obtain ⟨a, offset', ha, hgives⟩ := h offset
  exact ⟨a, offset', ha, gives_firstOf_cons.mpr (.inr ⟨hp offset, hgives⟩)⟩

theorem Consumes.optional (h : p.Consumes s r P) :
    p.optional.Consumes s r fun o => ∃ a, o = some a ∧ P a := by
  intro offset
  obtain ⟨a, offset', ha, hgives⟩ := h offset
  exact ⟨some a, offset', ⟨a, rfl, ha⟩, gives_optional.mpr (.inl ⟨a, rfl, hgives⟩)⟩

theorem Refuses.optional (h : p.Refuses s) : p.optional.Consumes s s (· = none) :=
  fun offset => ⟨none, offset, rfl, gives_optional.mpr (.inr ⟨rfl, rfl, h offset⟩)⟩

theorem Consumes.refine (h : p.Consumes s r P) {f : α → Option β}
    (hf : ∀ a, P a → ∃ b, f a = some b ∧ Q b) : (p.refine f).Consumes s r Q := by
  intro offset
  obtain ⟨a, offset', ha, hgives⟩ := h offset
  obtain ⟨b, hb, hQ⟩ := hf a ha
  exact ⟨b, offset', hQ, gives_refine.mpr ⟨a, hgives, hb⟩⟩

theorem Consumes.charged (h : p.Consumes s r P) (name : String) : (p.charged name).Consumes s r P := by
  intro offset
  obtain ⟨a, offset', ha, hgives⟩ := h offset
  exact ⟨a, offset', ha, gives_charged.mpr hgives⟩

theorem Refuses.many (h : p.Refuses s) : p.many.Consumes s s (· = []) :=
  fun offset => ⟨[], offset, rfl, gives_many.mpr (.stop (h offset))⟩

theorem Consumes.many_cons [Advances p] {T : List α → Prop} (h : p.Consumes s t P)
    (hrest : p.many.Consumes t r T) :
    p.many.Consumes s r fun as => ∃ a as', as = a :: as' ∧ P a ∧ T as' := by
  intro offset
  obtain ⟨a, offset', ha, hgives⟩ := h offset
  obtain ⟨as, offset'', has, hmany⟩ := hrest offset'
  exact ⟨a :: as, offset'', ⟨a, as, rfl, ha, has⟩,
    gives_many.mpr (.more hgives (Advances.left_lt hgives) (gives_many.mp hmany))⟩

/-- Items with separators are a first item and, behind a separator, further items. -/
theorem gives_separated_cons [Advances p] [Leaves q] {i r : Input} {as : List α} :
    (p.separated q).Gives i as r ↔ as = [] ∧ r = i ∧ p.Fails i ∨ ∃ a m, p.Gives i a m ∧
      (q.Fails m ∧ as = [a] ∧ r = m ∨
        ∃ b n as', q.Gives m b n ∧ (p.separated q).Gives n as' r ∧ as = a :: as') := by
  have hlt : ∀ {m n k b a}, q.Gives m b n → p.Gives n a k → k.left < m.left := fun hq hp =>
    Nat.lt_of_lt_of_le (Advances.left_lt hp) (Leaves.left_le hq)
  rw [gives_separated]
  refine or_congr Iff.rfl ?_
  constructor
  · rintro ⟨a, m, as', n, rfl, ha, hrest, hend⟩
    refine ⟨a, m, ha, ?_⟩
    cases hrest with
    | stop hfails =>
      rcases hend with ⟨b, hb⟩ | ⟨-, rfl⟩
      · exact absurd hfails hb.not_fails
      · exact .inl ⟨hfails, rfl, rfl⟩
    | @back _ k b hb hitem =>
      rcases hend with ⟨b', hb'⟩ | ⟨hfails, -⟩
      · obtain ⟨-, rfl⟩ := hb.unique hb'
        exact .inr ⟨b, k, [], hb, gives_separated.mpr (.inl ⟨rfl, rfl, hitem⟩), rfl⟩
      · exact absurd hfails hb.not_fails
    | @more _ k l _ a' b as'' hb hitem _ hfurther =>
      exact .inr ⟨b, k, a' :: as'', hb,
        gives_separated.mpr (.inr ⟨a', l, as'', n, rfl, hitem, hfurther, hend⟩), rfl⟩
    | idle hb hitem hnot => exact absurd (hlt hb hitem) hnot
  · rintro ⟨a, m, ha, ⟨hfails, rfl, rfl⟩ | ⟨b, k, as', hb, hrest, rfl⟩⟩
    · exact ⟨a, r, [], r, rfl, ha, .stop hfails, .inr ⟨hfails, rfl⟩⟩
    · rcases gives_separated.mp hrest with ⟨rfl, rfl, hitem⟩ | ⟨a', l, as'', n, rfl, ha', hfurther, hend⟩
      · exact ⟨a, m, [], m, rfl, ha, .back hb hitem, .inl ⟨b, hb⟩⟩
      · exact ⟨a, m, a' :: as'', n, rfl, ha, .more hb ha' (hlt hb ha') hfurther, hend⟩

theorem Refuses.separated (h : p.Refuses s) (q : Parser β) :
    (p.separated q).Consumes s s (· = []) :=
  fun offset => ⟨[], offset, rfl, gives_separated.mpr (.inl ⟨rfl, rfl, h offset⟩)⟩

theorem Consumes.separated_last [Advances p] [Leaves q] (h : p.Consumes s r P) (hq : q.Refuses r) :
    (p.separated q).Consumes s r fun as => ∃ a, as = [a] ∧ P a := by
  intro offset
  obtain ⟨a, offset', ha, hgives⟩ := h offset
  exact ⟨[a], offset', ⟨a, rfl, ha⟩,
    gives_separated_cons.mpr (.inr ⟨a, _, hgives, .inl ⟨hq offset', rfl, rfl⟩⟩)⟩

theorem Consumes.separated_cons [Advances p] [Leaves q] {t' : List Char} {T : List α → Prop}
    (h : p.Consumes s t P) (hq : q.Consumes t t' Q) (hrest : (p.separated q).Consumes t' r T) :
    (p.separated q).Consumes s r fun as => ∃ a as', as = a :: as' ∧ P a ∧ T as' := by
  intro offset
  obtain ⟨a, offset₁, ha, hp⟩ := h offset
  obtain ⟨b, offset₂, -, hb⟩ := hq offset₁
  obtain ⟨as, offset₃, has, hgives⟩ := hrest offset₂
  exact ⟨a :: as, offset₃, ⟨a, as, rfl, ha, has⟩,
    gives_separated_cons.mpr (.inr ⟨a, _, hp, .inr ⟨b, _, as, hb, hgives, rfl⟩⟩)⟩

/-! ## Refusals -/

theorem Refuses.map (h : p.Refuses s) (f : α → β) : (p.map f).Refuses s :=
  fun offset => fails_map.mpr (h offset)

theorem Refuses.both (h : p.Refuses s) (q : Parser β) : (p.both q).Refuses s :=
  fun offset => fails_both.mpr (.inl (h offset))

theorem Refuses.skip (h : p.Refuses s) (q : Parser β) : (p.skip q).Refuses s := (h.both q).map _

theorem Refuses.before (h : p.Refuses s) (q : Parser β) : (p.before q).Refuses s := (h.both q).map _

theorem Refuses.orElse (h : p.Refuses s) (h' : p'.Refuses s) : (p.orElse p').Refuses s :=
  fun offset => fails_orElse.mpr ⟨h offset, h' offset⟩

theorem Refuses.refine (h : p.Refuses s) (f : α → Option β) : (p.refine f).Refuses s :=
  fun offset => fails_refine.mpr (.inl (h offset))

theorem Refuses.charged (h : p.Refuses s) (name : String) : (p.charged name).Refuses s :=
  fun offset => fails_charged.mpr (h offset)

/-- The second parser refuses whatever the first one leaves. -/
theorem Reaches.refuses_both (h : p.Reaches s R) (hq : ∀ r, R r → q.Refuses r) :
    (p.both q).Refuses s := by
  intro offset
  rcases gives_or_fails p (chars offset s) with ⟨a, i, ha⟩ | hfails
  · obtain ⟨offset', r, rfl, hr⟩ := h offset a i ha
    exact fails_both.mpr (.inr ⟨a, _, ha, hq r hr offset'⟩)
  · exact fails_both.mpr (.inl hfails)

theorem Reaches.refuses_skip (h : p.Reaches s R) (hq : ∀ r, R r → q.Refuses r) :
    (p.skip q).Refuses s := (h.refuses_both hq).map _

/-! ## What is reached -/

theorem Reaches.mono {R' : List Char → Prop} (h : p.Reaches s R) (hR : ∀ r, R r → R' r) :
    p.Reaches s R' := by
  intro offset a i ha
  obtain ⟨offset', r, hi, hr⟩ := h offset a i ha
  exact ⟨offset', r, hi, hR r hr⟩

theorem Reaches.map (h : p.Reaches s R) (f : α → β) : (p.map f).Reaches s R := by
  intro offset b i hb
  obtain ⟨a, ha, -⟩ := gives_map.mp hb
  exact h offset a i ha

theorem Reaches.both {R' : List Char → Prop} (h : p.Reaches s R) (hq : ∀ r, R r → q.Reaches r R') :
    (p.both q).Reaches s R' := by
  intro offset c i hc
  obtain ⟨m, hp, hgives⟩ := gives_both.mp hc
  obtain ⟨offset', r, rfl, hr⟩ := h offset _ m hp
  exact hq r hr offset' _ i hgives

theorem Reaches.skip {R' : List Char → Prop} (h : p.Reaches s R) (hq : ∀ r, R r → q.Reaches r R') :
    (p.skip q).Reaches s R' := (h.both hq).map _

theorem Reaches.before {R' : List Char → Prop} (h : p.Reaches s R) (hq : ∀ r, R r → q.Reaches r R') :
    (p.before q).Reaches s R' := (h.both hq).map _

theorem Reaches.optional (h : p.Reaches s R) : p.optional.Reaches s fun r => r = s ∨ R r := by
  intro offset o i ho
  rcases gives_optional.mp ho with ⟨a, -, ha⟩ | ⟨-, rfl, -⟩
  · obtain ⟨offset', r, rfl, hr⟩ := h offset a i ha
    exact ⟨offset', r, rfl, .inr hr⟩
  · exact ⟨offset, s, rfl, .inl rfl⟩

theorem Reaches.orElse (h : p.Reaches s R) (h' : p'.Reaches s R) : (p.orElse p').Reaches s R := by
  intro offset a i ha
  rcases gives_orElse.mp ha with ha | ⟨-, ha⟩
  · exact h offset a i ha
  · exact h' offset a i ha

theorem Reaches.firstOf {ps : List (Parser α)} (h : ∀ p ∈ ps, Reaches p s R) :
    (firstOf ps).Reaches s R := by
  induction ps with
  | nil => exact fun _ _ _ ha => absurd ha not_gives_firstOf_nil
  | cons p ps ih =>
    rw [List.forall_mem_cons] at h
    intro offset a i ha
    rcases gives_firstOf_cons.mp ha with ha | ⟨-, ha⟩
    · exact h.1 offset a i ha
    · exact ih h.2 offset a i ha

theorem Reaches.charged (h : p.Reaches s R) (name : String) : (p.charged name).Reaches s R :=
  fun offset a i ha => h offset a i (gives_charged.mp ha)

/-- A parser that refuses what it leaves is not repeated. -/
theorem Reaches.many (h : p.Reaches s R) (hR : ∀ r, R r → p.Refuses r) :
    p.many.Reaches s fun r => r = s ∨ R r := by
  intro offset as i has
  cases gives_many.mp has with
  | stop hfails => exact ⟨offset, s, rfl, .inl rfl⟩
  | more ha hlt hrest =>
    obtain ⟨offset', r, rfl, hr⟩ := h offset _ _ ha
    cases hrest with
    | stop hfails => exact ⟨offset', r, rfl, .inr hr⟩
    | more hb => exact absurd (hR r hr offset') hb.not_fails
    | idle hb => exact absurd (hR r hr offset') hb.not_fails
  | idle ha hlt =>
    obtain ⟨offset', r, rfl, hr⟩ := h offset _ _ ha
    exact ⟨offset', r, rfl, .inr hr⟩

theorem Reaches.separated [Advances p] [Leaves q] {R' : List Char → Prop} (h : p.Reaches s R)
    (hs : R' s) (hR : ∀ r, R r → R' r ∧ (q.before (p.separated q)).Reaches r R') :
    (p.separated q).Reaches s R' := by
  intro offset as i has
  rcases gives_separated_cons.mp has with ⟨-, rfl, -⟩ | ⟨a, m, ha, hor⟩
  · exact ⟨offset, s, rfl, hs⟩
  obtain ⟨offset', r, rfl, hr⟩ := h offset a m ha
  rcases hor with ⟨-, -, rfl⟩ | ⟨b, n, as', hb, has', -⟩
  · exact ⟨offset', r, rfl, (hR r hr).1⟩
  · exact (hR r hr).2 offset' as' i (gives_before.mpr ⟨n, b, hb, has'⟩)

end Parser

end MarkupTrace.Source.Grammar
