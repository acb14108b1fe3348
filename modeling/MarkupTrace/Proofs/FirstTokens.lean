import MarkupTrace.Proofs.Rereading

/-!
# First tokens

Blanks before a text are skipped, and a parser that begins with trivia reads the same behind them. It
refuses a text whose first token is none that it can start with.
-/

namespace MarkupTrace.Source.Grammar

open Text Grammar.Parser

/-! ## Trivia -/

/-- No trivia stand before the text. -/
def Solid (s : List Char) : Prop := triviaItem.Refuses s

/-- Behind trivia stands the text `r`. -/
def Skips (s r : List Char) : Prop := trivia.Consumes s r fun _ => True

theorem Solid.skips {s : List Char} (h : Solid s) : Skips s s := h.many.map fun _ _ => trivial

theorem tokens_of_gives_triviaItem {i r : Input} {u : Unit} (h : triviaItem.Gives i u r) :
    ∃ t us, i.tokens = t :: us ∧ (t.isBlank = true ∨ t.kind = .slash ∧
      ∃ t' us', us = t' :: us' ∧ (t'.kind = .slash ∨ t'.kind = .star)) := by
  have hcomment : ∀ {α : Type} {k : Kind} {q : Parser α} {c : (Token × Token) × α},
      (((token .slash).both (token k)).both q).Gives i c r →
      ∃ t t' us', i.tokens = t :: t' :: us' ∧ t.kind = .slash ∧ t'.kind = k := by
    intro α k q c hc
    obtain ⟨m, hc, -⟩ := gives_both.mp hc
    obtain ⟨n, hslash, hsecond⟩ := gives_both.mp hc
    obtain ⟨hi, hslash⟩ := gives_token.mp hslash
    obtain ⟨hn, hsecond⟩ := gives_token.mp hsecond
    exact ⟨_, _, _, by rw [hi, hn], hslash, hsecond⟩
  rcases gives_orElse.mp h with h | ⟨-, h⟩
  · rcases gives_orElse.mp h with h | ⟨-, h⟩
    · obtain ⟨t, ht, -⟩ := gives_map.mp h
      obtain ⟨hi, hblank⟩ := gives_satisfy.mp ht
      exact ⟨t, _, hi, .inl hblank⟩
    · obtain ⟨c, hc, -⟩ := gives_map.mp h
      obtain ⟨t, t', us, hi, ht, ht'⟩ := hcomment hc
      exact ⟨t, _, hi, .inr ⟨ht, t', us, rfl, .inl ht'⟩⟩
  · obtain ⟨c, hc, -⟩ := gives_map.mp h
    obtain ⟨t, t', us, hi, ht, ht'⟩ := hcomment hc
    exact ⟨t, _, hi, .inr ⟨ht, t', us, rfl, .inr ht'⟩⟩

theorem solid_of_not {s : List Char} (h : ∀ offset u r, ¬ triviaItem.Gives (chars offset s) u r) :
    Solid s := by
  intro offset
  rcases gives_or_fails triviaItem (chars offset s) with ⟨u, r, hgives⟩ | hfails
  · exact absurd hgives (h offset u r)
  · exact hfails

theorem solid_nil : Solid [] := by
  refine solid_of_not fun offset u r hgives => ?_
  obtain ⟨t, us, ht, -⟩ := tokens_of_gives_triviaItem hgives
  rw [tokens_chars_nil] at ht
  cases ht

/-- The first token of a text. -/
theorem exists_tokens_chars_cons (offset : Nat) (c : Char) (cs : List Char) : ∃ span offset',
    (chars offset (c :: cs)).tokens =
      ⟨(lexeme c cs).1, String.ofList (c :: cs.take (lexeme c cs).2), span⟩ ::
        (chars offset' (cs.drop (lexeme c cs).2)).tokens := by
  unfold chars
  rw [tokensFrom_cons]
  exact ⟨_, _, rfl⟩

theorem solid_cons {c : Char} {cs : List Char} {k : Kind} {n : Nat} (h : lexeme c cs = (k, n))
    (hk : k ∉ [.blanks, .newline, .slash]) : Solid (c :: cs) := by
  refine solid_of_not fun offset u r hgives => ?_
  obtain ⟨t, us, ht, hor⟩ := tokens_of_gives_triviaItem hgives
  obtain ⟨span, offset', htokens⟩ := exists_tokens_chars_cons offset c cs
  rw [htokens, h] at ht
  obtain ⟨rfl, -⟩ := List.cons_eq_cons.mp ht
  refine hk ?_
  rcases hor with hblank | ⟨hkind, -⟩
  · simp only [Token.isBlank, Bool.or_eq_true, beq_iff_eq] at hblank
    rcases hblank with rfl | rfl <;> decide
  · cases hkind
    decide

/-- A slash alone does not begin a comment. -/
theorem solid_slash {c : Char} {cs : List Char} {k : Kind} {n : Nat} (h : lexeme c cs = (k, n))
    (hk : k ∉ [.slash, .star]) : Solid ('/' :: c :: cs) := by
  refine solid_of_not fun offset u r hgives => ?_
  obtain ⟨t, us, ht, hor⟩ := tokens_of_gives_triviaItem hgives
  obtain ⟨span, offset', htokens⟩ := exists_tokens_chars_cons offset '/' (c :: cs)
  obtain ⟨span', offset'', hsecond⟩ := exists_tokens_chars_cons offset' c cs
  rw [htokens] at ht
  obtain ⟨rfl, hus⟩ := List.cons_eq_cons.mp ht
  rcases hor with hblank | ⟨-, t', us', rfl, hkind⟩
  · cases hblank
  · obtain ⟨rfl, -⟩ := List.cons_eq_cons.mp (hsecond.symm.trans hus)
    rw [h] at hkind
    rcases hkind with hkind | hkind <;> cases hkind <;> exact hk (by decide)

instance : Advances triviaItem := by
  unfold triviaItem lineComment blockComment
  infer_instance

theorem consumes_blank {c : Char} {t r : List Char} {k : Kind}
    (h : lexeme c (t ++ r) = (k, t.length)) (hk : k = .blanks ∨ k = .newline) :
    triviaItem.Consumes (c :: (t ++ r)) r fun _ => True := by
  refine .orElse_left (.orElse_left (.map (consumes_satisfy h fun span => ?_) fun _ _ => trivial) _) _
  rcases hk with rfl | rfl <;> rfl

theorem Solid.head {s : List Char} (h : Solid s) : ∀ c ∈ s.head?, isSpaceOrTab c = false := by
  intro c hc
  cases s with
  | nil => cases hc
  | cons d cs =>
    cases hc
    rw [← Bool.not_eq_true]
    intro hspace
    have hlexeme := lexeme_of_isSpaceOrTab hspace cs
    obtain ⟨u, offset', -, hgives⟩ := consumes_blank (c := c) (t := cs.takeWhile isSpaceOrTab)
      (r := cs.dropWhile isSpaceOrTab) (by rw [List.takeWhile_append_dropWhile]; exact hlexeme)
      (.inl rfl) 0
    rw [List.takeWhile_append_dropWhile] at hgives
    exact hgives.not_fails (h 0)

/-- Blanks are skipped. -/
theorem skips_append {b s : List Char} (hbs : ∀ c ∈ b, c = ' ' ∨ c = '\n') (hs : Solid s) :
    Skips (b ++ s) s := by
  suffices ∀ n (bs : List Char), bs.length = n → (∀ c ∈ bs, c = ' ' ∨ c = '\n') →
      triviaItem.many.Consumes (bs ++ s) s fun _ => True from
    (this _ b rfl hbs).map fun _ _ => trivial
  intro n
  induction n using Nat.strongRecOn with
  | ind n ih =>
    rintro bs rfl hbs
    cases bs with
    | nil => exact hs.many.mono fun _ _ => trivial
    | cons b bs =>
      rw [List.forall_mem_cons] at hbs
      rcases hbs.1 with rfl | rfl
      · -- the spaces up to a line break or the end of the blanks are one token
        have hsplit := List.takeWhile_append_dropWhile (p := isSpaceOrTab) (l := bs)
        have hstop : ∀ c ∈ (bs.dropWhile isSpaceOrTab ++ s).head?, isSpaceOrTab c = false := by
          cases hd : bs.dropWhile isSpaceOrTab with
          | nil => exact hs.head
          | cons d ds =>
            intro c hc
            cases hc
            have := List.head?_dropWhile_not isSpaceOrTab bs
            rw [hd] at this
            simpa using this
        have hlexeme := lexeme_of_isSpaceOrTab (c := ' ') rfl
          (bs.takeWhile isSpaceOrTab ++ (bs.dropWhile isSpaceOrTab ++ s))
        rw [takeWhile_append_stop (fun c hc => List.mem_takeWhile_imp hc) hstop] at hlexeme
        have hrest := ih (bs.dropWhile isSpaceOrTab).length
          (Nat.lt_succ_of_le (List.dropWhile_sublist _).length_le) _ rfl
          fun c hc => hbs.2 c ((List.dropWhile_sublist _).subset hc)
        have := (consumes_blank hlexeme (.inl rfl)).many_cons hrest
        rw [← List.append_assoc, hsplit] at this
        exact this.mono fun _ _ => trivial
      · have hrest := ih bs.length (Nat.lt_succ_self _) bs rfl hbs.2
        exact ((consumes_blank (c := '\n') (t := []) rfl (.inr rfl)).many_cons hrest).mono
          fun _ _ => trivial

/-! ## Parsers that begin with trivia -/

/-- Behind trivia the parser does the same. -/
class Padded {α : Type} (p : Parser α) : Prop where
  gives_iff : ∀ {i j : Input} {u : Unit} {a : α} {r : Input}, trivia.Gives i u j →
    (p.Gives i a r ↔ p.Gives j a r)

theorem gives_trivia_again {i j : Input} {u : Unit} (h : trivia.Gives i u j) :
    trivia.Gives j () j := by
  obtain ⟨us, hus, -⟩ := gives_map.mp h
  refine gives_map.mpr ⟨[], gives_many.mpr (.stop ?_), rfl⟩
  have hrepeats := gives_many.mp hus
  clear hus h
  induction hrepeats with
  | stop hfails => exact hfails
  | more _ _ _ ih => exact ih
  | idle hgives hlt => exact absurd (Advances.left_lt hgives) hlt

section

variable {α β : Type} {p p' : Parser α} {q : Parser β}

instance (q : Parser β) : Padded (trivia.before q) where
  gives_iff := by
    intro i j u b r hij
    rw [gives_before, gives_before]
    constructor
    · rintro ⟨m, v, hv, hq⟩
      obtain ⟨-, rfl⟩ := hij.unique hv
      exact ⟨j, (), gives_trivia_again hij, hq⟩
    · rintro ⟨m, v, hv, hq⟩
      obtain ⟨-, rfl⟩ := (gives_trivia_again hij).unique hv
      exact ⟨j, u, hij, hq⟩

theorem Padded.fails_iff [Padded p] {i j : Input} {u : Unit} (h : trivia.Gives i u j) :
    p.Fails i ↔ p.Fails j := by
  have hiff : (∃ a r, p.Gives i a r) ↔ ∃ a r, p.Gives j a r :=
    exists_congr fun a => exists_congr fun r => Padded.gives_iff h
  rw [← not_fails_iff, ← not_fails_iff] at hiff
  exact not_iff_not.mp hiff

instance [Padded p] (f : α → β) : Padded (p.map f) where
  gives_iff := by
    intro i j u b r h
    rw [gives_map, gives_map]
    exact exists_congr fun a => and_congr_left' (Padded.gives_iff h)

instance [Padded p] (q : Parser β) : Padded (p.both q) where
  gives_iff := by
    intro i j u c r h
    rw [gives_both, gives_both]
    exact exists_congr fun m => and_congr_left' (Padded.gives_iff h)

instance [Padded p] (q : Parser β) : Padded (p.skip q) := by
  unfold Parser.skip
  infer_instance

instance [Padded p] (q : Parser β) : Padded (p.before q) := by
  unfold Parser.before
  infer_instance

instance [Padded p] [Padded p'] : Padded (p.orElse p') where
  gives_iff := by
    intro i j u a r h
    rw [gives_orElse, gives_orElse, Padded.fails_iff h, Padded.gives_iff h,
      Padded.gives_iff (p := p') h]

instance : Padded (firstOf ([] : List (Parser α))) where
  gives_iff _ := iff_of_false not_gives_firstOf_nil not_gives_firstOf_nil

instance {ps : List (Parser α)} [Padded p] [Padded (firstOf ps)] : Padded (firstOf (p :: ps)) where
  gives_iff := by
    intro i j u a r h
    rw [gives_firstOf_cons, gives_firstOf_cons, Padded.fails_iff h, Padded.gives_iff h,
      Padded.gives_iff (p := firstOf ps) h]

/-- The same if a first part may be missing. -/
instance [Padded p] [Padded q] : Padded (p.optional.both q) where
  gives_iff := by
    intro i j u c r h
    rw [gives_both, gives_both]
    obtain ⟨o, b⟩ := c
    constructor
    · rintro ⟨m, ho, hb⟩
      rcases gives_optional.mp ho with ⟨a, rfl, ha⟩ | ⟨rfl, rfl, hfails⟩
      · exact ⟨m, gives_optional.mpr (.inl ⟨a, rfl, (Padded.gives_iff h).mp ha⟩), hb⟩
      · exact ⟨j, gives_optional.mpr (.inr ⟨rfl, rfl, (Padded.fails_iff h).mp hfails⟩),
          (Padded.gives_iff h).mp hb⟩
    · rintro ⟨m, ho, hb⟩
      rcases gives_optional.mp ho with ⟨a, rfl, ha⟩ | ⟨rfl, rfl, hfails⟩
      · exact ⟨m, gives_optional.mpr (.inl ⟨a, rfl, (Padded.gives_iff h).mpr ha⟩), hb⟩
      · exact ⟨i, gives_optional.mpr (.inr ⟨rfl, rfl, (Padded.fails_iff h).mpr hfails⟩),
          (Padded.gives_iff h).mpr hb⟩

instance [Padded p] (name : String) : Padded (p.charged name) where
  gives_iff h := gives_charged.trans ((Padded.gives_iff h).trans gives_charged.symm)

theorem Parser.Consumes.padded [Padded p] {s t r : List Char} {P : α → Prop}
    (h : p.Consumes t r P) (hs : Skips s t) : p.Consumes s r P := by
  intro offset
  obtain ⟨u, offset', -, hu⟩ := hs offset
  obtain ⟨a, offset'', ha, hgives⟩ := h offset'
  exact ⟨a, offset'', ha, (Padded.gives_iff hu).mpr hgives⟩

theorem Parser.Refuses.padded [Padded p] {s t : List Char} (h : p.Refuses t) (hs : Skips s t) :
    p.Refuses s := by
  intro offset
  obtain ⟨u, offset', -, hu⟩ := hs offset
  exact (Padded.fails_iff hu).mpr (h offset')

theorem Parser.Reaches.padded [Padded p] {s t : List Char} {R : List Char → Prop}
    (h : p.Reaches t R) (hs : Skips s t) : p.Reaches s R := by
  intro offset a i ha
  obtain ⟨u, offset', -, hu⟩ := hs offset
  exact h offset' a i ((Padded.gives_iff hu).mp ha)

end

/-! ## First tokens -/

/-- The parser takes a first token of this sort. -/
def Parser.Takes {α : Type} (p : Parser α) (S : Token → Prop) : Prop :=
  ∀ i a r, p.Gives i a r → ∃ t us, i.tokens = t :: us ∧ S t

/-- Behind trivia the parser takes a first token of this sort. -/
def Parser.Starts {α : Type} (p : Parser α) (S : Token → Prop) : Prop :=
  ∀ i a r, p.Gives i a r → ∃ j u t us, trivia.Gives i u j ∧ j.tokens = t :: us ∧ S t

/-- Behind trivia the text begins with a token of this sort. -/
def Front (s : List Char) (T : Token → Prop) : Prop :=
  ∀ offset, ∃ j u t us, trivia.Gives (chars offset s) u j ∧ j.tokens = t :: us ∧ T t

section

variable {α β : Type} {p p' : Parser α} {q : Parser β} {S S' T : Token → Prop}

theorem takes_single {accept : Token → Option α} (h : ∀ t a, accept t = some a → S t) :
    (single accept).Takes S := by
  intro i a r ha
  obtain ⟨t, ht, haccept⟩ := gives_single.mp ha
  exact ⟨t, _, ht, h t a haccept⟩

theorem takes_satisfy {accept : Token → Bool} (h : ∀ t, accept t = true → S t) :
    (satisfy accept).Takes S := by
  intro i t r ht
  obtain ⟨hi, haccept⟩ := gives_satisfy.mp ht
  exact ⟨t, _, hi, h t haccept⟩

theorem takes_token (k : Kind) : (token k).Takes fun t => t.kind = k :=
  takes_satisfy fun _ => beq_iff_eq.mp

theorem Parser.Takes.mono (h : p.Takes S) (hS : ∀ t, S t → S' t) : p.Takes S' := by
  intro i a r ha
  obtain ⟨t, us, hi, ht⟩ := h i a r ha
  exact ⟨t, us, hi, hS t ht⟩

theorem Parser.Takes.map (h : p.Takes S) (f : α → β) : (p.map f).Takes S := by
  intro i b r hb
  obtain ⟨a, ha, -⟩ := gives_map.mp hb
  exact h i a r ha

theorem Parser.Takes.both (h : p.Takes S) (q : Parser β) : (p.both q).Takes S := by
  intro i c r hc
  obtain ⟨m, hp, -⟩ := gives_both.mp hc
  exact h i _ m hp

theorem Parser.Takes.skip (h : p.Takes S) (q : Parser β) : (p.skip q).Takes S := (h.both q).map _

theorem Parser.Takes.before (h : p.Takes S) (q : Parser β) : (p.before q).Takes S := (h.both q).map _

theorem Parser.Takes.orElse (h : p.Takes S) (h' : p'.Takes S) : (p.orElse p').Takes S := by
  intro i a r ha
  rcases gives_orElse.mp ha with ha | ⟨-, ha⟩
  · exact h i a r ha
  · exact h' i a r ha

theorem Parser.Takes.firstOf {ps : List (Parser α)} (h : ∀ p ∈ ps, Takes p S) :
    (firstOf ps).Takes S := by
  induction ps with
  | nil => exact fun _ _ _ ha => absurd ha not_gives_firstOf_nil
  | cons p ps ih =>
    rw [List.forall_mem_cons] at h
    intro i a r ha
    rcases gives_firstOf_cons.mp ha with ha | ⟨-, ha⟩
    · exact h.1 i a r ha
    · exact ih h.2 i a r ha

theorem Parser.Takes.refuses (h : p.Takes S) {c : Char} {cs : List Char}
    (hS : ∀ t, t.kind = (lexeme c cs).1 → ¬ S t) : p.Refuses (c :: cs) := by
  intro offset
  rcases gives_or_fails p (chars offset (c :: cs)) with ⟨a, r, ha⟩ | hfails
  · obtain ⟨t, us, hi, ht⟩ := h _ a r ha
    obtain ⟨span, offset', htokens⟩ := exists_tokens_chars_cons offset c cs
    rw [htokens] at hi
    obtain ⟨rfl, -⟩ := List.cons_eq_cons.mp hi
    exact absurd ht (hS _ rfl)
  · exact hfails

theorem Parser.Takes.starts (h : q.Takes S) : (trivia.before q).Starts S := by
  intro i b r hb
  obtain ⟨m, u, hu, hq⟩ := gives_before.mp hb
  obtain ⟨t, us, hm, ht⟩ := h m b r hq
  exact ⟨m, u, t, us, hu, hm, ht⟩

theorem Parser.Starts.mono (h : p.Starts S) (hS : ∀ t, S t → S' t) : p.Starts S' := by
  intro i a r ha
  obtain ⟨j, u, t, us, hu, hj, ht⟩ := h i a r ha
  exact ⟨j, u, t, us, hu, hj, hS t ht⟩

theorem Parser.Starts.map (h : p.Starts S) (f : α → β) : (p.map f).Starts S := by
  intro i b r hb
  obtain ⟨a, ha, -⟩ := gives_map.mp hb
  exact h i a r ha

theorem Parser.Starts.both (h : p.Starts S) (q : Parser β) : (p.both q).Starts S := by
  intro i c r hc
  obtain ⟨m, hp, -⟩ := gives_both.mp hc
  exact h i _ m hp

theorem Parser.Starts.skip (h : p.Starts S) (q : Parser β) : (p.skip q).Starts S := (h.both q).map _

theorem Parser.Starts.before (h : p.Starts S) (q : Parser β) : (p.before q).Starts S :=
  (h.both q).map _

theorem Parser.Starts.optional_both (h : p.Starts S) (h' : q.Starts S) :
    (p.optional.both q).Starts S := by
  intro i c r hc
  obtain ⟨m, ho, hq⟩ := gives_both.mp hc
  rcases gives_optional.mp ho with ⟨a, -, ha⟩ | ⟨-, rfl, -⟩
  · exact h i a m ha
  · exact h' _ _ r hq

theorem Parser.Starts.orElse (h : p.Starts S) (h' : p'.Starts S) : (p.orElse p').Starts S := by
  intro i a r ha
  rcases gives_orElse.mp ha with ha | ⟨-, ha⟩
  · exact h i a r ha
  · exact h' i a r ha

theorem Parser.Starts.firstOf {ps : List (Parser α)} (h : ∀ p ∈ ps, Starts p S) :
    (firstOf ps).Starts S := by
  induction ps with
  | nil => exact fun _ _ _ ha => absurd ha not_gives_firstOf_nil
  | cons p ps ih =>
    rw [List.forall_mem_cons] at h
    intro i a r ha
    rcases gives_firstOf_cons.mp ha with ha | ⟨-, ha⟩
    · exact h.1 i a r ha
    · exact ih h.2 i a r ha

theorem Parser.Starts.charged (h : p.Starts S) (name : String) : (p.charged name).Starts S :=
  fun i a r ha => h i a r (gives_charged.mp ha)

theorem Front.mono {s : List Char} {T' : Token → Prop} (h : Front s T) (hT : ∀ t, T t → T' t) :
    Front s T' := by
  intro offset
  obtain ⟨j, u, t, us, hu, hj, ht⟩ := h offset
  exact ⟨j, u, t, us, hu, hj, hT t ht⟩

theorem Skips.front {s t rest : List Char} {c : Char} {k : Kind}
    (h : Skips s (c :: (t ++ rest))) (hlexeme : lexeme c (t ++ rest) = (k, t.length))
    (hT : ∀ span, T ⟨k, String.ofList (c :: t), span⟩) : Front s T := by
  intro offset
  obtain ⟨u, offset', -, hu⟩ := h offset
  obtain ⟨span, offset'', htokens⟩ := tokens_chars_cons offset' hlexeme
  exact ⟨_, u, _, _, hu, htokens, hT span⟩

/-- A text whose first token is none that the parser can start with is refused. -/
theorem Parser.Starts.refuses {s : List Char} (h : p.Starts S) (hs : Front s T)
    (hT : ∀ t, T t → ¬ S t) : p.Refuses s := by
  intro offset
  obtain ⟨j, u, t, us, hu, hj, ht⟩ := hs offset
  rcases gives_or_fails p (chars offset s) with ⟨a, r, ha⟩ | hfails
  · obtain ⟨j', u', t', us', hu', hj', ht'⟩ := h _ a r ha
    obtain ⟨-, rfl⟩ := hu.unique hu'
    rw [hj] at hj'
    obtain ⟨rfl, -⟩ := List.cons_eq_cons.mp hj'
    exact absurd ht' (hT t ht)
  · exact hfails

theorem Parser.Starts.refuses_nil {s : List Char} (h : p.Starts S) (hs : Skips s []) : p.Refuses s := by
  intro offset
  obtain ⟨u, offset', -, hu⟩ := hs offset
  rcases gives_or_fails p (chars offset s) with ⟨a, r, ha⟩ | hfails
  · obtain ⟨j, v, t, us, hv, hj, -⟩ := h _ a r ha
    obtain ⟨-, rfl⟩ := hu.unique hv
    rw [tokens_chars_nil] at hj
    cases hj
  · exact hfails

theorem mark_starts (k : Kind) : (mark k).Starts fun t => t.kind = k := (takes_token k).starts

theorem word_starts (w : String) : (word w).Starts fun t => t.isWord w = true :=
  (takes_satisfy fun _ h => h).starts

theorem name_starts : name.Starts fun t => t.kind = .identifier ∧ isReserved t.text = false := by
  refine (takes_single fun t a h => ?_).starts
  split at h
  · rename_i hname
    exact ⟨hname.1, by simpa using hname.2⟩
  · cases h

theorem anyName_starts : anyName.Starts fun t => t.kind = .identifier := by
  refine (takes_single fun t a h => ?_).starts
  split at h
  · assumption
  · cases h

theorem listed_starts (opening closing : Kind) (p : Parser α) :
    (listed opening closing p).Starts fun t => t.kind = opening :=
  ((mark_starts opening).before _).skip _

end

end MarkupTrace.Source.Grammar
