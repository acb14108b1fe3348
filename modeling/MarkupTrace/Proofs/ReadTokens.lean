import MarkupTrace.Proofs.PrintedTokens

/-!
# What tokens of a text hold

Tokens that were cut from a text are not any tokens: identifiers are spelled as such, a number has no
sign, and brackets and quotes are in no token but their own. So names, numbers, quoted texts and texts
between tags have the form that a printed one is expected to have.
-/

namespace MarkupTrace.Source

open Text

/-- The tokens of some text, wherever it stands. -/
def Lexed (ts : List Token) : Prop := ∃ offset cs, ts = tokensFrom offset cs

theorem lexed_tokenize (source : String) : Lexed (tokenize source) := ⟨0, source.toList, rfl⟩

theorem Lexed.suffix {ts us : List Token} (h : Lexed ts) (hus : us <:+ ts) : Lexed us := by
  obtain ⟨offset, cs, rfl⟩ := h
  obtain ⟨before, hbefore⟩ := hus
  obtain ⟨b, -, -, hb⟩ := tokensFrom_eq_append hbefore.symm
  exact ⟨_, b, hb.symm⟩

/-- The first token, and the text behind it. -/
theorem tokensFrom_eq_cons {offset : Nat} {b : List Char} {t : Token} {us : List Token}
    (h : tokensFrom offset b = t :: us) : ∃ c cs offset', b = c :: cs ∧ t.kind = (lexeme c cs).1 ∧
      t.text = String.ofList (c :: cs.take (lexeme c cs).2) ∧
      us = tokensFrom offset' (cs.drop (lexeme c cs).2) := by
  cases b with
  | nil =>
    rw [tokensFrom] at h
    cases h
  | cons c cs =>
    rw [tokensFrom_cons] at h
    obtain ⟨rfl, rfl⟩ := List.cons_eq_cons.mp h
    exact ⟨c, cs, _, rfl, rfl, rfl, rfl⟩

theorem Lexed.mem {ts : List Token} (h : Lexed ts) {t : Token} (ht : t ∈ ts) : ∃ c cs,
    t.kind = (lexeme c cs).1 ∧ t.text = String.ofList (c :: cs.take (lexeme c cs).2) := by
  obtain ⟨offset, b, rfl⟩ := h
  exact mem_tokensFrom ht

/-! ## Single tokens -/

theorem isIdentifierStart_of_lexeme {c : Char} {cs : List Char}
    (h : (lexeme c cs).1 = .identifier) : isIdentifierStart c = true := by
  unfold lexeme at h
  split at h
  case h_13 => split_ifs at h
  case h_14 => split_ifs at h
  case h_20 => split_ifs at h
  case h_21 =>
    split_ifs at h with _ hstart
    exact hstart
  all_goals cases h

theorem isDigit_of_lexeme {c : Char} {cs : List Char} (h : (lexeme c cs).1 = .number) :
    c.isDigit = true := by
  unfold lexeme at h
  split at h
  case h_13 => split_ifs at h
  case h_14 => split_ifs at h
  case h_20 => split_ifs at h
  case h_21 =>
    split_ifs at h with _ _ hdigit
    exact hdigit
  all_goals cases h

theorem Lexed.isIdentifier {ts : List Token} (h : Lexed ts) {t : Token} (ht : t ∈ ts)
    (hkind : t.kind = .identifier) : IsIdentifier t.text := by
  obtain ⟨c, cs, hk, htext⟩ := h.mem ht
  have hstart := isIdentifierStart_of_lexeme (hk.symm.trans hkind)
  refine ⟨c, _, by rw [htext, String.toList_ofList], hstart, ?_⟩
  rw [lexeme_of_isIdentifierStart hstart, take_length_takeWhile]
  exact fun x hx => List.mem_takeWhile_imp hx

/-- A character that stands alone is in no token but its own. -/
theorem Lexed.kind_of_mem {ts : List Token} (h : Lexed ts) {t : Token} (ht : t ∈ ts) {x : Char}
    (hx : StandsAlone x) {k : Kind} (hk : ∀ cs, (lexeme x cs).1 = k) (hmem : x ∈ t.text.toList) :
    t.kind = k := by
  obtain ⟨c, cs, hkind, htext⟩ := h.mem ht
  rw [htext, String.toList_ofList] at hmem
  rcases List.mem_cons.mp hmem with rfl | hmem
  · exact hkind.trans (hk cs)
  · exact absurd hmem (hx.not_mem cs)

/-- A number that starts with a digit has no sign. -/
theorem Double.ofText?_of_isDigit {c : Char} {cs : List Char} (hc : c.isDigit = true) {n : Double}
    (h : Double.ofText? (String.ofList (c :: cs)) = some n) (rank : Fin magnitudes) :
    n ≠ .finite true rank := by
  have hsign : Double.takeSign (c :: cs) = (false, c :: cs) := by
    unfold Double.takeSign
    split
    · rename_i heq
      cases heq
      exact absurd hc (by decide)
    · rename_i heq
      cases heq
      exact absurd hc (by decide)
    · rfl
  rintro rfl
  rw [Double.ofText?, String.toList_ofList, Double.ofChars?, hsign] at h
  dsimp only at h
  split_ifs at h
  · cases h
  · cases h
  unfold Double.readDecimal? at h
  simp only [Option.bind_eq_bind, Option.bind_eq_some_iff, Option.pure_def, Option.some.injEq] at h
  obtain ⟨_, -, _, -, h⟩ := h
  exact absurd (Decimal.sign_of_ofDecimal h) (by decide)

theorem numberLength_le (cs : List Char) : numberLength cs ≤ cs.length := by
  have hwhole := (List.takeWhile_sublist Char.isDigit (l := cs)).length_le
  unfold numberLength
  dsimp only
  split
  · rename_i rest hrest
    have hfraction := (List.takeWhile_sublist Char.isDigit (l := rest)).length_le
    have hlength := congrArg List.length hrest
    rw [List.length_drop, List.length_cons] at hlength
    split <;> omega
  · exact hwhole

theorem mem_textOf {ts : List Token} {x : Char} :
    x ∈ textOf ts ↔ ∃ t ∈ ts, x ∈ t.text.toList := List.mem_flatMap

/-! ## Parts of names -/

theorem EndsName.head {cs : List Char} (h : EndsName cs) :
    ∀ c ∈ cs.head?, c ∈ [' ', '>', '='] := by
  obtain ⟨c, rest, rfl, hc⟩ := h
  rintro x ⟨⟩
  exact hc

/-- Neither a further part nor what stands behind a name begins with a digit or a letter. -/
theorem Segments.head_append {rest behind : List Char} (h : Segments rest) (hb : EndsName behind) :
    ∀ c ∈ (rest ++ behind).head?, isIdentifierPart c = false := by
  cases h with
  | nil => exact Grammar.endsWord_of_endsName hb
  | cons hj =>
    rintro x ⟨⟩
    rcases hj with rfl | rfl <;> rfl

theorem isDigit_of_not_isIdentifierPart {c : Char} (h : isIdentifierPart c = false) :
    c.isDigit = false := by
  simp only [isIdentifierPart, Bool.or_eq_false_iff] at h
  exact h.2

theorem Segments.endsNumber {rest more behind : List Char} (h : Segments rest)
    (hmore : EndsNumber (rest ++ more)) (hb : EndsName behind) : EndsNumber (rest ++ behind) := by
  refine ⟨fun c hc => isDigit_of_not_isIdentifierPart (h.head_append hb c hc), ?_⟩
  intro d further heq
  cases h with
  | nil =>
    have hpoint := hb.head '.' (by rw [show behind = '.' :: d :: further from heq]; rfl)
    exact absurd hpoint (by decide)
  | cons =>
    cases heq
    exact hmore.2 d _ rfl

/-- A point or a hyphen between the parts of a name. -/
theorem lexeme_of_joint {t : Token} {c : Char} {cs : List Char} (hkind : t.kind = (lexeme c cs).1)
    (htext : t.text = String.ofList (c :: cs.take (lexeme c cs).2))
    (h : t.kind = .dot ∨ t.kind = .punctuation ∧ t.text = "-") :
    (c = '.' ∨ c = '-') ∧ (lexeme c cs).2 = 0 ∧ t.text = String.ofList [c] := by
  rcases h with h | ⟨-, h⟩
  · rw [hkind] at h
    have hdot : c = '.' ∧ (lexeme c cs).2 = 0 := by
      clear htext hkind
      unfold lexeme at h ⊢
      split at h
      case h_13 =>
        split_ifs at h ⊢
        exact ⟨rfl, rfl⟩
      case h_14 => split_ifs at h
      case h_20 => split_ifs at h
      case h_21 => split_ifs at h
      all_goals cases h
    rw [hdot.2] at htext
    exact ⟨.inl hdot.1, hdot.2, htext⟩
  · rw [h] at htext
    have hchars : ['-'] = c :: cs.take (lexeme c cs).2 :=
      (congrArg String.toList htext).trans String.toList_ofList
    obtain ⟨rfl, hnil⟩ := List.cons_eq_cons.mp hchars
    have hlexeme : lexeme '-' cs = (.punctuation, (cs.takeWhile isPunctuation).length) := rfl
    rw [hlexeme, take_length_takeWhile] at hnil
    rw [hlexeme, ← hnil]
    exact ⟨.inr rfl, rfl, h⟩

namespace Grammar

open Grammar.Parser

variable {ts : List Token}

/-! ## Names and numbers -/

theorem single_yieldsIn {α : Type} {accept : Token → Option α} {P : α → Prop}
    (h : ∀ t ∈ ts, ∀ a, accept t = some a → P a) : (single accept).YieldsIn ts P := by
  intro i a r hi ha
  obtain ⟨t, ht, haccept⟩ := gives_single.mp ha
  exact h t (hi.subset (ht ▸ List.mem_cons_self)) a haccept

theorem satisfy_yieldsIn (accept : Token → Bool) :
    (satisfy accept).YieldsIn ts fun t => t ∈ ts ∧ accept t = true := by
  intro i t r hi ht
  obtain ⟨htokens, haccept⟩ := gives_satisfy.mp ht
  exact ⟨hi.subset (htokens ▸ List.mem_cons_self), haccept⟩

theorem anyName_yieldsIn (hts : Lexed ts) : anyName.YieldsIn ts IsIdentifier := by
  refine .before _ (single_yieldsIn fun t ht a ha => ?_)
  split at ha
  · rename_i hkind
    cases ha
    exact hts.isIdentifier ht hkind
  · cases ha

theorem name_yieldsIn (hts : Lexed ts) : name.YieldsIn ts IsName := by
  refine .before _ (single_yieldsIn fun t ht a ha => ?_)
  split at ha
  · rename_i hname
    cases ha
    exact ⟨hts.isIdentifier ht hname.1, by simpa using hname.2⟩
  · cases ha

theorem number_yieldsIn (hts : Lexed ts) :
    Grammar.number.YieldsIn ts fun n => ∀ rank, n ≠ .finite true rank := by
  refine single_yieldsIn fun t ht n hn => ?_
  split at hn
  · rename_i hkind
    obtain ⟨c, cs, hk, htext⟩ := hts.mem ht
    rw [htext] at hn
    exact Double.ofText?_of_isDigit (isDigit_of_lexeme (hk.symm.trans hkind)) hn
  · cases hn

/-! ## Runs of tokens -/

theorem rawBy_yieldsIn (hts : Lexed ts) {quote : Kind} {x : Char} (hx : StandsAlone x)
    (hquote : ∀ cs, (lexeme x cs).1 = quote) : (rawBy quote).YieldsIn ts fun raw => x ∉ raw.toList := by
  refine .map (.skip (.before _ (satisfy_yieldsIn _).many) _) fun us hus hmem => ?_
  rw [toList_join, mem_textOf] at hmem
  obtain ⟨t, ht, hmem⟩ := hmem
  obtain ⟨hmemts, hkind⟩ := hus t ht
  rw [bne_iff_ne] at hkind
  exact hkind (hts.kind_of_mem hmemts hx hquote hmem)

theorem rawString_yieldsIn (hts : Lexed ts) :
    rawString.YieldsIn ts fun raw => '"' ∉ raw.toList ∨ '\'' ∉ raw.toList := by
  refine .orElse ?_ ?_
  · exact fun i a r hi h => .inl (rawBy_yieldsIn hts (by decide) (fun _ => rfl) i a r hi h)
  · exact fun i a r hi h => .inr (rawBy_yieldsIn hts (by decide) (fun _ => rfl) i a r hi h)

theorem markupText_yieldsIn (hts : Lexed ts) : markupText.YieldsIn ts fun c =>
    ∃ t, c = .text t ∧ t.raw ≠ "" ∧ ∀ x ∈ t.raw.toList, x ∉ ['<', '\x7b', '\x7d'] := by
  intro i c r hi h
  obtain ⟨us, hus, rfl⟩ := gives_map.mp h
  obtain ⟨u, m, us', hu, hrest, rfl⟩ := gives_many1.mp hus
  have hall : ∀ t ∈ u :: us', t ∈ ts ∧ (!t.endsText) = true := by
    refine List.forall_mem_cons.mpr ⟨satisfy_yieldsIn _ _ _ _ hi hu, ?_⟩
    exact (satisfy_yieldsIn _).many _ _ _ ((Leaves.suffix hu).trans hi) (gives_many.mpr hrest)
  refine ⟨_, rfl, ?_, fun x hx hends => ?_⟩
  · obtain ⟨c, cs, -, htext⟩ := hts.mem (hall u List.mem_cons_self).1
    intro hempty
    have hnil := congrArg String.toList hempty
    rw [toList_join, textOf_cons, htext, String.toList_ofList] at hnil
    cases hnil
  · rw [toList_join, mem_textOf] at hx
    obtain ⟨t, ht, hx⟩ := hx
    obtain ⟨hmem, hkind⟩ := hall t ht
    simp only [Token.endsText, Bool.not_eq_true', Bool.or_eq_false_iff, beq_eq_false_iff_ne] at hkind
    simp only [List.mem_cons, List.not_mem_nil, or_false] at hends
    rcases hends with rfl | rfl | rfl
    · exact hkind.1.1 (hts.kind_of_mem hmem (by decide) (fun _ => rfl) hx)
    · exact hkind.1.2 (hts.kind_of_mem hmem (by decide) (fun _ => rfl) hx)
    · exact hkind.2 (hts.kind_of_mem hmem (by decide) (fun _ => rfl) hx)

/-! ## Names of elements and attributes -/

/-- A part of a name is the same token whatever stands behind the name. -/
theorem lexeme_part {c : Char} {b rest more : List Char} {k : Kind}
    (hk : k = .identifier ∨ k = .number) (hlexeme : (lexeme c b).1 = k)
    (hb : b.drop (lexeme c b).2 = rest ++ more) (hrest : Segments rest) :
    isIdentifierPart c = true ∧ ∀ behind, EndsName behind →
      lexeme c (b.take (lexeme c b).2 ++ (rest ++ behind)) =
        (k, (b.take (lexeme c b).2).length) := by
  rcases hk with rfl | rfl
  · have hstart := isIdentifierStart_of_lexeme hlexeme
    refine ⟨by simp [isIdentifierPart, hstart], fun behind hbehind => ?_⟩
    rw [lexeme_of_isIdentifierStart hstart b, take_length_takeWhile]
    exact lexeme_identifier hstart (fun x hx => List.mem_takeWhile_imp hx)
      (hrest.head_append hbehind)
  · have hdigit := isDigit_of_lexeme hlexeme
    refine ⟨by simp [isIdentifierPart, hdigit], fun behind hbehind => ?_⟩
    have hlength : (lexeme c b).2 = numberLength b := by rw [lexeme_of_isDigit hdigit]
    rw [hlength] at hb ⊢
    have hsplit := List.take_append_drop (numberLength b) b
    rw [hb] at hsplit
    have htext : numberLength (b.take (numberLength b) ++ (rest ++ more)) =
        (b.take (numberLength b)).length := by
      rw [hsplit, List.length_take_of_le (numberLength_le b)]
    rw [lexeme_of_isDigit hdigit]
    rcases of_numberLength htext with ⟨hdigits, hends⟩ | ⟨ds, fs, heq, hds, hfs, hne, -⟩
    · rw [numberLength_whole hdigits (hrest.endsNumber hends hbehind)]
    · rw [heq, numberLength_fraction hds hfs hne fun x hx =>
        isDigit_of_not_isIdentifierPart (hrest.head_append hbehind x hx)]

/-- By induction on the parts, each a joint and a token. -/
theorem exists_segments_of_repeats {i r : Input} {parts : List (String × String)}
    (h : Repeats markupSegment i parts r) {offset : Nat} {b : List Char} (hi : i = chars offset b) :
    ∃ segments more, b = segments ++ more ∧ Segments segments ∧ ∀ done : String,
      parts.foldl (fun done (j, s) => done ++ j ++ s) done = done ++ String.ofList segments := by
  induction h generalizing offset b with
  | stop => exact ⟨[], b, rfl, .nil, fun done => String.append_empty.symm⟩
  | idle hgives hlt => exact absurd (Advances.left_lt hgives) hlt
  | @more i m r part parts hgives hlt hrest ih =>
    obtain ⟨joint, text⟩ := part
    obtain ⟨n, hjoint, htext⟩ := gives_both.mp hgives
    obtain ⟨j, hj, hjaccept⟩ := gives_single.mp hjoint
    obtain ⟨t, ht, htaccept⟩ := gives_single.mp htext
    rw [hi] at hj
    obtain ⟨x, cs, offset', rfl, hjkind, hjtext, hn⟩ := tokensFrom_eq_cons hj
    rw [hn] at ht
    obtain ⟨c, cs', offset'', hcs, htkind, httext, hm⟩ := tokensFrom_eq_cons ht
    obtain ⟨segments, more, hmore, hsegments, hfold⟩ := ih (Input.ext hm)
    split_ifs at hjaccept htaccept with hor hk
    cases hjaccept
    cases htaccept
    obtain ⟨hx, hzero, hsingle⟩ := lexeme_of_joint hjkind hjtext hor
    rw [hzero, List.drop_zero] at hcs
    subst hcs
    obtain ⟨hc, hlexeme⟩ := lexeme_part hk htkind.symm hmore hsegments
    refine ⟨_, more, ?_, .cons hx hc hk hlexeme hsegments, fun done => ?_⟩
    · rw [List.cons_append, List.cons_append, List.append_assoc, ← hmore, List.take_append_drop]
    · rw [List.foldl_cons, hfold]
      show done ++ j.text ++ t.text ++ String.ofList segments = _
      rw [hsingle, httext]
      simp only [String.append_assoc, ← String.ofList_append]
      rfl

theorem markupName_yieldsIn (hts : Lexed ts) : markupName.YieldsIn ts IsMarkupName := by
  intro i s r hi h
  obtain ⟨⟨first, parts⟩, hboth, rfl⟩ := gives_map.mp h
  obtain ⟨m, hhead, hparts⟩ := gives_both.mp hboth
  obtain ⟨t, ht, haccept⟩ := gives_single.mp hhead
  obtain ⟨offset, b, hb⟩ := hts.suffix hi
  obtain ⟨c, cs, offset', -, hkind, htext, hm⟩ := tokensFrom_eq_cons (hb.symm.trans ht)
  split_ifs at haccept with hidentifier
  cases haccept
  obtain ⟨segments, more, -, hsegments, hfold⟩ :=
    exists_segments_of_repeats (gives_many.mp hparts) (Input.ext hm)
  have hstart := isIdentifierStart_of_lexeme (hkind.symm.trans hidentifier)
  rw [lexeme_of_isIdentifierStart hstart, take_length_takeWhile] at htext
  refine ⟨c, cs.takeWhile isIdentifierPart, segments, ?_, hstart,
    fun x hx => List.mem_takeWhile_imp hx, hsegments⟩
  refine (congrArg String.toList (hfold t.text)).trans ?_
  rw [htext, String.toList_append, String.toList_ofList, String.toList_ofList, List.cons_append]

end Grammar

end MarkupTrace.Source
