import MarkupTrace.Proofs.FirstTokens
import MarkupTrace.Proofs.TreeNodes
import MarkupTrace.Proofs.WrittenNumbers

/-!
# Printed tokens

Marks, words, names, numbers and strings are read as they were printed, whatever stands behind them
that does not belong to them.
-/

namespace MarkupTrace.Source.Grammar

open Text Grammar.Parser

/-! ## Marks -/

theorem lexeme_of_character {k : Kind} {c : Char} (h : k.character? = some c) (cs : List Char) :
    lexeme c cs = (k, 0) := by
  cases k <;> cases h <;> rfl

theorem solid_of_character {k : Kind} {c : Char} (h : k.character? = some c) (hk : k ≠ .slash)
    (cs : List Char) : Solid (c :: cs) := by
  refine solid_cons (lexeme_of_character h cs) ?_
  simp only [List.mem_cons, List.not_mem_nil, or_false, not_or]
  refine ⟨?_, ?_, hk⟩ <;> rintro rfl <;> cases h

theorem token_consumes {k : Kind} {c : Char} (h : k.character? = some c) (cs : List Char) :
    (token k).Consumes (c :: cs) cs fun _ => True :=
  (consumes_token (t := []) (lexeme_of_character h cs)).mono fun _ _ => trivial

theorem mark_consumes_of_solid {k : Kind} {c : Char} (h : k.character? = some c) {cs : List Char}
    (hs : Solid (c :: cs)) : (mark k).Consumes (c :: cs) cs fun _ => True :=
  hs.skips.before (token_consumes h cs)

theorem mark_consumes {k : Kind} {c : Char} (h : k.character? = some c) (hk : k ≠ .slash)
    (cs : List Char) : (mark k).Consumes (c :: cs) cs fun _ => True :=
  mark_consumes_of_solid h (solid_of_character h hk cs)

theorem front_character {k : Kind} {c : Char} (h : k.character? = some c) (hk : k ≠ .slash)
    (cs : List Char) : Front (c :: cs) fun t => t.kind = k :=
  (solid_of_character h hk cs).skips.front (t := []) (lexeme_of_character h cs) fun _ => rfl

theorem Solid.skips_space {s : List Char} (h : Solid s) : Skips (' ' :: s) s :=
  skips_append (b := [' ']) (by simp) h

/-- A mark of any length. -/
theorem mark_consumes_lexeme {k : Kind} {c : Char} {t cs : List Char}
    (h : lexeme c (t ++ cs) = (k, t.length)) (hk : k ∉ [.blanks, .newline, .slash]) :
    (mark k).Consumes (c :: (t ++ cs)) cs fun _ => True :=
  (solid_cons h hk).skips.before ((consumes_token h).mono fun _ _ => trivial)

theorem mark_dot_consumes {c : Char} (h : c ≠ '.') (cs : List Char) :
    (mark .dot).Consumes ('.' :: c :: cs) (c :: cs) fun _ => True :=
  mark_consumes_lexeme (t := []) (if_neg (by simp [h])) (by decide)

theorem mark_equals_consumes {c : Char} (h : c ≠ '>') (cs : List Char) :
    (mark .equals).Consumes ('=' :: c :: cs) (c :: cs) fun _ => True :=
  mark_consumes_lexeme (t := []) (if_neg (by simp [h])) (by decide)

theorem mark_arrow_consumes (cs : List Char) :
    (mark .arrow).Consumes ('=' :: '>' :: cs) cs fun _ => True :=
  mark_consumes_lexeme (t := ['>']) rfl (by decide)

theorem mark_ellipsis_consumes (cs : List Char) :
    (mark .ellipsis).Consumes ('.' :: '.' :: '.' :: cs) cs fun _ => True :=
  mark_consumes_lexeme (t := ['.', '.']) rfl (by decide)

theorem front_ellipsis (cs : List Char) :
    Front ('.' :: '.' :: '.' :: cs) fun t => t.kind = .ellipsis :=
  (solid_cons (k := .ellipsis) rfl (by decide)).skips.front (t := ['.', '.']) rfl fun _ => rfl

/-! ## Words and names -/

/-- What can stand behind a word. -/
def EndsWord (cs : List Char) : Prop := ∀ c ∈ cs.head?, isIdentifierPart c = false

section

variable {s : String} {rest : List Char}

/-- An identifier is one token. -/
theorem exists_lexeme_identifier (h : IsIdentifier s) (hrest : EndsWord rest) :
    ∃ c cs, s.toList = c :: cs ∧ lexeme c (cs ++ rest) = (.identifier, cs.length) ∧
      String.ofList (c :: cs) = s := by
  obtain ⟨c, cs, hs, hc, hcs⟩ := h
  exact ⟨c, cs, hs, lexeme_identifier hc hcs hrest, by rw [← hs, String.ofList_toList]⟩

theorem solid_identifier (h : IsIdentifier s) (hrest : EndsWord rest) : Solid (s.toList ++ rest) := by
  obtain ⟨c, cs, hs, hlexeme, -⟩ := exists_lexeme_identifier h hrest
  rw [hs]
  exact solid_cons hlexeme (by decide)

theorem front_identifier (h : IsIdentifier s) (hrest : EndsWord rest) :
    Front (s.toList ++ rest) fun t => t.kind = .identifier ∧ t.text = s := by
  have hsolid := solid_identifier h hrest
  obtain ⟨c, cs, hs, hlexeme, htext⟩ := exists_lexeme_identifier h hrest
  rw [hs] at hsolid ⊢
  exact hsolid.skips.front hlexeme fun _ => ⟨rfl, htext⟩

/-- Parsers of a single identifier token. -/
theorem identifier_consumes {α : Type} {accept : Token → Option α} {P : α → Prop} (h : IsIdentifier s)
    (hrest : EndsWord rest) (ha : ∀ span, ∃ a, P a ∧ accept ⟨.identifier, s, span⟩ = some a) :
    (trivia.before (single accept)).Consumes (s.toList ++ rest) rest P := by
  have hsolid := solid_identifier h hrest
  obtain ⟨c, cs, hs, hlexeme, htext⟩ := exists_lexeme_identifier h hrest
  rw [hs] at hsolid ⊢
  refine hsolid.skips.before (consumes_single hlexeme fun span => ?_)
  rw [htext]
  exact ha span

theorem anyName_consumes (h : IsIdentifier s) (hrest : EndsWord rest) :
    anyName.Consumes (s.toList ++ rest) rest (· = s) :=
  identifier_consumes h hrest fun _ => ⟨s, rfl, if_pos rfl⟩

theorem name_consumes (h : IsName s) (hrest : EndsWord rest) :
    name.Consumes (s.toList ++ rest) rest (· = s) :=
  identifier_consumes h.1 hrest fun _ => ⟨s, rfl, if_pos ⟨rfl, by simp [h.2]⟩⟩

theorem word_consumes (h : IsIdentifier s) (hrest : EndsWord rest) :
    (word s).Consumes (s.toList ++ rest) rest fun _ => True :=
  identifier_consumes h hrest fun span => ⟨_, trivial, if_pos (by simp [Token.isWord])⟩

end

/-! ## Numbers -/

/-- A numeral is one token. -/
theorem lexeme_numeral {whole fraction rest : List Char} (hne : whole ≠ [])
    (hwhole : ∀ c ∈ whole, c.isDigit = true) (hfraction : ∀ c ∈ fraction, c.isDigit = true)
    (hrest : EndsNumber rest) : ∃ c text, Double.numeral whole fraction = c :: text ∧
      lexeme c (text ++ rest) = (.number, text.length) := by
  cases whole with
  | nil => exact absurd rfl hne
  | cons c ds =>
    rw [List.forall_mem_cons] at hwhole
    unfold Double.numeral
    split
    · refine ⟨c, ds, rfl, ?_⟩
      rw [lexeme_of_isDigit hwhole.1, numberLength_whole hwhole.2 hrest]
    · rename_i hf
      refine ⟨c, ds ++ '.' :: fraction, rfl, ?_⟩
      rw [lexeme_of_isDigit hwhole.1, numberLength_fraction hwhole.2 hfraction hf hrest.1]

theorem number_consumes (r : Fin magnitudes) {rest : List Char} (hrest : EndsNumber rest) :
    Grammar.number.Consumes ((printNumber (.finite false r)).toList ++ rest) rest
      (· = .finite false r) := by
  obtain ⟨whole, fraction, hcs, hne, hwhole, hfraction, hread⟩ := writtenAs_printNumber r
  obtain ⟨c, text, htext, hlexeme⟩ := lexeme_numeral hne hwhole hfraction hrest
  rw [hcs, htext] at hread ⊢
  refine consumes_single hlexeme fun span => ⟨_, rfl, ?_⟩
  rw [if_pos rfl, Double.ofText?, String.toList_ofList]
  exact hread

theorem front_number (r : Fin magnitudes) {rest : List Char} (hrest : EndsNumber rest) :
    Solid ((printNumber (.finite false r)).toList ++ rest) ∧
      Front ((printNumber (.finite false r)).toList ++ rest) fun t => t.kind = .number := by
  obtain ⟨whole, fraction, hcs, hne, hwhole, hfraction, -⟩ := writtenAs_printNumber r
  obtain ⟨c, text, htext, hlexeme⟩ := lexeme_numeral hne hwhole hfraction hrest
  rw [hcs, htext]
  have hsolid : Solid (c :: (text ++ rest)) := solid_cons hlexeme (by decide)
  exact ⟨hsolid, hsolid.skips.front hlexeme fun _ => rfl⟩

/-! ## Strings -/

theorem quoteChar_cases (c : Char) : (∃ more, quoteChar c = '\\' :: more) ∨ quoteChar c = [c] := by
  have hstep : ∀ {p : Prop} [Decidable p] {code cs : List Char},
      (∃ more, cs = '\\' :: more) ∨ cs = [c] →
        (∃ more, (if p then '\\' :: code else cs) = '\\' :: more) ∨
          (if p then '\\' :: code else cs) = [c] := by
    intro p _ code cs h
    split
    · exact .inl ⟨code, rfl⟩
    · exact h
  unfold quoteChar
  iterate 8 apply hstep
  exact .inr rfl

/-- A control that is printed with a code which is not read as one. -/
def IsCoded (c : Char) : Prop := c.toNat < 0x20 ∧ c ∉ ['\t', '\n', '\r']

instance (c : Char) : Decidable (IsCoded c) := inferInstanceAs (Decidable (_ ∧ _))

/-- What a printed character is read as. A code is read as its letters and digits. -/
def rereadChar (c : Char) : List Char := if IsCoded c then (quoteChar c).tail else [c]

/-- What a printed string is read as. -/
def reread (s : String) : String := String.ofList (s.toList.flatMap rereadChar)

/-- A code begins with a letter that stands for itself behind a backslash. -/
theorem exists_code {c : Char} (h : IsCoded c) : ∃ x more, quoteChar c = '\\' :: x :: more ∧ x ≠ c ∧
    isIdentifierStart x = true ∧ unescapeChar x = x ∧ ∀ y ∈ more, quoteChar y = [y] := by
  obtain ⟨hlow, hread⟩ := h
  simp only [List.mem_cons, List.not_mem_nil, or_false, not_or] at hread
  have hne : ∀ x : Char, 0x20 ≤ x.toNat → c ≠ x := by
    rintro x hx rfl
    omega
  have hdigit : ∀ n < 16, quoteChar (hexDigit n) = [hexDigit n] := by decide
  by_cases hback : c = '\x08'
  · subst hback
    exact ⟨'b', [], rfl, by decide, rfl, rfl, nofun⟩
  by_cases hform : c = '\x0c'
  · subst hform
    exact ⟨'f', [], rfl, by decide, rfl, rfl, nofun⟩
  refine ⟨'u', ['0', '0', hexDigit (c.toNat / 16), hexDigit (c.toNat % 16)], ?_,
    (hne 'u' (by decide)).symm, rfl, rfl, ?_⟩
  · rw [quoteChar, if_neg (hne '"' (by decide)), if_neg (hne '\\' (by decide)), if_neg hread.2.1,
      if_neg hread.2.2, if_neg hread.1, if_neg hback, if_neg hform, if_pos hlow]
  · simp only [List.forall_mem_cons]
    exact ⟨rfl, rfl, hdigit _ (by omega), hdigit _ (by omega), nofun⟩

theorem rereadChar_of_quoteChar {c : Char} (h : quoteChar c = [c]) : rereadChar c = [c] := by
  refine if_neg fun hcoded => ?_
  obtain ⟨x, more, hcode, -⟩ := exists_code hcoded
  rw [hcode] at h
  cases h

theorem flatMap_eq_self {f : Char → List Char} {cs : List Char} (h : ∀ c ∈ cs, f c = [c]) :
    cs.flatMap f = cs := by
  rw [List.flatMap_congr h, List.flatMap_singleton']

/-- A token of a printed string that has neither quotes nor backslashes stands for itself. -/
theorem take_quoted {s r : List Char} {n : Nat}
    (hn : ∀ c ∈ (s.flatMap quoteChar ++ '"' :: r).take n, c ≠ '"' ∧ c ≠ '\\') :
    n ≤ s.length ∧ (s.flatMap quoteChar ++ '"' :: r).take n = s.take n ∧
      (s.flatMap quoteChar ++ '"' :: r).drop n = (s.drop n).flatMap quoteChar ++ '"' :: r ∧
      ∀ c ∈ s.take n, quoteChar c = [c] := by
  induction s generalizing n with
  | nil =>
    cases n with
    | zero => exact ⟨Nat.le_refl 0, rfl, rfl, nofun⟩
    | succ n => exact absurd rfl (hn '"' List.mem_cons_self).1
  | cons c s ih =>
    cases n with
    | zero => exact ⟨Nat.zero_le _, rfl, rfl, nofun⟩
    | succ n =>
      rw [List.flatMap_cons, List.append_assoc] at hn ⊢
      rcases quoteChar_cases c with ⟨more, hc⟩ | hc
      · rw [hc] at hn
        exact absurd rfl (hn '\\' List.mem_cons_self).2
      · rw [hc] at hn ⊢
        rw [List.singleton_append, List.take_succ_cons, List.forall_mem_cons] at hn
        obtain ⟨hle, htake, hdrop, hplain⟩ := ih hn.2
        rw [List.singleton_append, List.take_succ_cons, List.drop_succ_cons, List.take_succ_cons,
          List.drop_succ_cons, htake, hdrop]
        exact ⟨Nat.succ_le_succ hle, rfl, rfl, List.forall_mem_cons.mpr ⟨hc, hplain⟩⟩

/-- One part of a string: an escaped token, or one that stands for itself. -/
def stringPart (quote : Kind) : Parser String :=
  escaped.orElse ((satisfy fun t => t.kind != quote && t.kind != .backslash && t.kind != .newline).map
    Token.text)

instance (quote : Kind) : Advances (stringPart quote) := by
  unfold stringPart escaped
  infer_instance

instance (quote : Kind) : Leaves (stringPart quote) := by
  unfold stringPart escaped
  infer_instance

/-- A token inside a printed string, as many characters as it takes. -/
theorem exists_quoted_token {c : Char} {s r : List Char} {k : Kind}
    (hk : (lexeme c (s.flatMap quoteChar ++ '"' :: r)).1 = k) : ∃ n,
      s.flatMap quoteChar ++ '"' :: r =
        s.take n ++ ((s.drop n).flatMap quoteChar ++ '"' :: r) ∧
      lexeme c (s.take n ++ ((s.drop n).flatMap quoteChar ++ '"' :: r)) =
        (k, (s.take n).length) ∧
      s.take n ++ (s.drop n).flatMap rereadChar = s.flatMap rereadChar := by
  obtain ⟨hle, htake, hdrop, hplain⟩ := take_quoted (s := s) (r := r)
    (n := (lexeme c (s.flatMap quoteChar ++ '"' :: r)).2) fun x hx => by
      constructor <;> rintro rfl
      · exact StandsAlone.not_mem (by decide) _ hx
      · exact StandsAlone.not_mem (by decide) _ hx
  have hsplit := List.take_append_drop (lexeme c (s.flatMap quoteChar ++ '"' :: r)).2
    (s.flatMap quoteChar ++ '"' :: r)
  rw [htake, hdrop] at hsplit
  refine ⟨_, hsplit.symm, ?_, ?_⟩
  · rw [hsplit, List.length_take_of_le hle, ← hk]
  · conv_lhs =>
      rw [← flatMap_eq_self fun c hc => rereadChar_of_quoteChar (hplain c hc)]
    rw [← List.flatMap_append, List.take_append_drop]

theorem escaped_takes : escaped.Takes fun t => t.kind = .backslash :=
  ((takes_token .backslash).before _).map _

theorem escaped_consumes {c : Char} {t rest : List Char} {k : Kind}
    (h : lexeme c (t ++ rest) = (k, t.length)) (hk : k ≠ .newline) :
    escaped.Consumes ('\\' :: c :: (t ++ rest)) rest fun p => p.toList = unescapeChar c :: t := by
  refine .map ((token_consumes (k := .backslash) rfl _).before (consumes_satisfy h fun span => ?_))
    fun t ht => ?_
  · simpa using hk
  · rw [ht.2, String.toList_ofList, String.toList_ofList]
    rfl

/-- What stands in a string from a place on: a part of it is read, and what is left stands for the
rest. -/
def PartReads (cs rest s : List Char) : Prop := ∃ u : List Char,
  (u.flatMap quoteChar).length < cs.length ∧
    (stringPart .doubleQuote).Consumes (cs ++ '"' :: rest) (u.flatMap quoteChar ++ '"' :: rest)
      fun p => p.toList ++ u.flatMap rereadChar = s

/-- The letter of an escape, with the token that it begins. -/
theorem letter_reads {x : Char} (hx : isIdentifierStart x = true) (s rest : List Char) :
    PartReads ('\\' :: x :: s.flatMap quoteChar) rest (unescapeChar x :: s.flatMap rereadChar) := by
  obtain ⟨n, hsplit, hlexeme, hreread⟩ := exists_quoted_token (c := x) (s := s) (r := rest)
    (k := .identifier) (by rw [lexeme_of_isIdentifierStart hx])
  have hlength := congrArg List.length hsplit
  simp only [List.length_append, List.length_cons] at hlength
  refine ⟨s.drop n, by simp only [List.length_cons]; omega, ?_⟩
  rw [List.cons_append, List.cons_append, hsplit]
  refine .orElse_left ((escaped_consumes hlexeme nofun).mono fun p hp => ?_) _
  rw [hp, List.cons_append, hreread]

/-- A character that is escaped by itself. -/
theorem escaped_reads {c : Char} {k : Kind} (hk : k.character? = some c) (hnewline : k ≠ .newline)
    (hself : unescapeChar c = c) (s rest : List Char) :
    PartReads ('\\' :: c :: s.flatMap quoteChar) rest (c :: s.flatMap rereadChar) := by
  refine ⟨s, by simp only [List.length_cons]; omega, .orElse_left ?_ _⟩
  refine (escaped_consumes (t := []) (lexeme_of_character hk _) hnewline).mono fun p hp => ?_
  rw [hp, hself]
  rfl

/-- A character that stands for itself, with the token that it begins. -/
theorem plain_reads {c : Char} (hquote : c ≠ '"') (hbackslash : c ≠ '\\') (hfeed : c ≠ '\n')
    (hreturn : c ≠ '\r') (s rest : List Char) :
    PartReads (c :: s.flatMap quoteChar) rest (c :: s.flatMap rereadChar) := by
  obtain ⟨n, hsplit, hlexeme, hreread⟩ := exists_quoted_token (c := c) (s := s) (r := rest) rfl
  have hkind : (lexeme c (s.flatMap quoteChar ++ '"' :: rest)).1 ∉
      [.doubleQuote, .backslash, .newline] := by
    simp only [List.mem_cons, List.not_mem_nil, or_false, not_or]
    refine ⟨fun h => hquote ?_, fun h => hbackslash ?_, fun h => ?_⟩
    · exact (lexeme_character (x := '"') (by rw [h]; rfl)).1
    · exact (lexeme_character (x := '\\') (by rw [h]; rfl)).1
    · exact (lexeme_newline h).elim hfeed hreturn
  have hlength := congrArg List.length hsplit
  simp only [List.length_append, List.length_cons] at hlength
  refine ⟨s.drop n, by simp only [List.length_cons]; omega, ?_⟩
  rw [List.cons_append, hsplit]
  generalize (lexeme c (s.flatMap quoteChar ++ '"' :: rest)).1 = k at hlexeme hkind
  simp only [List.mem_cons, List.not_mem_nil, or_false, not_or] at hkind
  refine .orElse_right (.map (consumes_satisfy hlexeme fun span => ?_) fun t ht => ?_) ?_
  · simpa using ⟨⟨hkind.1, hkind.2.1⟩, hkind.2.2⟩
  · rw [ht.2, String.toList_ofList, List.cons_append, hreread]
  · refine escaped_takes.refuses fun t ht => ?_
    rw [ht, hlexeme]
    exact hkind.2.1

theorem quoteChar_of_plain {c : Char} (hcoded : ¬ IsCoded c) (hquote : c ≠ '"')
    (hbackslash : c ≠ '\\') (hfeed : c ≠ '\n') (hreturn : c ≠ '\r') (htab : c ≠ '\t') :
    quoteChar c = [c] := by
  have hlow : ¬ c.toNat < 0x20 := fun hlow => hcoded ⟨hlow, by simp [hfeed, hreturn, htab]⟩
  unfold quoteChar
  rw [if_neg hquote, if_neg hbackslash, if_neg hfeed, if_neg hreturn, if_neg htab, if_neg, if_neg,
    if_neg hlow]
  · rintro rfl
    exact hlow (by decide)
  · rintro rfl
    exact hlow (by decide)

/-- By the sort of the character: a quote or backslash is escaped by itself, some controls by a letter,
others have a code, and all else stands for itself. -/
theorem stringPart_consumes (c : Char) (s rest : List Char) :
    PartReads (quoteChar c ++ s.flatMap quoteChar) rest (rereadChar c ++ s.flatMap rereadChar) := by
  by_cases hcoded : IsCoded c
  · obtain ⟨x, more, hcode, -, hx, hescaped, hplain⟩ := exists_code hcoded
    have hreads := letter_reads hx (more ++ s) rest
    rw [List.flatMap_append, List.flatMap_append, flatMap_eq_self hplain,
      flatMap_eq_self fun y hy => rereadChar_of_quoteChar (hplain y hy), hescaped] at hreads
    rw [rereadChar, if_pos hcoded, hcode]
    exact hreads
  rw [rereadChar, if_neg hcoded]
  by_cases hquote : c = '"'
  · subst hquote
    exact escaped_reads (k := .doubleQuote) rfl nofun rfl s rest
  by_cases hbackslash : c = '\\'
  · subst hbackslash
    exact escaped_reads (k := .backslash) rfl nofun rfl s rest
  by_cases hfeed : c = '\n'
  · subst hfeed
    exact letter_reads (x := 'n') rfl s rest
  by_cases hreturn : c = '\r'
  · subst hreturn
    exact letter_reads (x := 'r') rfl s rest
  by_cases htab : c = '\t'
  · subst htab
    exact letter_reads (x := 't') rfl s rest
  rw [quoteChar_of_plain hcoded hquote hbackslash hfeed hreturn htab]
  exact plain_reads hquote hbackslash hfeed hreturn s rest

theorem stringParts_consumes (s rest : List Char) :
    (stringPart .doubleQuote).many.Consumes (s.flatMap quoteChar ++ '"' :: rest) ('"' :: rest)
      fun parts => (String.join parts).toList = s.flatMap rereadChar := by
  suffices ∀ n (s : List Char), (s.flatMap quoteChar).length = n →
      (stringPart .doubleQuote).many.Consumes (s.flatMap quoteChar ++ '"' :: rest) ('"' :: rest)
        fun parts => (String.join parts).toList = s.flatMap rereadChar from this _ s rfl
  intro n
  induction n using Nat.strongRecOn with
  | ind n ih =>
    rintro s rfl
    cases s with
    | nil =>
      refine Consumes.mono (Refuses.many ?_) ?_
      · refine .orElse (escaped_takes.refuses fun t ht => ?_) (.map ?_ _)
        · rw [ht]
          exact nofun
        · refine Takes.refuses (S := fun t => t.kind ≠ .doubleQuote) ?_ fun t ht => ?_
          · exact takes_satisfy fun t ht => by simp_all
          · rw [ht]
            exact not_not.mpr rfl
      · rintro _ rfl
        rfl
    | cons c s =>
      obtain ⟨u, hlength, hpart⟩ := stringPart_consumes c s rest
      have hrest := ih _ (by rwa [List.flatMap_cons]) u rfl
      rw [List.flatMap_cons, List.flatMap_cons]
      refine (hpart.many_cons hrest).mono ?_
      rintro _ ⟨p, parts, rfl, hp, hparts⟩
      rw [String.join_cons, String.toList_append, hparts, hp]

theorem string_rereads (s : String) (rest : List Char) :
    Grammar.string.Consumes ((Text.quote s).toList ++ rest) rest (·.1 = reread s) := by
  have htext : (Text.quote s).toList ++ rest =
      '"' :: (s.toList.flatMap quoteChar ++ '"' :: rest) := by
    unfold Text.quote
    rw [String.toList_ofList, List.cons_append, List.cons_append, List.append_assoc]
    rfl
  rw [htext]
  refine .orElse_left (.map (((token_consumes (k := .doubleQuote) rfl _).both
    (stringParts_consumes s.toList rest)).both (token_consumes (k := .doubleQuote) rfl rest)) ?_) _
  rintro ⟨⟨opening, parts⟩, closing⟩ ⟨⟨-, hparts⟩, -⟩
  exact String.toList_inj.mp (hparts.trans String.toList_ofList.symm)

theorem quotable_iff {s : String} : Quotable s ↔ ∀ c ∈ s.toList, ¬ IsCoded c := by
  refine forall₂_congr fun c _ => ?_
  simp only [IsCoded, List.mem_cons, List.not_mem_nil, or_false, not_and_not_right]

/-- A string is read as printed if it has no code; at the first code the two differ. -/
theorem reread_eq_iff {s : String} : reread s = s ↔ Quotable s := by
  rw [quotable_iff, ← String.toList_inj, reread, String.toList_ofList]
  refine ⟨fun h => ?_, fun h => flatMap_eq_self fun c hc => if_neg (h c hc)⟩
  generalize s.toList = cs at h
  induction cs with
  | nil => exact nofun
  | cons c cs ih =>
    by_cases hcoded : IsCoded c
    · obtain ⟨x, more, hcode, hx, -⟩ := exists_code hcoded
      rw [List.flatMap_cons, rereadChar, if_pos hcoded, hcode, List.tail_cons, List.cons_append] at h
      exact absurd (List.cons_eq_cons.mp h).1 hx
    · rw [List.flatMap_cons, rereadChar, if_neg hcoded, List.singleton_append] at h
      exact List.forall_mem_cons.mpr ⟨hcoded, ih (List.cons_eq_cons.mp h).2⟩

example : reread "\x08\x1f" = "bu001f" := by decide

theorem string_consumes {s : String} (hs : Quotable s) (rest : List Char) :
    Grammar.string.Consumes ((Text.quote s).toList ++ rest) rest (·.1 = s) := by
  have hread := string_rereads s rest
  rwa [reread_eq_iff.mpr hs] at hread

theorem front_string (s : String) (rest : List Char) :
    Front ((Text.quote s).toList ++ rest) fun t => t.kind = .doubleQuote := by
  unfold Text.quote
  rw [String.toList_ofList]
  exact front_character (k := .doubleQuote) rfl (by decide) _

/-! ## Runs of tokens -/

/-- Tokens that do not begin with `x` are taken up to it. -/
theorem many_satisfy_consumes {accept : Token → Bool} {x : Char} (hx : StandsAlone x)
    {cs rest : List Char} (haccept : ∀ t c more, c ∈ cs → t.kind = (lexeme c more).1 → accept t = true)
    (hstop : (satisfy accept).Refuses (x :: rest)) :
    (satisfy accept).many.Consumes (cs ++ x :: rest) (x :: rest)
      fun ts => String.join (ts.map Token.text) = String.ofList cs := by
  suffices ∀ n (cs : List Char), cs.length = n →
      (∀ t c more, c ∈ cs → t.kind = (lexeme c more).1 → accept t = true) →
      (satisfy accept).many.Consumes (cs ++ x :: rest) (x :: rest)
        fun ts => String.join (ts.map Token.text) = String.ofList cs from this _ cs rfl haccept
  intro n
  induction n using Nat.strongRecOn with
  | ind n ih =>
    rintro cs rfl haccept
    cases cs with
    | nil =>
      refine hstop.many.mono ?_
      rintro _ rfl
      rfl
    | cons c cs =>
      have hle := hx.le_length (c := c) cs rest
      have hsplit := List.take_append_drop (lexeme c (cs ++ x :: rest)).2 cs
      have hlexeme : lexeme c (cs.take (lexeme c (cs ++ x :: rest)).2 ++
          (cs.drop (lexeme c (cs ++ x :: rest)).2 ++ x :: rest)) =
          ((lexeme c (cs ++ x :: rest)).1, (cs.take (lexeme c (cs ++ x :: rest)).2).length) := by
        rw [← List.append_assoc, hsplit, List.length_take_of_le hle]
      generalize hlex : lexeme c (cs ++ x :: rest) = l at *
      have hrest := ih (cs.drop l.2).length (by rw [List.length_drop, List.length_cons]; omega) _ rfl
        fun t d more hd => haccept t d more (List.mem_cons_of_mem c (List.mem_of_mem_drop hd))
      have htoken := consumes_satisfy (f := accept) hlexeme fun span =>
        haccept _ c (cs ++ x :: rest) List.mem_cons_self (by rw [hlex])
      rw [List.cons_append, ← hsplit, List.append_assoc]
      refine (htoken.many_cons hrest).mono ?_
      rintro _ ⟨t, ts, rfl, ⟨-, htext⟩, hts⟩
      rw [List.map_cons, String.join_cons, htext, hts, ← String.ofList_append, List.cons_append]

theorem rawBy_consumes {q : Kind} {x : Char} (hquote : q.character? = some x)
    (hx : StandsAlone x) {raw : String} (hraw : x ∉ raw.toList) (rest : List Char) :
    (rawBy q).Consumes (x :: (raw.toList ++ x :: rest)) rest (· = raw) := by
  refine .map (((token_consumes hquote _).before (many_satisfy_consumes hx ?_ ?_)).skip
    (token_consumes hquote rest)) ?_
  · intro t c more hc ht
    rw [ht, bne_iff_ne]
    rintro rfl
    exact hraw ((lexeme_character hquote).1 ▸ hc)
  · refine Takes.refuses (S := fun t => t.kind ≠ q) (takes_satisfy fun t ht => by simpa using ht) ?_
    intro t ht
    rw [ht, lexeme_of_character hquote]
    exact not_not.mpr rfl
  · intro ts hts
    rw [hts, String.ofList_toList]

theorem rawString_consumes {raw : String} (h : '"' ∉ raw.toList ∨ '\'' ∉ raw.toList)
    (rest : List Char) : rawString.Consumes ((printRaw raw).toList ++ rest) rest (· = raw) := by
  have htext : ∀ quote : String, (quote ++ raw ++ quote).toList ++ rest =
      quote.toList ++ (raw.toList ++ (quote.toList ++ rest)) := by
    intro quote
    simp
  unfold printRaw
  dsimp only
  rw [htext]
  split
  · rename_i hdouble
    rw [List.contains_iff_mem] at hdouble
    have hsingle := h.resolve_left (not_not.mpr hdouble)
    refine .orElse_right (rawBy_consumes (q := .singleQuote) rfl (by decide) hsingle rest) ?_
    refine Takes.refuses (S := fun t => t.kind = .doubleQuote) ?_ ?_
    · exact (((takes_token .doubleQuote).before _).skip _).map _
    · intro t ht
      rw [ht]
      exact nofun
  · rename_i hdouble
    rw [List.contains_iff_mem] at hdouble
    exact .orElse_left (rawBy_consumes (q := .doubleQuote) rfl (by decide) hdouble rest) _

/-! ## Names of elements and attributes -/

theorem endsWord_of_endsName {rest : List Char} (h : EndsName rest) : EndsWord rest := by
  obtain ⟨c, more, rfl, hc⟩ := h
  rintro x ⟨⟩
  simp only [List.mem_cons, List.not_mem_nil, or_false] at hc
  rcases hc with rfl | rfl | rfl <;> rfl

/-- Between the parts of a name stand single points and hyphens. -/
theorem lexeme_joint {j c : Char} (hj : j = '.' ∨ j = '-') (hc : isIdentifierPart c = true)
    (cs : List Char) : lexeme j (c :: cs) = (if j = '.' then .dot else .punctuation, 0) := by
  rcases hj with rfl | rfl
  · refine if_neg ?_
    intro heq
    obtain ⟨rfl, -⟩ := List.cons_eq_cons.mp heq
    cases hc
  · have hnone : (c :: cs).takeWhile isPunctuation = [] :=
      List.takeWhile_cons_of_neg (by simp [isPunctuation, hc])
    show (Kind.punctuation, ((c :: cs).takeWhile isPunctuation).length) = _
    rw [hnone]
    rfl

/-- A joint and the part behind it. -/
def markupSegment : Parser (String × String) :=
  (single fun t => if t.kind = .dot ∨ (t.kind = .punctuation ∧ t.text = "-") then some t.text
    else none).both
  (single fun t => if t.kind = .identifier ∨ t.kind = .number then some t.text else none)

instance : Advances markupSegment := by
  unfold markupSegment
  infer_instance

theorem markupSegment_refuses {rest : List Char} (h : EndsName rest) : markupSegment.Refuses rest := by
  obtain ⟨c, more, rfl, hc⟩ := h
  refine Takes.refuses (S := fun t => t.kind = .dot ∨ t.kind = .punctuation) ?_ ?_
  · refine (takes_single fun t a ht => ?_).both _
    split at ht
    · rename_i hor
      exact hor.imp id And.left
    · cases ht
  · intro t ht
    rw [ht]
    simp only [List.mem_cons, List.not_mem_nil, or_false] at hc
    rcases hc with rfl | rfl | rfl
    · exact nofun
    · exact nofun
    · by_cases hmore : more.take 1 = ['>']
      · rw [show lexeme '=' more = (.arrow, 1) from if_pos hmore]
        exact nofun
      · rw [show lexeme '=' more = (.equals, 0) from if_neg hmore]
        exact nofun

theorem segments_consume {segments : List Char} (h : Segments segments) {rest : List Char}
    (hrest : EndsName rest) : markupSegment.many.Consumes (segments ++ rest) rest fun parts =>
      ∀ done : String, parts.foldl (fun done (j, s) => done ++ j ++ s) done =
        done ++ String.ofList segments := by
  induction h with
  | nil =>
    refine (markupSegment_refuses hrest).many.mono ?_
    rintro _ rfl done
    exact (String.append_empty).symm
  | @cons j c text further k hj hc hk hlexeme _ ih =>
    have hjoint : (single fun t => if t.kind = .dot ∨ (t.kind = .punctuation ∧ t.text = "-") then
        some t.text else none).Consumes (j :: c :: (text ++ (further ++ rest)))
        (c :: (text ++ (further ++ rest))) (· = String.ofList [j]) := by
      refine consumes_single (t := []) (lexeme_joint hj hc _) fun span => ⟨_, rfl, if_pos ?_⟩
      rcases hj with rfl | rfl
      · exact .inl rfl
      · exact .inr ⟨rfl, rfl⟩
    have hsegment : (single fun t => if t.kind = .identifier ∨ t.kind = .number then some t.text
        else none).Consumes (c :: (text ++ (further ++ rest))) (further ++ rest)
        (· = String.ofList (c :: text)) :=
      consumes_single (hlexeme rest hrest) fun span => ⟨_, rfl, if_pos hk⟩
    have hpart : markupSegment.Consumes (j :: c :: (text ++ (further ++ rest))) (further ++ rest)
        fun part => part.1 = String.ofList [j] ∧ part.2 = String.ofList (c :: text) :=
      hjoint.both hsegment
    rw [List.cons_append, List.cons_append, List.append_assoc]
    refine (hpart.many_cons ih).mono ?_
    rintro _ ⟨⟨_, _⟩, parts, rfl, ⟨rfl, rfl⟩, hparts⟩ done
    rw [List.foldl_cons, hparts]
    simp only [String.append_assoc, ← String.ofList_append]
    rfl

/-- Such a name begins with an identifier. -/
theorem exists_lexeme_markupName {s : String} (h : IsMarkupName s) {rest : List Char}
    (hrest : EndsName rest) : ∃ c text segments, s.toList = c :: (text ++ segments) ∧
      lexeme c (text ++ (segments ++ rest)) = (.identifier, text.length) ∧ Segments segments := by
  obtain ⟨c, text, segments, hs, hc, htext, hsegments⟩ := h
  refine ⟨c, text, segments, hs, lexeme_identifier hc htext ?_, hsegments⟩
  cases hsegments with
  | nil => exact endsWord_of_endsName hrest
  | cons hj =>
    rintro x ⟨⟩
    rcases hj with rfl | rfl <;> rfl

theorem markupName_consumes {s : String} (h : IsMarkupName s) {rest : List Char}
    (hrest : EndsName rest) : markupName.Consumes (s.toList ++ rest) rest (· = s) := by
  obtain ⟨c, text, segments, hs, hlexeme, hsegments⟩ := exists_lexeme_markupName h hrest
  have hhead : (single fun t => if t.kind = .identifier then some t.text else none).Consumes
      (c :: (text ++ (segments ++ rest))) (segments ++ rest) (· = String.ofList (c :: text)) :=
    consumes_single hlexeme fun span => ⟨_, rfl, if_pos rfl⟩
  rw [hs, List.cons_append, List.append_assoc]
  refine .map (hhead.both (segments_consume hsegments hrest)) ?_
  rintro ⟨first, parts⟩ ⟨rfl, hparts⟩
  refine (hparts _).trans ?_
  rw [← String.ofList_append, List.cons_append, ← hs, String.ofList_toList]

theorem solid_markupName {s : String} (h : IsMarkupName s) {rest : List Char}
    (hrest : EndsName rest) : Solid (s.toList ++ rest) := by
  obtain ⟨c, text, segments, hs, hlexeme, -⟩ := exists_lexeme_markupName h hrest
  rw [hs, List.cons_append, List.append_assoc]
  exact solid_cons hlexeme (by decide)

theorem front_markupName {s : String} (h : IsMarkupName s) {rest : List Char}
    (hrest : EndsName rest) : Front (s.toList ++ rest) fun t => t.kind = .identifier := by
  have hsolid := solid_markupName h hrest
  obtain ⟨c, text, segments, hs, hlexeme, -⟩ := exists_lexeme_markupName h hrest
  rw [hs, List.cons_append, List.append_assoc] at hsolid ⊢
  exact hsolid.skips.front hlexeme fun _ => rfl

end MarkupTrace.Source.Grammar
