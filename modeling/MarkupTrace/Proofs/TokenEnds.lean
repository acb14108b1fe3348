import MarkupTrace.Proofs.ReadElements

/-!
# Where tokens end

A token ends where the characters behind it cannot belong to it. Brackets, quotes and backslashes are
in no token but their own, so they end any other.
-/

namespace MarkupTrace.Source

open Text

theorem take_numberLength (cs : List Char) :
    ∀ x ∈ cs.take (numberLength cs), x.isDigit = true ∨ x = '.' := by
  have hwhole : ∀ {ds : List Char}, ∀ x ∈ ds.takeWhile Char.isDigit, x.isDigit = true :=
    fun x hx => List.mem_takeWhile_imp hx
  intro x hx
  unfold numberLength at hx
  dsimp only at hx
  split at hx
  · rename_i rest hrest
    split at hx
    · rw [take_length_takeWhile] at hx
      exact .inl (hwhole x hx)
    · have hcs : cs = cs.takeWhile Char.isDigit ++ '.' :: rest := by
        rw [← hrest]
        have hsplit := List.take_append_drop (cs.takeWhile Char.isDigit).length cs
        rw [take_length_takeWhile] at hsplit
        exact hsplit.symm
      have hdigits := @hwhole cs
      generalize cs.takeWhile Char.isDigit = ds at hcs hdigits hx
      rw [hcs, Nat.add_assoc, List.take_length_add_append, Nat.add_comm 1, List.take_succ_cons,
        take_length_takeWhile] at hx
      rcases List.mem_append.mp hx with hx | hx
      · exact .inl (hdigits x hx)
      · rcases List.mem_cons.mp hx with rfl | hx
        · exact .inr rfl
        · exact .inl (hwhole x hx)
  · rw [take_length_takeWhile] at hx
    exact .inl (hwhole x hx)

/-- The characters of a token behind its first one. -/
theorem mem_lexeme {c x : Char} {cs : List Char} (h : x ∈ cs.take (lexeme c cs).2) :
    isSpaceOrTab x = true ∨ isIdentifierPart x = true ∨ isPunctuation x = true ∨ x = '.' ∨
      x = '>' ∨ x = '\n' := by
  unfold lexeme at h
  split at h
  case h_13 =>
    split at h
    · rename_i hpoints
      rw [hpoints] at h
      simp only [List.mem_cons, List.not_mem_nil, or_false, or_self] at h
      simp [h]
    · cases h
  case h_14 =>
    split at h
    · rename_i hgreater
      rw [hgreater] at h
      simp [List.mem_singleton.mp h]
    · cases h
  case h_20 =>
    split at h
    · rename_i hfeed
      rw [hfeed] at h
      simp [List.mem_singleton.mp h]
    · cases h
  case h_21 =>
    split_ifs at h
    · rw [take_length_takeWhile] at h
      exact .inl (List.mem_takeWhile_imp h)
    · rw [take_length_takeWhile] at h
      exact .inr (.inl (List.mem_takeWhile_imp h))
    · rcases take_numberLength cs x h with hx | hx
      · exact .inr (.inl (by simp [isIdentifierPart, hx]))
      · exact .inr (.inr (.inr (.inl hx)))
    · rw [take_length_takeWhile] at h
      exact .inr (.inr (.inl (List.mem_takeWhile_imp h)))
  all_goals cases h

/-- A character that is in no token but its own. -/
def StandsAlone (c : Char) : Prop := c ∈ ['<', '\x7b', '\x7d', '"', '\'', '\\']

instance (c : Char) : Decidable (StandsAlone c) := inferInstanceAs (Decidable (c ∈ _))

theorem StandsAlone.not_mem {c x : Char} (h : StandsAlone x) (cs : List Char) :
    x ∉ cs.take (lexeme c cs).2 := by
  intro hx
  have hor := mem_lexeme hx
  revert hor
  unfold StandsAlone at h
  simp only [List.mem_cons, List.not_mem_nil, or_false] at h
  rcases h with rfl | rfl | rfl | rfl | rfl | rfl <;> decide

/-- A token does not reach beyond a character that is in no token but its own. -/
theorem le_length_of_not_mem {x c : Char} (h : ∀ cs : List Char, x ∉ cs.take (lexeme c cs).2)
    (cs rest : List Char) : (lexeme c (cs ++ x :: rest)).2 ≤ cs.length := by
  by_contra hlt
  refine h (cs ++ x :: rest) ?_
  obtain ⟨n, hn⟩ : ∃ n, (lexeme c (cs ++ x :: rest)).2 = cs.length + (n + 1) :=
    ⟨(lexeme c (cs ++ x :: rest)).2 - cs.length - 1, by omega⟩
  rw [hn, List.take_length_add_append, List.take_succ_cons]
  simp

theorem StandsAlone.le_length {x c : Char} (h : StandsAlone x) (cs rest : List Char) :
    (lexeme c (cs ++ x :: rest)).2 ≤ cs.length := le_length_of_not_mem h.not_mem cs rest

theorem takeWhile_append_stop {p : Char → Bool} {cs rest : List Char} (h : ∀ c ∈ cs, p c = true)
    (hrest : ∀ c ∈ rest.head?, p c = false) : (cs ++ rest).takeWhile p = cs := by
  rw [List.takeWhile_append_of_pos h]
  cases rest with
  | nil => simp
  | cons c rest => simp [hrest c rfl]

theorem lexeme_of_isIdentifierStart {c : Char} (hc : isIdentifierStart c = true) (cs : List Char) :
    lexeme c cs = (.identifier, (cs.takeWhile isIdentifierPart).length) := by
  unfold lexeme
  split
  case h_21 =>
    rw [if_neg, if_pos hc]
    intro hspace
    simp only [isSpaceOrTab, Bool.or_eq_true, beq_iff_eq] at hspace
    rcases hspace with rfl | rfl <;> revert hc <;> decide
  all_goals exact absurd hc (by decide)

theorem lexeme_identifier {c : Char} {cs rest : List Char} (hc : isIdentifierStart c = true)
    (hcs : ∀ x ∈ cs, isIdentifierPart x = true)
    (hrest : ∀ x ∈ rest.head?, isIdentifierPart x = false) :
    lexeme c (cs ++ rest) = (.identifier, cs.length) := by
  rw [lexeme_of_isIdentifierStart hc, takeWhile_append_stop hcs hrest]

theorem le_val_of_isAlpha {c : Char} (hc : c.isAlpha = true) : 'A'.val ≤ c.val := by
  rcases (Bool.or_eq_true _ _).mp hc with h | h
  · exact (of_decide_eq_true h).1
  · exact UInt32.le_trans (by decide) (of_decide_eq_true ((Bool.and_eq_true _ _).mp h).1)

theorem isIdentifierStart_of_isDigit {c : Char} (hc : c.isDigit = true) :
    isIdentifierStart c = false := by
  rw [← Bool.not_eq_true]
  intro hstart
  simp only [Char.isDigit, Bool.and_eq_true, decide_eq_true_eq] at hc
  simp only [isIdentifierStart, Bool.or_eq_true, beq_iff_eq] at hstart
  obtain ⟨hlow, hhigh⟩ := hc
  rcases hstart with (h | rfl) | rfl
  · exact absurd (UInt32.le_trans (le_val_of_isAlpha h) hhigh) (by decide)
  · exact absurd hhigh (by decide)
  · exact absurd hlow (by decide)

theorem lexeme_of_isDigit {c : Char} (hc : c.isDigit = true) (cs : List Char) :
    lexeme c cs = (.number, numberLength cs) := by
  unfold lexeme
  split
  case h_21 =>
    rw [if_neg, if_neg, if_pos hc]
    · rw [isIdentifierStart_of_isDigit hc]
      exact Bool.false_ne_true
    · intro hspace
      simp only [isSpaceOrTab, Bool.or_eq_true, beq_iff_eq] at hspace
      rcases hspace with rfl | rfl <;> revert hc <;> decide
  all_goals exact absurd hc (by decide)

theorem lexeme_of_isSpaceOrTab {c : Char} (hc : isSpaceOrTab c = true) (cs : List Char) :
    lexeme c cs = (.blanks, (cs.takeWhile isSpaceOrTab).length) := by
  simp only [isSpaceOrTab, Bool.or_eq_true, beq_iff_eq] at hc
  rcases hc with rfl | rfl <;> rfl

theorem lexeme_newline {c : Char} {cs : List Char} (h : (lexeme c cs).1 = .newline) :
    c = '\n' ∨ c = '\r' := by
  unfold lexeme at h
  split at h
  case h_13 => split_ifs at h
  case h_14 => split_ifs at h
  case h_19 => exact .inl rfl
  case h_20 => exact .inr rfl
  case h_21 => split_ifs at h
  all_goals cases h

/-! ## Numbers -/

/-- What can stand behind a number: no digit, and no point before one. -/
def EndsNumber (cs : List Char) : Prop :=
  (∀ c ∈ cs.head?, c.isDigit = false) ∧ ∀ d rest, cs = '.' :: d :: rest → d.isDigit = false

theorem drop_length_takeWhile (p : Char → Bool) (cs : List Char) :
    cs.drop (cs.takeWhile p).length = cs.dropWhile p := by
  have hsplit := List.takeWhile_append_dropWhile (p := p) (l := cs)
  conv_lhs => rw [← hsplit]
  rw [takeWhile_append_stop (fun c hc => List.mem_takeWhile_imp hc), List.drop_left]
  intro c hc
  have := List.head?_dropWhile_not p cs
  rw [hc] at this
  simpa using this

theorem numberLength_whole {ds rest : List Char} (h : ∀ c ∈ ds, c.isDigit = true)
    (hrest : EndsNumber rest) : numberLength (ds ++ rest) = ds.length := by
  unfold numberLength
  dsimp only
  rw [takeWhile_append_stop h hrest.1, List.drop_left]
  split
  · rename_i further
    have hnone : further.takeWhile Char.isDigit = [] := by
      cases further with
      | nil => rfl
      | cons d further => exact List.takeWhile_cons_of_neg (by simp [hrest.2 d further rfl])
    rw [hnone, if_pos List.length_nil]
  · rfl

theorem numberLength_fraction {ds fs rest : List Char} (h : ∀ c ∈ ds, c.isDigit = true)
    (hf : ∀ c ∈ fs, c.isDigit = true) (hne : fs ≠ []) (hrest : ∀ c ∈ rest.head?, c.isDigit = false) :
    numberLength (ds ++ '.' :: fs ++ rest) = (ds ++ '.' :: fs).length := by
  unfold numberLength
  dsimp only
  rw [List.append_assoc, takeWhile_append_stop h (by rintro c ⟨⟩; rfl), List.drop_left,
    List.cons_append]
  split
  · rename_i further heq
    cases heq
    rw [takeWhile_append_stop hf hrest, if_neg (by simpa using hne), List.length_append,
      List.length_cons]
    omega
  · rename_i hpoint
    exact absurd rfl (hpoint _)

/-- The characters of a number behind its first digit. -/
theorem of_numberLength {text rest : List Char} (h : numberLength (text ++ rest) = text.length) :
    (∀ c ∈ text, c.isDigit = true) ∧ EndsNumber rest ∨ ∃ ds fs, text = ds ++ '.' :: fs ∧
      (∀ c ∈ ds, c.isDigit = true) ∧ (∀ c ∈ fs, c.isDigit = true) ∧ fs ≠ [] ∧
      ∀ c ∈ rest.head?, c.isDigit = false := by
  have hhead : ∀ cs : List Char, ∀ c ∈ (cs.dropWhile Char.isDigit).head?, c.isDigit = false := by
    intro cs c hc
    have := List.head?_dropWhile_not Char.isDigit cs
    rw [hc] at this
    simpa using this
  have hdigits : ∀ cs : List Char, ∀ c ∈ cs.takeWhile Char.isDigit, c.isDigit = true :=
    fun cs c hc => List.mem_takeWhile_imp hc
  unfold numberLength at h
  dsimp only at h
  rw [drop_length_takeWhile] at h
  have hsplit := List.takeWhile_append_dropWhile (p := Char.isDigit) (l := text ++ rest)
  have hds := hdigits (text ++ rest)
  have hrest := hhead (text ++ rest)
  generalize (text ++ rest).takeWhile Char.isDigit = ds at *
  generalize (text ++ rest).dropWhile Char.isDigit = ws at *
  split at h
  · rename_i further
    split at h
    · rename_i hnone
      obtain ⟨rfl, hws⟩ := List.append_inj hsplit h
      subst hws
      refine .inl ⟨hds, hrest, ?_⟩
      rintro d rest' heq
      cases heq
      rw [← Bool.not_eq_true]
      intro hd
      rw [List.takeWhile_cons_of_pos hd] at hnone
      cases hnone
    · rename_i hsome
      have hfurther := List.takeWhile_append_dropWhile (p := Char.isDigit) (l := further)
      rw [← hfurther, ← List.cons_append, ← List.append_assoc] at hsplit
      obtain ⟨htext, hws⟩ := List.append_inj hsplit (by rw [← h, List.length_append, List.length_cons]; omega)
      refine .inr ⟨ds, further.takeWhile Char.isDigit, htext.symm, hds, hdigits further, ?_, ?_⟩
      · exact fun hnil => hsome (by rw [hnil]; rfl)
      · rw [← hws]
        exact hhead further
  · rename_i hpoint
    obtain ⟨rfl, rfl⟩ := List.append_inj hsplit h
    exact .inl ⟨hds, hrest, fun d rest' heq => absurd heq (hpoint _)⟩

end MarkupTrace.Source
