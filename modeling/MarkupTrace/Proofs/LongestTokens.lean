import MarkupTrace.Proofs.TiledElements

/-!
# The longest tokens

A kind of token is spelled in ways of its own. A reader that takes the longest spelling there is, and a
single character where there is none, can read a text in one way only, and a text is cut into tokens
just so. A spelling that is the longest one stays it where less of the text follows.
-/

namespace MarkupTrace.Source

open Text

/-! ## Spellings -/

/-- The texts that a token of the kind can have. Nothing is spelled as an unknown token. -/
inductive Kind.Spells : Kind → List Char → Prop
  | mark {k : Kind} {c : Char} (h : k.character? = some c) : Spells k [c]
  | dot : Spells .dot ['.']
  | ellipsis : Spells .ellipsis ['.', '.', '.']
  | equals : Spells .equals ['=']
  | arrow : Spells .arrow ['=', '>']
  | identifier {c : Char} {cs : List Char} (hc : isIdentifierStart c = true)
      (hcs : ∀ x ∈ cs, isIdentifierPart x = true) : Spells .identifier (c :: cs)
  | whole {c : Char} {ds : List Char} (hc : c.isDigit = true) (hds : ∀ x ∈ ds, x.isDigit = true) :
      Spells .number (c :: ds)
  | fraction {c d : Char} {ds fs : List Char} (hc : c.isDigit = true)
      (hds : ∀ x ∈ ds, x.isDigit = true) (hd : d.isDigit = true) (hfs : ∀ x ∈ fs, x.isDigit = true) :
      Spells .number (c :: (ds ++ '.' :: d :: fs))
  | blanks {c : Char} {cs : List Char} (hc : isSpaceOrTab c = true)
      (hcs : ∀ x ∈ cs, isSpaceOrTab x = true) : Spells .blanks (c :: cs)
  | feed : Spells .newline ['\n']
  | pair : Spells .newline ['\r', '\n']
  | punctuation {c : Char} {cs : List Char} (hc : isPunctuation c = true)
      (hcs : ∀ x ∈ cs, isPunctuation x = true) : Spells .punctuation (c :: cs)

theorem length_le_takeWhile_append {p : Char → Bool} {cs : List Char} (h : ∀ x ∈ cs, p x = true)
    (rest : List Char) : cs.length ≤ ((cs ++ rest).takeWhile p).length := by
  rw [List.takeWhile_append_of_pos h, List.length_append]
  omega

theorem length_le_numberLength {ds : List Char} (h : ∀ x ∈ ds, x.isDigit = true) (rest : List Char) :
    ds.length ≤ numberLength (ds ++ rest) := by
  have hle := length_le_takeWhile_append h rest
  unfold numberLength
  dsimp only
  split
  · split <;> omega
  · exact hle

theorem length_le_numberLength_fraction {ds fs : List Char} {d : Char} (h : ∀ x ∈ ds, x.isDigit = true)
    (hd : d.isDigit = true) (hfs : ∀ x ∈ fs, x.isDigit = true) (rest : List Char) :
    (ds ++ '.' :: d :: fs).length ≤ numberLength (ds ++ '.' :: d :: fs ++ rest) := by
  have hall : ∀ x ∈ d :: fs, x.isDigit = true := List.forall_mem_cons.mpr ⟨hd, hfs⟩
  have hle := length_le_takeWhile_append hall rest
  have hwhole : (ds ++ '.' :: d :: fs ++ rest).takeWhile Char.isDigit = ds := by
    rw [List.append_assoc]
    exact takeWhile_append_stop h (by rintro c ⟨⟩; rfl)
  unfold numberLength
  dsimp only
  rw [hwhole, List.append_assoc, List.drop_left, List.cons_append]
  simp only [List.length_append, List.length_cons] at hle ⊢
  split <;> omega

theorem lexeme_of_isPunctuation {c : Char} (hc : isPunctuation c = true) (cs : List Char) :
    lexeme c cs = (.punctuation, (cs.takeWhile isPunctuation).length) := by
  unfold lexeme
  split
  case h_21 =>
    simp only [isPunctuation, isIdentifierPart, Bool.not_eq_true', Bool.or_eq_false_iff] at hc
    obtain ⟨⟨hstart, hdigit⟩, hmarks⟩ := hc
    have hspace : ¬ isSpaceOrTab c = true := by
      intro hspace
      simp only [isSpaceOrTab, Bool.or_eq_true, beq_iff_eq] at hspace
      rcases hspace with rfl | rfl <;> revert hmarks <;> decide
    rw [if_neg hspace, if_neg (by simp [hstart]), if_neg (by simp [hdigit])]
  all_goals exact absurd hc (by decide)

/-- Of a text that starts with a spelling at least that much is taken, and if it is no more then the
token has the kind of the spelling. -/
theorem Kind.Spells.lexeme_spec {k : Kind} {c : Char} {cs : List Char} (h : k.Spells (c :: cs))
    (rest : List Char) : cs.length ≤ (lexeme c (cs ++ rest)).2 ∧
      (cs.length = (lexeme c (cs ++ rest)).2 → (lexeme c (cs ++ rest)).1 = k) := by
  cases h with
  | mark h =>
    rw [Grammar.lexeme_of_character h]
    exact ⟨Nat.le_refl _, fun _ => rfl⟩
  | dot =>
    have hlexeme : lexeme '.' ([] ++ rest) =
        if rest.take 2 = ['.', '.'] then (.ellipsis, 2) else (.dot, 0) := rfl
    rw [hlexeme]
    split
    · exact ⟨Nat.zero_le _, fun hlength => absurd hlength (by decide)⟩
    · exact ⟨Nat.le_refl _, fun _ => rfl⟩
  | ellipsis => exact ⟨Nat.le_refl _, fun _ => rfl⟩
  | equals =>
    have hlexeme : lexeme '=' ([] ++ rest) =
        if rest.take 1 = ['>'] then (.arrow, 1) else (.equals, 0) := rfl
    rw [hlexeme]
    split
    · exact ⟨Nat.zero_le _, fun hlength => absurd hlength (by decide)⟩
    · exact ⟨Nat.le_refl _, fun _ => rfl⟩
  | arrow => exact ⟨Nat.le_refl _, fun _ => rfl⟩
  | identifier hc hcs =>
    rw [lexeme_of_isIdentifierStart hc]
    exact ⟨length_le_takeWhile_append hcs rest, fun _ => rfl⟩
  | whole hc hds =>
    rw [lexeme_of_isDigit hc]
    exact ⟨length_le_numberLength hds rest, fun _ => rfl⟩
  | fraction hc hds hd hfs =>
    rw [lexeme_of_isDigit hc]
    exact ⟨length_le_numberLength_fraction hds hd hfs rest, fun _ => rfl⟩
  | blanks hc hcs =>
    rw [lexeme_of_isSpaceOrTab hc]
    exact ⟨length_le_takeWhile_append hcs rest, fun _ => rfl⟩
  | feed => exact ⟨Nat.le_refl _, fun _ => rfl⟩
  | pair => exact ⟨Nat.le_refl _, fun _ => rfl⟩
  | punctuation hc hcs =>
    rw [lexeme_of_isPunctuation hc]
    exact ⟨length_le_takeWhile_append hcs rest, fun _ => rfl⟩

theorem Kind.not_spells_unknown {text : List Char} : ¬ Kind.unknown.Spells text := by
  intro h
  cases h with
  | mark h => cases h

theorem Kind.Spells.ne_nil {k : Kind} {text : List Char} (h : k.Spells text) : text ≠ [] := by
  cases h <;> exact List.cons_ne_nil _ _

theorem number_spells {c : Char} {cs : List Char} (hc : c.isDigit = true) :
    Kind.number.Spells (c :: cs.take (numberLength cs)) := by
  have htext : numberLength (cs.take (numberLength cs) ++ cs.drop (numberLength cs)) =
      (cs.take (numberLength cs)).length := by
    rw [List.take_append_drop, List.length_take_of_le (numberLength_le cs)]
  rcases of_numberLength htext with ⟨hdigits, -⟩ | ⟨ds, fs, heq, hds, hfs, hne, -⟩
  · exact .whole hc hdigits
  · obtain ⟨d, fs, rfl⟩ := List.exists_cons_of_ne_nil hne
    obtain ⟨hd, hfs⟩ := List.forall_mem_cons.mp hfs
    rw [heq]
    exact .fraction hc hds hd hfs

/-- A token is spelled as its kind is, unless it is a carriage return without a line feed. -/
theorem spells_lexeme (c : Char) (cs : List Char) :
    (lexeme c cs).1.Spells (c :: cs.take (lexeme c cs).2) ∨
      (lexeme c cs = (.unknown, 0) ∧ c = '\r' ∧ cs.head? ≠ some '\n') := by
  unfold lexeme
  split
  case h_13 =>
    split
    · rename_i hpoints
      rw [hpoints]
      exact .inl .ellipsis
    · exact .inl .dot
  case h_14 =>
    split
    · rename_i hgreater
      rw [hgreater]
      exact .inl .arrow
    · exact .inl .equals
  case h_19 => exact .inl .feed
  case h_20 =>
    split
    · rename_i hfeed
      rw [hfeed]
      exact .inl .pair
    · rename_i hfeed
      refine .inr ⟨rfl, rfl, fun hhead => hfeed ?_⟩
      obtain ⟨rest, rfl⟩ := List.head?_eq_some_iff.mp hhead
      rfl
  case h_21 =>
    split_ifs with hspace hstart hdigit
    · rw [take_length_takeWhile]
      exact .inl (.blanks hspace fun x hx => List.mem_takeWhile_imp hx)
    · rw [take_length_takeWhile]
      exact .inl (.identifier hstart fun x hx => List.mem_takeWhile_imp hx)
    · exact .inl (number_spells hdigit)
    · rw [take_length_takeWhile]
      refine .inl (.punctuation ?_ fun x hx => List.mem_takeWhile_imp hx)
      simp_all [isPunctuation, isIdentifierPart, isSpaceOrTab]
  all_goals exact .inl (.mark rfl)

theorem length_lexeme_le (c : Char) (cs : List Char) : (lexeme c cs).2 ≤ cs.length := by
  have hruns : ∀ p : Char → Bool, (cs.takeWhile p).length ≤ cs.length :=
    fun p => (List.takeWhile_sublist p).length_le
  have htake : ∀ {n : Nat} {marks : List Char}, cs.take n = marks → marks.length ≤ cs.length := by
    intro n marks h
    rw [← h]
    exact List.length_take_le' n cs
  unfold lexeme
  split
  case h_13 =>
    split
    · rename_i hpoints
      exact htake hpoints
    · exact Nat.zero_le _
  case h_14 =>
    split
    · rename_i hgreater
      exact htake hgreater
    · exact Nat.zero_le _
  case h_20 =>
    split
    · rename_i hfeed
      exact htake hfeed
    · exact Nat.zero_le _
  case h_21 =>
    split_ifs
    · exact hruns _
    · exact hruns _
    · exact numberLength_le cs
    · exact hruns _
  all_goals exact Nat.zero_le _

/-- No text spells two kinds. -/
theorem Kind.Spells.unique {k k' : Kind} {text : List Char} (h : k.Spells text) (h' : k'.Spells text) :
    k = k' := by
  obtain ⟨c, cs, rfl⟩ := List.exists_cons_of_ne_nil h.ne_nil
  obtain ⟨hle, hkind⟩ := h.lexeme_spec []
  obtain ⟨-, hkind'⟩ := h'.lexeme_spec []
  rw [List.append_nil] at hle hkind hkind'
  have hlength := Nat.le_antisymm hle (length_lexeme_le c cs)
  exact (hkind hlength).symm.trans (hkind' hlength)

/-! ## Longest spellings -/

/-- What a reader takes from the front of a text that always takes the longest spelling there is, and a
single character where there is none. -/
inductive Longest : Kind → List Char → List Char → Prop
  | spelled {k : Kind} {text rest : List Char} (h : k.Spells text)
      (hlongest : ∀ k' text', Kind.Spells k' text' → text' <+: text ++ rest →
        text'.length ≤ text.length) : Longest k text rest
  | unspelled {c : Char} {rest : List Char} (h : ∀ k text, Kind.Spells k text → ¬ text <+: c :: rest) :
      Longest .unknown [c] rest

/-- The tokens of a text that starts at the offset, each of them taken from the front of what is left. -/
inductive LongestFrom : Nat → List Char → List Token → Prop
  | nil (offset : Nat) : LongestFrom offset [] []
  | cons {offset : Nat} {k : Kind} {text rest : List Char} {ts : List Token} (h : Longest k text rest)
      (hrest : LongestFrom (offset + byteLength text) rest ts) :
      LongestFrom offset (text ++ rest)
        (⟨k, String.ofList text, ⟨offset, offset + byteLength text⟩⟩ :: ts)

namespace Longest

variable {k k' : Kind} {text text' rest rest' : List Char}

theorem ne_nil (h : Longest k text rest) : text ≠ [] := by
  cases h with
  | spelled h => exact h.ne_nil
  | unspelled => exact List.cons_ne_nil _ _

/-- There is no choice. -/
theorem unique (h : Longest k text rest) (h' : Longest k' text' rest')
    (heq : text ++ rest = text' ++ rest') : k = k' ∧ text = text' ∧ rest = rest' := by
  have hfront : text <+: text' ++ rest' := ⟨rest, heq⟩
  have hfront' : text' <+: text ++ rest := ⟨rest', heq.symm⟩
  cases h with
  | spelled h hlongest =>
    cases h' with
    | spelled h' hlongest' =>
      have hlength := Nat.le_antisymm (hlongest' _ _ h hfront) (hlongest _ _ h' hfront')
      obtain ⟨rfl, rfl⟩ := List.append_inj heq hlength
      exact ⟨h.unique h', rfl, rfl⟩
    | unspelled h' => exact absurd hfront (h' _ _ h)
  | unspelled h =>
    cases h' with
    | spelled h' => exact absurd hfront' (h _ _ h')
    | unspelled =>
      obtain ⟨rfl, rfl⟩ := List.cons_eq_cons.mp heq
      exact ⟨rfl, rfl, rfl⟩

/-- The same is taken where less follows. -/
theorem left {more : List Char} (h : Longest k text (rest ++ more)) : Longest k text rest := by
  cases h with
  | spelled h hlongest =>
    refine .spelled h fun k' text' h' hfront => hlongest k' text' h' (hfront.trans ?_)
    rw [← List.append_assoc]
    exact List.prefix_append _ _
  | unspelled h =>
    exact .unspelled fun k' text' h' hfront =>
      h k' text' h' (hfront.trans (List.prefix_append (_ :: rest) more))

end Longest

theorem longest_lexeme (c : Char) (cs : List Char) :
    Longest (lexeme c cs).1 (c :: cs.take (lexeme c cs).2) (cs.drop (lexeme c cs).2) := by
  have hspec : ∀ k text, Kind.Spells k text → text <+: c :: cs →
      text.length ≤ (lexeme c cs).2 + 1 ∧ (text.length = (lexeme c cs).2 + 1 → (lexeme c cs).1 = k) := by
    rintro k text h ⟨rest, hrest⟩
    obtain ⟨d, ds, rfl⟩ := List.exists_cons_of_ne_nil h.ne_nil
    obtain ⟨rfl, rfl⟩ := List.cons_eq_cons.mp hrest
    obtain ⟨hle, hkind⟩ := h.lexeme_spec rest
    exact ⟨Nat.succ_le_succ hle, fun hlength => hkind (Nat.succ.inj hlength)⟩
  rcases spells_lexeme c cs with h | ⟨hnone, rfl, -⟩
  · refine .spelled h fun k text h' hfront => ?_
    rw [List.cons_append, List.take_append_drop] at hfront
    rw [List.length_cons, List.length_take_of_le (length_lexeme_le c cs)]
    exact (hspec k text h' hfront).1
  · rw [hnone]
    refine .unspelled fun k text h' hfront => ?_
    rw [List.drop_zero] at hfront
    obtain ⟨hle, hkind⟩ := hspec k text h' hfront
    rw [hnone] at hle hkind
    have hpos := List.length_pos_iff.mpr h'.ne_nil
    obtain rfl := hkind (by omega)
    exact Kind.not_spells_unknown h'

/-- A text is cut in this way. -/
theorem longestFrom_tokensFrom (offset : Nat) (cs : List Char) :
    LongestFrom offset cs (tokensFrom offset cs) := by
  fun_induction tokensFrom offset cs with
  | case1 offset => exact .nil offset
  | case2 offset c cs kind more h text stop ih =>
    have hlongest := longest_lexeme c cs
    rw [h] at hlongest
    have hcons := LongestFrom.cons hlongest ih
    rwa [List.cons_append, List.take_append_drop] at hcons

/-- The token behind so many bytes more. -/
def Token.behind (n : Nat) (t : Token) : Token := { t with span := ⟨n + t.span.start, n + t.span.stop⟩ }

namespace LongestFrom

variable {offset : Nat} {cs : List Char} {ts us : List Token}

theorem unique (h : LongestFrom offset cs ts) (h' : LongestFrom offset cs us) : ts = us := by
  induction h generalizing us with
  | nil offset =>
    generalize hnil : [] = cs at h'
    cases h' with
    | nil => rfl
    | cons h' => exact absurd (List.append_eq_nil_iff.mp hnil.symm).1 h'.ne_nil
  | @cons offset k text rest ts h hrest ih =>
    generalize heq : text ++ rest = cs at h'
    cases h' with
    | nil => exact absurd (List.append_eq_nil_iff.mp heq).1 h.ne_nil
    | cons h' hrest' =>
      obtain ⟨rfl, rfl, rfl⟩ := h.unique h' heq
      rw [ih hrest']

/-- Tokens are read again from the text that they cover, without the one behind it. -/
theorem left {b : List Char} (h : LongestFrom offset (textOf ts ++ b) (ts ++ us)) :
    LongestFrom offset (textOf ts) ts := by
  induction ts generalizing offset with
  | nil => exact .nil offset
  | cons t ts ih =>
    generalize hcs : textOf (t :: ts) ++ b = cs at h
    generalize hall : t :: ts ++ us = all at h
    cases h with
    | nil => cases hall
    | @cons offset k text rest ts' h hrest =>
      obtain ⟨rfl, rfl⟩ := List.cons_eq_cons.mp hall
      rw [textOf_cons, String.toList_ofList] at hcs ⊢
      rw [List.append_assoc] at hcs
      obtain rfl := List.append_cancel_left hcs
      exact .cons h.left (ih hrest)

/-- The tokens are those of the same text that starts at another offset. -/
theorem behind (h : LongestFrom offset cs ts) (n : Nat) :
    LongestFrom (n + offset) cs (ts.map (Token.behind n)) := by
  induction h with
  | nil offset => exact .nil _
  | cons h hrest ih =>
    rw [← Nat.add_assoc] at ih
    have hcons := LongestFrom.cons h ih
    rwa [Nat.add_assoc] at hcons

theorem tiles (h : LongestFrom offset cs ts) :
    Tiles offset (ts.map Token.span) (offset + byteLength cs) := by
  induction h with
  | nil offset => rfl
  | cons h hrest ih =>
    have hpos := byteLength_pos h.ne_nil
    rw [byteLength_append, ← Nat.add_assoc]
    exact ⟨rfl, Nat.lt_add_of_pos_right hpos, ih⟩

end LongestFrom

/-! ## Unknown tokens -/

theorem return_not_mem_taken (c : Char) (cs : List Char) : '\r' ∉ cs.take (lexeme c cs).2 := by
  by_cases hc : c = '\r'
  · subst hc
    have hlexeme : lexeme '\r' cs =
        if cs.take 1 = ['\n'] then (.newline, 1) else (.unknown, 0) := rfl
    rw [hlexeme]
    split
    · rename_i hfeed
      rw [hfeed]
      decide
    · exact List.not_mem_nil
  · exact return_not_mem_lexeme hc cs

theorem lexeme_return {cs : List Char} (h : cs.head? ≠ some '\n') : lexeme '\r' cs = (.unknown, 0) := by
  refine if_neg fun hfeed => h ?_
  cases cs with
  | nil => cases hfeed
  | cons d cs =>
    obtain ⟨rfl, -⟩ := List.cons_eq_cons.mp hfeed
    rfl

/-- A carriage return is no part of another token, unless a line feed follows it. -/
theorem unknown_mem_tokensFrom {b : List Char} (h : b.head? ≠ some '\n') (offset : Nat) (a : List Char) :
    ⟨.unknown, "\r", ⟨offset + byteLength a, offset + byteLength a + 1⟩⟩ ∈
      tokensFrom offset (a ++ '\r' :: b) := by
  induction hn : a.length using Nat.strongRecOn generalizing offset a with
  | ind n ih =>
    cases a with
    | nil =>
      rw [List.nil_append, tokensFrom_cons, lexeme_return h]
      exact List.mem_cons_self
    | cons c a =>
      have hle := le_length_of_not_mem (return_not_mem_taken c) a b
      rw [List.cons_append, tokensFrom_cons]
      generalize (lexeme c (a ++ '\r' :: b)).2 = more at hle
      apply List.mem_cons_of_mem
      rw [List.take_append_of_le_length hle, List.drop_append_of_le_length hle]
      have hsize := byteLength_append (a.take more) (a.drop more)
      rw [List.take_append_drop] at hsize
      have hless : (a.drop more).length < n := by
        rw [← hn, List.length_drop, List.length_cons]
        omega
      have hrest := ih _ hless (offset + byteLength (c :: a.take more)) (a.drop more) rfl
      rw [Nat.add_assoc offset, byteLength_cons, Nat.add_assoc c.utf8Size, ← hsize] at hrest
      exact hrest

theorem mem_unknown_iff (source : String) (t : Token) :
    t ∈ tokenize source ∧ t.kind = .unknown ↔ ∃ a b, source.toList = a ++ '\r' :: b ∧
      b.head? ≠ some '\n' ∧ t = ⟨.unknown, "\r", ⟨byteLength a, byteLength a + 1⟩⟩ := by
  constructor
  · rintro ⟨hmem, hkind⟩
    obtain ⟨ts, us, hts⟩ := List.append_of_mem hmem
    obtain ⟨b, hb, -, hus⟩ := tokensFrom_eq_append hts
    cases b with
    | nil =>
      rw [tokensFrom] at hus
      cases hus
    | cons c cs =>
      rw [tokensFrom_cons] at hus
      obtain ⟨rfl, -⟩ := List.cons_eq_cons.mp hus
      rcases spells_lexeme c cs with h | ⟨hnone, rfl, hhead⟩
      · rw [show (lexeme c cs).1 = .unknown from hkind] at h
        exact absurd h Kind.not_spells_unknown
      · refine ⟨textOf ts, cs, hb, hhead, ?_⟩
        rw [hnone, Nat.zero_add]
        rfl
  · rintro ⟨a, b, hsource, hhead, rfl⟩
    refine ⟨?_, rfl⟩
    have hmem := unknown_mem_tokensFrom hhead 0 a
    rwa [Nat.zero_add, ← hsource] at hmem

/-! ## Runs of tokens -/

/-- Where tokens stand in a text, its slice from the first to the last of them is their text. -/
theorem slice_spanOf {source : String} {ts us vs : List Token} (h : tokenize source = ts ++ us ++ vs) :
    slice source.toList (Grammar.spanOf us) = textOf us := by
  by_cases hus : us = []
  · subst hus
    show before (after source.toList 0) 0 = []
    cases after source.toList 0 <;> rfl
  · rw [spanOf_tokens h hus]
    refine StandsAt.slice_eq ⟨textOf ts, textOf vs, ?_, by rw [textOf_append]⟩
    rw [← textOf_tokenize, h, textOf_append, textOf_append]

/-- They are read again from that slice alone, as many bytes further to the front as the first of them
stands behind the front of the text. -/
theorem tokenize_slice {source : String} {ts us vs : List Token} (h : tokenize source = ts ++ us ++ vs) :
    (tokenize (String.ofList (slice source.toList (Grammar.spanOf us)))).map
      (Token.behind (Grammar.spanOf us).start) = us := by
  rw [slice_spanOf h, tokenize, String.toList_ofList]
  by_cases hus : us = []
  · subst hus
    rw [textOf_nil, tokensFrom]
    rfl
  · have hstart : (Grammar.spanOf us).start = byteLength (textOf ts) := by rw [spanOf_tokens h hus]
    have halone := (longestFrom_tokensFrom 0 (textOf us)).behind (byteLength (textOf ts))
    rw [tokenize, List.append_assoc] at h
    obtain ⟨b, -, -, hb⟩ := tokensFrom_eq_append h
    obtain ⟨c, hc, -, -⟩ := tokensFrom_eq_append hb
    have hwithin := longestFrom_tokensFrom (0 + byteLength (textOf ts)) b
    rw [hb, hc, Nat.zero_add] at hwithin
    rw [hstart]
    exact halone.unique hwithin.left

/-- Assume that a text is read by always taking the longest spelling, and a single character where
there is none. Then there is one way to read it, its tokens stand next to each other from its front to
its end, each between characters and none of them empty, the unknown ones are the carriage returns
without a line feed, and tokens that follow each other are read again from the text that they cover. -/
theorem tokens_tile_and_read_again (source : String) :
    (∀ ts, LongestFrom 0 source.toList ts ↔ ts = tokenize source) ∧
      Tiles 0 ((tokenize source).map Token.span) (byteLength source.toList) ∧
      (∀ t ∈ tokenize source, StandsAt source.toList t.span t.text.toList) ∧
      (∀ t, t ∈ tokenize source ∧ t.kind = .unknown ↔ ∃ a b, source.toList = a ++ '\r' :: b ∧
        b.head? ≠ some '\n' ∧ t = ⟨.unknown, "\r", ⟨byteLength a, byteLength a + 1⟩⟩) ∧
      ∀ ts us vs, tokenize source = ts ++ us ++ vs →
        (tokenize (String.ofList (slice source.toList (Grammar.spanOf us)))).map
          (Token.behind (Grammar.spanOf us).start) = us := by
  have hlongest := longestFrom_tokensFrom 0 source.toList
  refine ⟨fun ts => ⟨fun h => h.unique hlongest, ?_⟩, ?_, ?_, mem_unknown_iff source, ?_⟩
  · rintro rfl
    exact hlongest
  · have htiles := hlongest.tiles
    rwa [Nat.zero_add] at htiles
  · intro t ht
    obtain ⟨ts, us, hts⟩ := List.append_of_mem ht
    have hsuffix : [t] ++ us <:+ tokenize source := ⟨ts, hts.symm⟩
    have hstands := standsAt_offsets hsuffix
    rw [textOf_cons, textOf_nil, List.append_nil] at hstands
    rwa [span_eq_offsets hsuffix]
  · intro ts us vs h
    exact tokenize_slice h

/-- Two points are no ellipsis, and a point is a fraction only where a digit follows it. -/
example : (tokenize "..=>\r1.").map Token.kind = [.dot, .dot, .arrow, .unknown, .number, .dot] := by cbv

end MarkupTrace.Source
