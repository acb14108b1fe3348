import MarkupTrace.Proofs.LineEndings

/-!
# Texts with other line endings

A text without carriage returns and one that has some before its line feeds are cut into the same
tokens, line breaks written differently and spans moved.
-/

namespace MarkupTrace

namespace Text

/-- The second text is the first with a carriage return put before some of the line feeds. There is
none in the first. -/
inductive Mixed : List Char → List Char → Prop
  | nil : Mixed [] []
  | keep {c : Char} {cs cs' : List Char} (hc : c ≠ '\r') (h : Mixed cs cs') :
      Mixed (c :: cs) (c :: cs')
  | pair {cs cs' : List Char} (h : Mixed cs cs') : Mixed ('\n' :: cs) ('\r' :: '\n' :: cs')

theorem lineFeeds_cons {c : Char} (hc : c ≠ '\r') (cs : List Char) :
    lineFeeds (c :: cs) = c :: lineFeeds cs := by
  rw [lineFeeds, if_neg]
  exact fun h => hc h.1

theorem lineFeeds_pair (cs : List Char) :
    lineFeeds ('\r' :: '\n' :: cs) = '\n' :: lineFeeds cs := by
  rw [lineFeeds, if_pos ⟨rfl, rfl⟩, lineFeeds_cons (by decide)]

theorem Mixed.lineFeeds_eq {cs cs' : List Char} (h : Mixed cs cs') : lineFeeds cs' = cs := by
  induction h with
  | nil => rfl
  | keep hc h ih => rw [lineFeeds_cons hc, ih]
  | pair h ih => rw [lineFeeds_pair, ih]

theorem Mixed.tail {c : Char} {cs cs' : List Char} (h : Mixed cs (c :: cs')) :
    Mixed (lineFeeds cs') cs' ∧ (c = '\r' → ∃ rest, cs' = '\n' :: rest) := by
  cases h with
  | keep hc h => exact ⟨h.lineFeeds_eq.symm ▸ h, fun h => absurd h hc⟩
  | pair h =>
    refine ⟨?_, fun _ => ⟨_, rfl⟩⟩
    rw [lineFeeds_cons (by decide), h.lineFeeds_eq]
    exact .keep (by decide) h

theorem Mixed.of_append {p q cs : List Char} (h : Mixed cs (p ++ q)) : Mixed (lineFeeds q) q := by
  induction p generalizing cs with
  | nil => exact h.lineFeeds_eq.symm ▸ h
  | cons c p ih => exact ih h.tail.1

theorem Mixed.return_not_mem {cs cs' : List Char} (h : Mixed cs cs') : '\r' ∉ cs := by
  induction h with
  | nil => exact List.not_mem_nil
  | keep hc h ih => simp [Ne.symm hc, ih]
  | pair h ih => simp [ih]

theorem mixed_iff {cs cs' : List Char} : Mixed cs cs' ↔ '\r' ∉ cs ∧ lineFeeds cs' = cs := by
  constructor
  · intro h
    exact ⟨h.return_not_mem, h.lineFeeds_eq⟩
  · rintro ⟨hreturn, rfl⟩
    induction cs' with
    | nil => exact .nil
    | cons c cs ih =>
      by_cases hpair : c = '\r' ∧ cs.head? = some '\n'
      · obtain ⟨rfl, hhead⟩ := hpair
        obtain ⟨rest, rfl⟩ := List.head?_eq_some_iff.mp hhead
        rw [lineFeeds_pair] at hreturn ⊢
        rw [lineFeeds_cons (by decide)] at ih
        obtain ⟨htail, -⟩ := (ih hreturn).tail
        exact .pair htail
      · rw [lineFeeds, if_neg hpair] at hreturn ⊢
        rw [List.mem_cons, not_or] at hreturn
        exact .keep (Ne.symm hreturn.1) (ih hreturn.2)

instance (cs cs' : List Char) : Decidable (Mixed cs cs') := decidable_of_iff' _ mixed_iff

theorem takeWhile_lineFeeds {p : Char → Bool} (hreturn : p '\r' = false) (hfeed : p '\n' = false)
    (cs : List Char) : (lineFeeds cs).takeWhile p = cs.takeWhile p := by
  induction cs with
  | nil => rfl
  | cons c cs ih =>
    rw [lineFeeds]
    split
    · rename_i hpair
      obtain ⟨rfl, hhead⟩ := hpair
      obtain ⟨rest, rfl⟩ := List.head?_eq_some_iff.mp hhead
      rw [lineFeeds_cons (by decide), List.takeWhile_cons_of_neg (by simp [hfeed]),
        List.takeWhile_cons_of_neg (by simp [hreturn])]
    · rw [List.takeWhile_cons, List.takeWhile_cons, ih]

/-- Characters other than the two stand at the start of both texts or of none. -/
theorem prefix_lineFeeds_iff (ds : List Char) (hreturn : '\r' ∉ ds) (hfeed : '\n' ∉ ds)
    (cs : List Char) : ds <+: lineFeeds cs ↔ ds <+: cs := by
  induction cs generalizing ds with
  | nil => exact Iff.rfl
  | cons c cs ih =>
    cases ds with
    | nil => simp
    | cons d ds =>
      rw [List.mem_cons, not_or] at hreturn hfeed
      rw [lineFeeds]
      split
      · rename_i hpair
        obtain ⟨rfl, hhead⟩ := hpair
        obtain ⟨rest, rfl⟩ := List.head?_eq_some_iff.mp hhead
        rw [lineFeeds_cons (by decide), List.cons_prefix_cons, List.cons_prefix_cons]
        constructor
        · rintro ⟨rfl, -⟩
          exact absurd rfl hfeed.1
        · rintro ⟨rfl, -⟩
          exact absurd rfl hreturn.1
      · rw [List.cons_prefix_cons, List.cons_prefix_cons, ih ds hreturn.2 hfeed.2]

theorem take_lineFeeds_eq_iff (ds : List Char) (hreturn : '\r' ∉ ds) (hfeed : '\n' ∉ ds)
    (cs : List Char) : (lineFeeds cs).take ds.length = ds ↔ cs.take ds.length = ds := by
  have h := prefix_lineFeeds_iff ds hreturn hfeed cs
  rw [List.prefix_iff_eq_take, List.prefix_iff_eq_take] at h
  rw [eq_comm, h, eq_comm]

theorem lineFeeds_of_not_mem {cs : List Char} (h : '\r' ∉ cs) : lineFeeds cs = cs := by
  induction cs with
  | nil => rfl
  | cons c cs ih =>
    rw [List.mem_cons, not_or] at h
    rw [lineFeeds_cons (Ne.symm h.1), ih h.2]

/-- Characters at the start, no carriage return among them. -/
theorem take_lineFeeds {k : Nat} {cs : List Char} (hreturn : '\r' ∉ cs.take k) :
    (lineFeeds cs).take k = cs.take k := by
  induction k generalizing cs with
  | zero => rfl
  | succ k ih =>
    cases cs with
    | nil => rfl
    | cons c cs =>
      rw [List.take_succ_cons, List.mem_cons, not_or] at hreturn
      rw [lineFeeds_cons (Ne.symm hreturn.1), List.take_succ_cons, List.take_succ_cons, ih hreturn.2]

theorem drop_lineFeeds {k : Nat} {cs : List Char} (hreturn : '\r' ∉ cs.take k) :
    (lineFeeds cs).drop k = lineFeeds (cs.drop k) := by
  induction k generalizing cs with
  | zero => rfl
  | succ k ih =>
    cases cs with
    | nil => rfl
    | cons c cs =>
      rw [List.take_succ_cons, List.mem_cons, not_or] at hreturn
      rw [lineFeeds_cons (Ne.symm hreturn.1), List.drop_succ_cons, List.drop_succ_cons, ih hreturn.2]

end Text

namespace Source

open Text

theorem numberLength_lineFeeds (cs : List Char) : numberLength (lineFeeds cs) = numberLength cs := by
  have hdigits : ∀ cs, (lineFeeds cs).takeWhile Char.isDigit = cs.takeWhile Char.isDigit :=
    takeWhile_lineFeeds (by decide) (by decide)
  have hdrop : (lineFeeds cs).drop (cs.takeWhile Char.isDigit).length =
      lineFeeds (cs.drop (cs.takeWhile Char.isDigit).length) := by
    have hreturn : '\r' ∉ cs.take (cs.takeWhile Char.isDigit).length := by
      rw [take_length_takeWhile]
      exact return_not_mem_takeWhile (by decide) cs
    exact drop_lineFeeds hreturn
  unfold numberLength
  dsimp only
  rw [hdigits, hdrop]
  generalize cs.drop (cs.takeWhile Char.isDigit).length = ds
  have hpoint := prefix_lineFeeds_iff ['.'] (by decide) (by decide) ds
  by_cases hds : ['.'] <+: ds
  · obtain ⟨rest, rfl⟩ := hds
    rw [List.singleton_append, lineFeeds_cons (by decide)]
    simp only [hdigits]
  · have hnone : ∀ {es : List Char}, ¬ ['.'] <+: es → ∀ rest, es ≠ '.' :: rest := by
      rintro es hes rest rfl
      exact hes ⟨rest, rfl⟩
    split
    · exact absurd ‹_› (hnone (mt hpoint.mp hds) _)
    · split
      · exact absurd rfl (hnone hds _)
      · rfl

/-- A token that does not start with a carriage return. -/
theorem lexeme_lineFeeds {c : Char} (hc : c ≠ '\r') (cs : List Char) :
    lexeme c (lineFeeds cs) = lexeme c cs := by
  have hpoints := take_lineFeeds_eq_iff ['.', '.'] (by decide) (by decide) cs
  have hgreater := take_lineFeeds_eq_iff ['>'] (by decide) (by decide) cs
  have hspaces := takeWhile_lineFeeds (p := isSpaceOrTab) (by decide) (by decide) cs
  have hparts := takeWhile_lineFeeds (p := isIdentifierPart) (by decide) (by decide) cs
  have hruns := takeWhile_lineFeeds (p := isPunctuation) (by decide) (by decide) cs
  simp only [List.length_cons, List.length_nil, Nat.reduceAdd] at hpoints hgreater
  unfold lexeme
  simp only [hpoints, hgreater, hspaces, hparts, hruns, numberLength_lineFeeds]
  split <;> first | rfl | exact absurd rfl hc

/-- The text with a single line feed for each pair. -/
def withLineFeeds (s : String) : String := String.ofList (lineFeeds s.toList)

@[simp] theorem toList_withLineFeeds (s : String) :
    (withLineFeeds s).toList = lineFeeds s.toList := String.toList_ofList

def moveSpan (n : Nat → Nat) (span : Span) : Span := ⟨n span.start, n span.stop⟩

namespace Token

/-- The token in the text with line feeds only, where offsets are counted otherwise. -/
def moved (n : Nat → Nat) (t : Token) : Token :=
  ⟨t.kind, withLineFeeds t.text, moveSpan n t.span⟩

/-- There are no carriage returns but in line breaks, and none at the end. -/
structure Regular (t : Token) : Prop where
  plain : t.kind ≠ .newline → '\r' ∉ t.text.toList
  ends : t.text.toList.getLast? ≠ some '\r'

theorem Regular.text_moved {t : Token} (h : t.Regular) (hkind : t.kind ≠ .newline) (n : Nat → Nat) :
    (t.moved n).text = t.text := by
  rw [moved, withLineFeeds, lineFeeds_of_not_mem (h.plain hkind), String.ofList_toList]

end Token

/-- The first token of a text, with line feeds only. -/
theorem tokensFrom_lineFeeds_cons {c : Char} {cs ds : List Char} (h : Mixed ds (c :: cs))
    (offset : Nat) : ∃ p, p = c :: cs.take (lexeme c cs).2 ∧
      tokensFrom offset (lineFeeds (c :: cs)) =
        ⟨(lexeme c cs).1, String.ofList (lineFeeds p), ⟨offset, offset + byteLength (lineFeeds p)⟩⟩ ::
        tokensFrom (offset + byteLength (lineFeeds p)) (lineFeeds (cs.drop (lexeme c cs).2)) ∧
      p.getLast? ≠ some '\r' ∧ ((lexeme c cs).1 ≠ .newline → '\r' ∉ p) := by
  refine ⟨_, rfl, ?_⟩
  by_cases hc : c = '\r'
  · obtain ⟨rest, rfl⟩ := h.tail.2 hc
    subst hc
    have hlexeme : lexeme '\r' ('\n' :: rest) = (.newline, 1) := rfl
    have hfeed : lexeme '\n' (lineFeeds rest) = (.newline, 0) := rfl
    rw [hlexeme, lineFeeds_pair, tokensFrom_cons, hfeed]
    refine ⟨rfl, ?_, fun h => absurd rfl h⟩
    exact show some '\n' ≠ some '\r' by decide
  · have hreturn := return_not_mem_lexeme hc cs
    have hmem : '\r' ∉ c :: cs.take (lexeme c cs).2 := by
      rw [List.mem_cons, not_or]
      exact ⟨Ne.symm hc, hreturn⟩
    rw [lineFeeds_cons hc, tokensFrom_cons, lexeme_lineFeeds hc, take_lineFeeds hreturn,
      drop_lineFeeds hreturn, lineFeeds_of_not_mem hmem]
    refine ⟨rfl, ?_, fun _ => hmem⟩
    intro hlast
    exact hmem (List.mem_of_getLast? hlast)

/-- Tokens behind some text are those of the text with line feeds only, moved. -/
theorem tokensFrom_mixed {a b ds : List Char} (h : Mixed ds b) (hcut : Cut a b) {n : Nat → Nat}
    (hn : ∀ x y, a ++ b = x ++ y → Cut x y → n (byteLength x) = byteLength (lineFeeds x)) :
    tokensFrom (byteLength (lineFeeds a)) (lineFeeds b) =
        (tokensFrom (byteLength a) b).map (Token.moved n) ∧
      ∀ t ∈ tokensFrom (byteLength a) b, t.Regular := by
  induction hlength : b.length using Nat.strongRecOn generalizing a b ds with
  | ind length ih =>
    cases b with
    | nil =>
      rw [lineFeeds, tokensFrom, tokensFrom]
      exact ⟨rfl, List.forall_mem_nil _⟩
    | cons c cs =>
      obtain ⟨p, hp, hfirst, hlast, hreturn⟩ :=
        tokensFrom_lineFeeds_cons h (byteLength (lineFeeds a))
      have hpart := cut_lexeme c cs
      rw [tokensFrom_cons, hfirst]
      rw [← hp] at hpart ⊢
      generalize hq : cs.drop (lexeme c cs).2 = q at hpart ⊢
      have hwhole : c :: cs = p ++ q := by
        rw [hp, ← hq, List.cons_append, List.take_append_drop]
      have hlt : q.length < length := by
        rw [← hlength, ← hq, List.length_drop, List.length_cons]
        omega
      have hcut' : Cut (a ++ p) q := by
        refine Cut.append_left ?_ hpart
        rw [hp]
        exact List.cons_ne_nil _ _
      have hboth : lineFeeds (a ++ p) = lineFeeds a ++ lineFeeds p := by
        refine lineFeeds_append ?_
        intro ha hfeed
        refine hcut ha ?_
        rw [hp] at hfeed
        exact hfeed
      rw [hwhole] at h hn hcut
      obtain ⟨hrest, hregular⟩ := ih q.length hlt h.of_append hcut'
        (by rwa [List.append_assoc]) rfl
      rw [hboth, byteLength_append, byteLength_append] at hrest
      rw [byteLength_append] at hregular
      rw [hrest, List.map_cons, List.forall_mem_cons]
      refine ⟨?_, ⟨fun hkind => ?_, ?_⟩, hregular⟩
      · congr 1
        have hstart := hn a (p ++ q) rfl hcut
        have hstop := hn (a ++ p) q (List.append_assoc _ _ _).symm hcut'
        rw [hboth, byteLength_append, byteLength_append] at hstop
        rw [Token.moved, moveSpan, withLineFeeds, String.toList_ofList, hstart, hstop]
      · rw [String.toList_ofList]
        exact hreturn hkind
      · rw [String.toList_ofList]
        exact hlast

/-- The offset of a cut in the text with line feeds only. -/
theorem normalized_ofText {source : String} {a b : List Char} (hsource : source.toList = a ++ b)
    (hcut : Cut a b) :
    (LineIndex.ofText source).normalized (byteLength a) = byteLength (lineFeeds a) := by
  rw [LineIndex.ofText, hsource]
  exact LineIndex.normalized_cut hcut

theorem tokenize_mixed {source source' : String} (h : Mixed source.toList source'.toList) :
    tokenize source =
        (tokenize source').map (Token.moved (LineIndex.ofText source').normalized) ∧
      ∀ t ∈ tokenize source', t.Regular := by
  have htokens := tokensFrom_mixed h (cut_nil _) (n := (LineIndex.ofText source').normalized)
    fun x y hxy hcut => normalized_ofText hxy hcut
  rw [h.lineFeeds_eq] at htokens
  exact htokens

end Source

end MarkupTrace
