import MarkupTrace.Source.Token
import MarkupTrace.Text.Lines
import Mathlib.Data.List.TakeWhile
import Mathlib.Tactic.SplitIfs

/-!
# Line endings

A carriage return before a line feed is a pair. Where a text is cut without splitting a pair, the index
gives the offset of the cut in the text whose pairs are single line feeds, and the number of its line.
Tokens never split a pair.
-/

namespace MarkupTrace

namespace Text

/-- The text with a single line feed for each pair. -/
def lineFeeds : List Char → List Char
  | [] => []
  | c :: cs => if c = '\r' ∧ cs.head? = some '\n' then lineFeeds cs else c :: lineFeeds cs

/-- No pair has one half in each of the texts. -/
def Cut (a b : List Char) : Prop := a.getLast? = some '\r' → b.head? ≠ some '\n'

variable {a b : List Char}

theorem cut_nil (b : List Char) : Cut [] b := nofun

theorem Cut.tail {c d : Char} (h : Cut (c :: d :: a) b) : Cut (d :: a) b := by
  intro hlast
  exact h (by rwa [List.getLast?_cons_cons])

theorem Cut.append_left {c : List Char} (hb : b ≠ []) (h : Cut b c) : Cut (a ++ b) c := by
  intro hlast
  refine h ?_
  rw [List.getLast?_append, List.getLast?_eq_some_getLast hb] at hlast
  rw [List.getLast?_eq_some_getLast hb]
  exact hlast

theorem Cut.left {c : List Char} (h : Cut a (b ++ c)) : Cut a b := by
  intro hlast hhead
  refine h hlast ?_
  cases b with
  | nil => cases hhead
  | cons d b => exact hhead

/-- Within a text, a pair is seen from its first half. -/
theorem Cut.head_append {c : Char} (h : Cut (c :: a) b) :
    (c = '\r' ∧ (a ++ b).head? = some '\n') ↔ (c = '\r' ∧ a.head? = some '\n') := by
  cases a with
  | nil =>
    constructor
    · rintro ⟨rfl, hb⟩
      exact absurd hb (h rfl)
    · rintro ⟨-, hnone⟩
      cases hnone
  | cons d a => exact Iff.rfl

theorem lineFeeds_append (h : Cut a b) : lineFeeds (a ++ b) = lineFeeds a ++ lineFeeds b := by
  induction a with
  | nil => rfl
  | cons c a ih =>
    have hrest : lineFeeds (a ++ b) = lineFeeds a ++ lineFeeds b := by
      cases a with
      | nil => rfl
      | cons d a => exact ih h.tail
    rw [List.cons_append, lineFeeds, lineFeeds, hrest]
    simp only [h.head_append]
    split <;> rfl

namespace LineIndex

theorem byteLength_lineFeeds (offset : Nat) (cs : List Char) :
    byteLength (lineFeeds cs) + (pairsFrom offset cs).length = byteLength cs := by
  induction cs generalizing offset with
  | nil => rfl
  | cons c cs ih =>
    have hrest := ih (offset + c.utf8Size)
    rw [lineFeeds, pairsFrom, byteLength_cons]
    by_cases hpair : c = '\r' ∧ cs.head? = some '\n'
    · have hsize : c.utf8Size = 1 := by
        rw [hpair.1]
        decide
      simp only [if_pos hpair, List.length_cons]
      omega
    · simp only [if_neg hpair, byteLength_cons]
      omega

theorem pairsFrom_append (h : Cut a b) (offset : Nat) :
    pairsFrom offset (a ++ b) = pairsFrom offset a ++ pairsFrom (offset + byteLength a) b := by
  induction a generalizing offset with
  | nil => rfl
  | cons c a ih =>
    have hrest : pairsFrom (offset + c.utf8Size) (a ++ b) = pairsFrom (offset + c.utf8Size) a ++
        pairsFrom (offset + byteLength (c :: a)) b := by
      rw [byteLength_cons, ← Nat.add_assoc]
      cases a with
      | nil => rfl
      | cons d a => exact ih h.tail _
    rw [List.cons_append, pairsFrom, pairsFrom, hrest]
    simp only [h.head_append]
    split <;> rfl

theorem bounds_of_mem_pairsFrom {offset s : Nat} {cs : List Char} (h : s ∈ pairsFrom offset cs) :
    offset ≤ s ∧ s + 2 ≤ offset + byteLength cs := by
  induction cs generalizing offset with
  | nil => cases h
  | cons c cs ih =>
    rw [pairsFrom] at h
    rw [byteLength_cons]
    have hrest : s ∈ pairsFrom (offset + c.utf8Size) cs →
        offset ≤ s ∧ s + 2 ≤ offset + (c.utf8Size + byteLength cs) := by
      intro h
      have := ih h
      omega
    split at h
    · rename_i hpair
      rcases List.mem_cons.mp h with rfl | h
      · obtain ⟨rfl, hhead⟩ := hpair
        cases cs with
        | nil => cases hhead
        | cons d cs =>
          have := d.utf8Size_pos
          have := Char.utf8Size_pos '\r'
          rw [byteLength_cons]
          omega
      · exact hrest h
    · exact hrest h

theorem length_startsFrom (offset : Nat) (cs : List Char) :
    (startsFrom offset cs).length = cs.count '\n' := by
  induction cs generalizing offset with
  | nil => rfl
  | cons c cs ih =>
    rw [startsFrom, List.count_cons]
    by_cases hc : c = '\n'
    · rw [if_pos hc, List.length_cons, ih, if_pos (beq_iff_eq.mpr hc)]
    · rw [if_neg hc, ih, if_neg (by simpa using hc), Nat.add_zero]

theorem startsFrom_append (offset : Nat) (a b : List Char) :
    startsFrom offset (a ++ b) = startsFrom offset a ++ startsFrom (offset + byteLength a) b := by
  induction a generalizing offset with
  | nil => rfl
  | cons c a ih =>
    rw [List.cons_append, startsFrom, startsFrom, ih, byteLength_cons, ← Nat.add_assoc]
    split <;> rfl

theorem bounds_of_mem_startsFrom {offset s : Nat} {cs : List Char} (h : s ∈ startsFrom offset cs) :
    offset < s ∧ s ≤ offset + byteLength cs := by
  induction cs generalizing offset with
  | nil => cases h
  | cons c cs ih =>
    have hpos := c.utf8Size_pos
    rw [startsFrom] at h
    rw [byteLength_cons]
    split at h
    · rcases List.mem_cons.mp h with rfl | h
      · omega
      · have := ih h
        omega
    · have := ih h
      omega

theorem lastStart_append {offset : Nat} {starts further : List Nat}
    (hstarts : ∀ s ∈ starts, s ≤ offset) (hfurther : ∀ s ∈ further, offset < s) (found : Nat × Nat) :
    (lastStart offset (starts ++ further) found).1 = found.1 + starts.length := by
  induction starts generalizing found with
  | nil =>
    cases further with
    | nil => rfl
    | cons s further =>
      have := hfurther s List.mem_cons_self
      rw [List.nil_append, lastStart, if_neg (by omega)]
      rfl
  | cons s starts ih =>
    rw [List.forall_mem_cons] at hstarts
    rw [List.cons_append, lastStart, if_pos hstarts.1, ih hstarts.2, List.length_cons]
    omega

/-- The number of the line in which a cut is. -/
theorem lineNumber_cut (a b : List Char) :
    (ofChars (a ++ b)).lineNumber (byteLength a) = a.count '\n' + 1 := by
  unfold lineNumber position ofChars
  dsimp only
  rw [List.drop_one, List.tail_cons, startsFrom_append, lastStart_append, length_startsFrom]
  · exact congrArg (· + 1) (Nat.zero_add _)
  · intro s hs
    have := bounds_of_mem_startsFrom hs
    omega
  · intro s hs
    have := bounds_of_mem_startsFrom hs
    omega

/-- The offset of a cut, counted with single line feeds for pairs. -/
theorem normalized_cut (h : Cut a b) :
    (ofChars (a ++ b)).normalized (byteLength a) = byteLength (lineFeeds a) := by
  have hcount : (ofChars (a ++ b)).pairsBefore (byteLength a) = (pairsFrom 0 a).length := by
    unfold pairsBefore ofChars
    dsimp only
    rw [pairsFrom_append h, List.takeWhile_append_of_pos]
    · have hnone : (pairsFrom (0 + byteLength a) b).takeWhile
          (fun s => decide (s + 2 ≤ byteLength a)) = [] := by
        cases hb : pairsFrom (0 + byteLength a) b with
        | nil => rfl
        | cons s rest =>
          have := bounds_of_mem_pairsFrom (hb ▸ List.mem_cons_self : s ∈ pairsFrom (0 + byteLength a) b)
          rw [List.takeWhile_cons_of_neg]
          simp only [decide_eq_true_eq]
          omega
      rw [hnone, List.append_nil]
    · intro s hs
      have := bounds_of_mem_pairsFrom hs
      simp only [decide_eq_true_eq]
      omega
  have hlength := byteLength_lineFeeds 0 a
  unfold normalized
  rw [hcount]
  omega

end LineIndex

end Text

namespace Source

open Text

/-! ## Tokens -/

/-- The characters of tokens. -/
def textOf (ts : List Token) : List Char := ts.flatMap fun t => t.text.toList

@[simp] theorem textOf_nil : textOf [] = [] := rfl

@[simp] theorem textOf_cons (t : Token) (ts : List Token) :
    textOf (t :: ts) = t.text.toList ++ textOf ts := rfl

@[simp] theorem textOf_append (ts us : List Token) : textOf (ts ++ us) = textOf ts ++ textOf us :=
  List.flatMap_append

theorem toList_join (ts : List Token) : (String.join (ts.map Token.text)).toList = textOf ts := by
  induction ts with
  | nil => rfl
  | cons t ts ih => rw [List.map_cons, String.join_cons, String.toList_append, ih, textOf_cons]

theorem tokensFrom_cons (offset : Nat) (c : Char) (cs : List Char) :
    tokensFrom offset (c :: cs) =
      ⟨(lexeme c cs).1, String.ofList (c :: cs.take (lexeme c cs).2),
        ⟨offset, offset + byteLength (c :: cs.take (lexeme c cs).2)⟩⟩ ::
      tokensFrom (offset + byteLength (c :: cs.take (lexeme c cs).2)) (cs.drop (lexeme c cs).2) := by
  rw [tokensFrom]

theorem take_length_takeWhile (p : Char → Bool) (cs : List Char) :
    cs.take (cs.takeWhile p).length = cs.takeWhile p :=
  (List.prefix_iff_eq_take.mp (List.takeWhile_prefix p)).symm

theorem return_not_mem_takeWhile {p : Char → Bool} (hp : p '\r' = false) (cs : List Char) :
    '\r' ∉ cs.takeWhile p := by
  intro h
  have := List.mem_takeWhile_imp h
  rw [hp] at this
  cases this

theorem return_not_mem_number (cs : List Char) : '\r' ∉ cs.take (numberLength cs) := by
  have hwhole := return_not_mem_takeWhile (p := Char.isDigit) (by decide) cs
  unfold numberLength
  dsimp only
  split
  · rename_i rest hrest
    have hcs : cs = cs.takeWhile Char.isDigit ++ '.' :: rest := by
      rw [← hrest]
      have hsplit := List.take_append_drop (cs.takeWhile Char.isDigit).length cs
      rw [take_length_takeWhile] at hsplit
      exact hsplit.symm
    split
    · rwa [take_length_takeWhile]
    · have hfraction := return_not_mem_takeWhile (p := Char.isDigit) (by decide) rest
      generalize hds : cs.takeWhile Char.isDigit = ds at hcs hwhole ⊢
      rw [hcs, Nat.add_assoc, List.take_length_add_append, Nat.add_comm 1, List.take_succ_cons,
        take_length_takeWhile]
      simp only [List.mem_append, List.mem_cons, not_or]
      exact ⟨hwhole, by decide, hfraction⟩
  · rwa [take_length_takeWhile]

theorem return_not_mem_lexeme {c : Char} (hc : c ≠ '\r') (cs : List Char) :
    '\r' ∉ cs.take (lexeme c cs).2 := by
  unfold lexeme
  split
  case h_13 =>
    split
    · rename_i hpoints
      rw [hpoints]
      decide
    · exact List.not_mem_nil
  case h_14 =>
    split
    · rename_i hgreater
      rw [hgreater]
      decide
    · exact List.not_mem_nil
  case h_20 => exact absurd rfl hc
  case h_21 =>
    split_ifs
    · rw [take_length_takeWhile]
      exact return_not_mem_takeWhile (by decide) cs
    · rw [take_length_takeWhile]
      exact return_not_mem_takeWhile (by decide) cs
    · exact return_not_mem_number cs
    · rw [take_length_takeWhile]
      exact return_not_mem_takeWhile (by decide) cs
  all_goals exact List.not_mem_nil

/-- A token ends with a carriage return only if it is nothing else and no line feed follows. -/
theorem cut_lexeme (c : Char) (cs : List Char) :
    Cut (c :: cs.take (lexeme c cs).2) (cs.drop (lexeme c cs).2) := by
  by_cases hc : c = '\r'
  · subst hc
    cases cs with
    | nil => exact fun _ => nofun
    | cons d cs =>
      by_cases hd : d = '\n'
      · subst hd
        have hlexeme : lexeme '\r' ('\n' :: cs) = (.newline, 1) := rfl
        rw [hlexeme]
        exact fun h => absurd (show some '\n' = some '\r' from h) (by decide)
      · intro _
        simp [lexeme, hd]
  · intro hlast
    rcases List.mem_cons.mp (List.mem_of_getLast? hlast) with h | h
    · exact absurd h.symm hc
    · exact absurd h (return_not_mem_lexeme hc cs)

/-- Tokens can be taken apart anywhere. -/
theorem tokensFrom_eq_append {offset : Nat} {cs : List Char} {ts us : List Token}
    (h : tokensFrom offset cs = ts ++ us) : ∃ b, cs = textOf ts ++ b ∧ Cut (textOf ts) b ∧
      tokensFrom (offset + byteLength (textOf ts)) b = us := by
  induction ts generalizing offset cs with
  | nil => exact ⟨cs, rfl, cut_nil cs, h⟩
  | cons t ts ih =>
    cases cs with
    | nil =>
      rw [tokensFrom] at h
      cases h
    | cons c cs =>
      rw [tokensFrom_cons, List.cons_append] at h
      obtain ⟨rfl, hrest⟩ := List.cons_eq_cons.mp h
      obtain ⟨b, hb, hcut, hus⟩ := ih hrest
      have hlexeme := cut_lexeme c cs
      rw [hb] at hlexeme
      rw [textOf_cons, String.toList_ofList]
      refine ⟨b, ?_, ?_, ?_⟩
      · rw [List.append_assoc, ← hb, List.cons_append, List.take_append_drop]
      · by_cases hnil : textOf ts = []
        · rw [hnil, List.nil_append] at hlexeme
          rw [hnil, List.append_nil]
          exact hlexeme
        · exact hcut.append_left hnil
      · rw [byteLength_append, ← Nat.add_assoc]
        exact hus

end Source

end MarkupTrace
