import MarkupTrace.Proofs.TextLines
import Mathlib.Data.List.Sort
import Mathlib.Order.Monotone.Basic

/-!
# Offsets by counting

The index of a text finds lines and pairs by searching what one scan over the text has left. Here its
answers are compared with plain counting in the bytes before an offset: the line feeds, the bytes since
the last of them, and the carriage returns that one of these line feeds follows. An offset need not lie
between characters. It may split a pair, and it may lie behind the text.
-/

namespace MarkupTrace.Text

/-! ## Bytes -/

/-- The bytes of a text in UTF-8. -/
def bytesOf (cs : List Char) : List UInt8 := cs.flatMap String.utf8EncodeChar

theorem bytesOf_cons (c : Char) (cs : List Char) :
    bytesOf (c :: cs) = String.utf8EncodeChar c ++ bytesOf cs := List.flatMap_cons

theorem toList_toUTF8 (source : String) : source.toUTF8.data.toList = bytesOf source.toList := by
  have hbytes : source.toByteArray = source.toList.utf8Encode := by
    rw [← String.toByteArray_ofList, String.ofList_toList]
  rw [String.toUTF8_eq_toByteArray, hbytes, List.utf8Encode, List.toList_data_toByteArray]
  rfl

/-- A character of several bytes has none below 128, and any other one is its only byte. -/
theorem toNat_eq_of_mem {c : Char} {b : UInt8} (h : b ∈ String.utf8EncodeChar c)
    (hb : b.toNat < 128) : c.toNat = b.toNat := by
  have hc : c.toNat = c.val.toNat := rfl
  unfold String.utf8EncodeChar at h
  dsimp only at h
  split_ifs at h with h₁ h₂ h₃
  all_goals simp only [List.mem_cons, List.not_mem_nil, or_false] at h
  · rw [h, UInt8.toNat_ofNat']
    omega
  · rcases h with rfl | rfl <;> rw [UInt8.toNat_ofNat'] at hb <;> omega
  · rcases h with rfl | rfl | rfl <;> rw [UInt8.toNat_ofNat'] at hb <;> omega
  · rcases h with rfl | rfl | rfl | rfl <;> rw [UInt8.toNat_ofNat'] at hb <;> omega

theorem feed_not_mem_utf8 {c : Char} (hc : c ≠ '\n') : 10 ∉ String.utf8EncodeChar c := by
  intro h
  have heq := toNat_eq_of_mem h (by decide)
  exact hc (Char.toNat_inj.mp heq)

theorem return_not_mem_utf8 {c : Char} (hc : c ≠ '\r') : 13 ∉ String.utf8EncodeChar c := by
  intro h
  have heq := toNat_eq_of_mem h (by decide)
  exact hc (Char.toNat_inj.mp heq)

theorem head?_bytesOf (cs : List Char) : (bytesOf cs).head? = some 10 ↔ cs.head? = some '\n' := by
  cases cs with
  | nil => simp [bytesOf]
  | cons c cs =>
    rw [bytesOf_cons]
    by_cases hc : c = '\n'
    · subst hc
      simp [String.utf8EncodeChar]
    · have hnot := feed_not_mem_utf8 hc
      cases hbytes : String.utf8EncodeChar c with
      | nil =>
        have hlength := String.length_utf8EncodeChar c
        have hpos := c.utf8Size_pos
        simp only [hbytes, List.length_nil] at hlength
        omega
      | cons b bs =>
        rw [hbytes] at hnot
        simp only [List.mem_cons, not_or] at hnot
        simp [hc, Ne.symm hnot.1]

/-- How many carriage returns a line feed follows. -/
def pairCount : List UInt8 → Nat
  | [] => 0
  | b :: bs => if b = 13 ∧ bs.head? = some 10 then pairCount bs + 1 else pairCount bs

/-- The bytes with a single line feed for each pair. -/
def singleFeeds : List UInt8 → List UInt8
  | [] => []
  | b :: bs => if b = 13 ∧ bs.head? = some 10 then singleFeeds bs else b :: singleFeeds bs

theorem length_singleFeeds (bs : List UInt8) : (singleFeeds bs).length + pairCount bs = bs.length := by
  induction bs with
  | nil => rfl
  | cons b bs ih =>
    rw [singleFeeds, pairCount]
    split <;> simp only [List.length_cons] <;> omega

theorem head?_take_eq_some {bs : List UInt8} {b : UInt8} {n : Nat} :
    (bs.take n).head? = some b ↔ bs.head? = some b ∧ 0 < n := by
  cases n with
  | zero => simp
  | succ n => cases bs <;> simp

/-- One byte more completes one pair at most. -/
theorem pairCount_take_succ (bs : List UInt8) (n : Nat) :
    pairCount (bs.take (n + 1)) ≤ pairCount (bs.take n) + 1 := by
  induction bs generalizing n with
  | nil => simp
  | cons b bs ih =>
    cases n with
    | zero => simp [pairCount]
    | succ n =>
      have hrest := ih n
      rw [List.take_succ_cons, List.take_succ_cons, pairCount, pairCount]
      simp only [head?_take_eq_some]
      split_ifs with hlong hshort hshort
      · omega
      · -- the pair is complete only with the byte that is added
        have hn : n = 0 := by
          by_contra hne
          exact hshort ⟨hlong.1, hlong.2.1, by omega⟩
        subst hn
        cases bs with
        | nil => simp [pairCount]
        | cons d bs => simp [pairCount]
      · omega
      · omega

namespace LineIndex

/-! ## The scan -/

/-- Offsets just after each line feed, for bytes that start at the offset. -/
def feedsFrom (offset : Nat) : List UInt8 → List Nat
  | [] => []
  | b :: bs => if b = 10 then (offset + 1) :: feedsFrom (offset + 1) bs else feedsFrom (offset + 1) bs

/-- Offsets of the carriage returns that a line feed follows, for bytes that start at the offset. -/
def returnsFrom (offset : Nat) : List UInt8 → List Nat
  | [] => []
  | b :: bs =>
    if b = 13 ∧ bs.head? = some 10 then offset :: returnsFrom (offset + 1) bs
    else returnsFrom (offset + 1) bs

theorem feedsFrom_append (offset : Nat) (a b : List UInt8) :
    feedsFrom offset (a ++ b) = feedsFrom offset a ++ feedsFrom (offset + a.length) b := by
  induction a generalizing offset with
  | nil => rfl
  | cons d a ih =>
    rw [List.cons_append, feedsFrom, feedsFrom, ih, List.length_cons, Nat.add_assoc, Nat.add_comm 1]
    split <;> rfl

theorem feedsFrom_of_not_mem {bs : List UInt8} (h : 10 ∉ bs) (offset : Nat) :
    feedsFrom offset bs = [] := by
  induction bs generalizing offset with
  | nil => rfl
  | cons b bs ih =>
    simp only [List.mem_cons, not_or] at h
    rw [feedsFrom, if_neg (Ne.symm h.1), ih h.2]

theorem returnsFrom_append {a : List UInt8} (h : 13 ∉ a) (offset : Nat) (b : List UInt8) :
    returnsFrom offset (a ++ b) = returnsFrom (offset + a.length) b := by
  induction a generalizing offset with
  | nil => rfl
  | cons d a ih =>
    simp only [List.mem_cons, not_or] at h
    rw [List.cons_append, returnsFrom, if_neg fun hpair => h.1 hpair.1.symm, ih h.2, List.length_cons,
      Nat.add_assoc, Nat.add_comm 1]

theorem startsFrom_eq (offset : Nat) (cs : List Char) :
    startsFrom offset cs = feedsFrom offset (bytesOf cs) := by
  induction cs generalizing offset with
  | nil => rfl
  | cons c cs ih =>
    rw [startsFrom, bytesOf_cons, feedsFrom_append, String.length_utf8EncodeChar, ← ih]
    by_cases hc : c = '\n'
    · subst hc
      rfl
    · rw [if_neg hc, feedsFrom_of_not_mem (feed_not_mem_utf8 hc), List.nil_append]

theorem pairsFrom_eq (offset : Nat) (cs : List Char) :
    pairsFrom offset cs = returnsFrom offset (bytesOf cs) := by
  induction cs generalizing offset with
  | nil => rfl
  | cons c cs ih =>
    rw [pairsFrom, bytesOf_cons, ih]
    by_cases hc : c = '\r'
    · subst hc
      have hbytes : String.utf8EncodeChar '\r' = [13] := by decide
      rw [hbytes, List.singleton_append, returnsFrom]
      simp only [head?_bytesOf, true_and]
      rfl
    · rw [if_neg fun hpair => hc hpair.1, returnsFrom_append (return_not_mem_utf8 hc),
        String.length_utf8EncodeChar]

theorem length_feedsFrom (offset : Nat) (bs : List UInt8) :
    (feedsFrom offset bs).length = bs.count 10 := by
  induction bs generalizing offset with
  | nil => rfl
  | cons b bs ih =>
    rw [feedsFrom, List.count_cons]
    by_cases hb : b = 10
    · simp [hb, ih]
    · simp [hb, ih]

theorem mem_feedsFrom {offset s : Nat} {bs : List UInt8} :
    s ∈ feedsFrom offset bs ↔ ∃ i, s = offset + i + 1 ∧ bs[i]? = some 10 := by
  induction bs generalizing offset with
  | nil => simp [feedsFrom]
  | cons b bs ih =>
    have hrest : s ∈ feedsFrom (offset + 1) bs ↔ ∃ i, s = offset + (i + 1) + 1 ∧ bs[i]? = some 10 := by
      rw [ih]
      constructor <;> rintro ⟨i, hs, hi⟩ <;> exact ⟨i, by omega, hi⟩
    rw [feedsFrom]
    constructor
    · intro h
      split at h
      · rename_i hb
        rcases List.mem_cons.mp h with rfl | h
        · exact ⟨0, rfl, by simp [hb]⟩
        · obtain ⟨i, hs, hi⟩ := hrest.mp h
          exact ⟨i + 1, hs, hi⟩
      · obtain ⟨i, hs, hi⟩ := hrest.mp h
        exact ⟨i + 1, hs, hi⟩
    · rintro ⟨i, hs, hi⟩
      cases i with
      | zero =>
        have hb : b = 10 := by simpa using hi
        rw [if_pos hb, hs]
        exact List.mem_cons_self
      | succ i =>
        have h := hrest.mpr ⟨i, hs, hi⟩
        split
        · exact List.mem_cons_of_mem _ h
        · exact h

theorem pairwise_feedsFrom (offset : Nat) (bs : List UInt8) :
    (feedsFrom offset bs).Pairwise (· < ·) := by
  induction bs generalizing offset with
  | nil => exact List.Pairwise.nil
  | cons b bs ih =>
    rw [feedsFrom]
    split
    · refine List.Pairwise.cons ?_ (ih _)
      intro s hs
      obtain ⟨i, rfl, -⟩ := mem_feedsFrom.mp hs
      omega
    · exact ih _

theorem le_of_mem_returnsFrom {offset s : Nat} {bs : List UInt8} (h : s ∈ returnsFrom offset bs) :
    offset ≤ s := by
  induction bs generalizing offset with
  | nil => cases h
  | cons b bs ih =>
    rw [returnsFrom] at h
    split at h
    · rcases List.mem_cons.mp h with rfl | h
      · exact Nat.le_refl _
      · exact Nat.le_of_succ_le (ih h)
    · exact Nat.le_of_succ_le (ih h)

theorem pairwise_returnsFrom (offset : Nat) (bs : List UInt8) :
    (returnsFrom offset bs).Pairwise (· < ·) := by
  induction bs generalizing offset with
  | nil => exact List.Pairwise.nil
  | cons b bs ih =>
    rw [returnsFrom]
    split
    · exact List.Pairwise.cons (fun s hs => le_of_mem_returnsFrom hs) (ih _)
    · exact ih _

/-! ## Lines -/

/-- What a search in increasing numbers can answer: the place of the number itself, or else the place
that it would take among them. -/
inductive Finds (numbers : List Nat) (n : Nat) : Except Nat Nat → Prop
  | found {i : Nat} (h : numbers[i]? = some n) : Finds numbers n (.ok i)
  | missing {i : Nat} (hlength : i ≤ numbers.length) (hbefore : ∀ s ∈ numbers.take i, s < n)
      (hbehind : ∀ s ∈ numbers.drop i, n < s) : Finds numbers n (.error i)

/-- The line that holds the offset starts here: at the first byte or behind a line feed, and no line
feed stands between here and the offset. -/
structure StartsLineOf (bytes : List UInt8) (offset start : Nat) : Prop where
  behind : start = 0 ∨ ∃ before, start = before + 1 ∧ bytes[before]? = some 10
  unbroken : 10 ∉ (bytes.take offset).drop start

variable (cs : List Char) (offset : Nat)

theorem lineStarts_eq : (ofChars cs).lineStarts = 0 :: feedsFrom 0 (bytesOf cs) := by
  unfold ofChars
  rw [startsFrom_eq]

theorem pairwise_lineStarts : (ofChars cs).lineStarts.Pairwise (· < ·) := by
  rw [lineStarts_eq]
  refine List.Pairwise.cons ?_ (pairwise_feedsFrom 0 _)
  intro s hs
  obtain ⟨i, rfl, -⟩ := mem_feedsFrom.mp hs
  omega

/-- The bytes before the offset account for the line starts that are not past it. -/
theorem exists_lineStarts_eq_append : ∃ further,
    (ofChars cs).lineStarts = (0 :: feedsFrom 0 ((bytesOf cs).take offset)) ++ further ∧
      (∀ s ∈ feedsFrom 0 ((bytesOf cs).take offset), s ≤ offset) ∧ ∀ s ∈ further, offset < s := by
  refine ⟨feedsFrom ((bytesOf cs).take offset).length ((bytesOf cs).drop offset), ?_, ?_, ?_⟩
  · have happend := feedsFrom_append 0 ((bytesOf cs).take offset) ((bytesOf cs).drop offset)
    rw [List.take_append_drop, Nat.zero_add] at happend
    rw [lineStarts_eq, happend, List.cons_append]
  · intro s hs
    obtain ⟨i, rfl, hi⟩ := mem_feedsFrom.mp hs
    have hlt := (List.getElem?_eq_some_iff.mp hi).choose
    rw [List.length_take] at hlt
    omega
  · intro s hs
    obtain ⟨i, rfl, hi⟩ := mem_feedsFrom.mp hs
    have hlt := (List.getElem?_eq_some_iff.mp hi).choose
    rw [List.length_drop] at hlt
    rw [List.length_take]
    omega

theorem line_eq_count :
    ((ofChars cs).position offset).line = ((bytesOf cs).take offset).count 10 := by
  obtain ⟨further, hstarts, hle, hlt⟩ := exists_lineStarts_eq_append cs offset
  unfold position
  dsimp only
  rw [hstarts, List.cons_append, List.drop_one, List.tail_cons, lastStart_append hle hlt,
    length_feedsFrom, Nat.zero_add]

theorem countP_append_of_bounds {a b : List Nat} {n : Nat} (ha : ∀ s ∈ a, s ≤ n)
    (hb : ∀ s ∈ b, n < s) : (a ++ b).countP (· ≤ n) = a.length := by
  have hfirst : a.countP (· ≤ n) = a.length := by
    rw [List.countP_eq_length]
    simpa using ha
  have hsecond : b.countP (· ≤ n) = 0 := by
    rw [List.countP_eq_zero]
    simpa using hb
  rw [List.countP_append, hfirst, hsecond, Nat.add_zero]

/-- The line is the last one of those that do not start past the offset. -/
theorem countP_lineStarts :
    (ofChars cs).lineStarts.countP (· ≤ offset) = ((ofChars cs).position offset).line + 1 := by
  obtain ⟨further, hstarts, hle, hlt⟩ := exists_lineStarts_eq_append cs offset
  rw [hstarts, countP_append_of_bounds (by simpa using hle) hlt, List.length_cons, length_feedsFrom,
    line_eq_count]

section

variable {numbers : List Nat} {n i : Nat}

theorem Finds.countP_of_ok (hsorted : numbers.Pairwise (· < ·)) (h : Finds numbers n (.ok i)) :
    numbers.countP (· ≤ n) = i + 1 := by
  cases h with
  | found h =>
    obtain ⟨hi, hn⟩ := List.getElem?_eq_some_iff.mp h
    have hsplit : numbers = (numbers.take i ++ [n]) ++ numbers.drop (i + 1) := by
      rw [List.append_assoc, List.singleton_append, ← hn, ← List.drop_eq_getElem_cons hi,
        List.take_append_drop]
    rw [hsplit, List.append_assoc, List.singleton_append, List.pairwise_append,
      List.pairwise_cons] at hsorted
    obtain ⟨-, ⟨hbehind, -⟩, hbefore⟩ := hsorted
    have hle : ∀ s ∈ numbers.take i ++ [n], s ≤ n := by
      intro s hs
      rcases List.mem_append.mp hs with hs | hs
      · exact Nat.le_of_lt (hbefore s hs n List.mem_cons_self)
      · exact Nat.le_of_eq (List.mem_singleton.mp hs)
    rw [hsplit, countP_append_of_bounds hle hbehind, List.length_append, List.length_take,
      List.length_singleton]
    omega

theorem Finds.countP_of_error (h : Finds numbers n (.error i)) : numbers.countP (· ≤ n) = i := by
  cases h with
  | missing hlength hbefore hbehind =>
    have hcount := countP_append_of_bounds (fun s hs => Nat.le_of_lt (hbefore s hs)) hbehind
    rw [List.take_append_drop, List.length_take] at hcount
    omega

theorem exists_finds_append {a b : List Nat} (ha : ∀ s ∈ a, s ≤ n) (hb : ∀ s ∈ b, n < s) :
    ∃ answer, Finds (a ++ b) n answer := by
  by_cases hn : n ∈ a
  · obtain ⟨i, hi⟩ := List.mem_iff_getElem?.mp (List.mem_append_left b hn)
    exact ⟨.ok i, .found hi⟩
  · refine ⟨.error a.length, .missing (by simp) ?_ (by simpa using hb)⟩
    intro s hs
    rw [List.take_left] at hs
    have hne : s ≠ n := fun heq => hn (heq ▸ hs)
    have := ha s hs
    omega

end

/-- A search in the line starts gives the line, or it gives the place behind it, which is not the first
one. -/
theorem line_of_finds {answer : Except Nat Nat} (h : Finds (ofChars cs).lineStarts offset answer) :
    answer = .ok ((ofChars cs).position offset).line ∨
      answer = .error (((ofChars cs).position offset).line + 1) := by
  have hcount := countP_lineStarts cs offset
  cases answer with
  | ok i =>
    rw [h.countP_of_ok (pairwise_lineStarts cs)] at hcount
    exact .inl (congrArg Except.ok (Nat.succ.inj hcount))
  | error i =>
    rw [h.countP_of_error] at hcount
    exact .inr (congrArg Except.error hcount)

theorem exists_finds_lineStarts : ∃ answer, Finds (ofChars cs).lineStarts offset answer := by
  obtain ⟨further, hstarts, hle, hlt⟩ := exists_lineStarts_eq_append cs offset
  rw [hstarts]
  exact exists_finds_append (by simpa using hle) hlt

/-- The column counts from the start of the line that holds the offset. -/
theorem column_spec : ∃ start,
    (ofChars cs).lineStarts[((ofChars cs).position offset).line]? = some start ∧
    start + ((ofChars cs).position offset).column = offset ∧ StartsLineOf (bytesOf cs) offset start := by
  obtain ⟨start, hstart, hcolumn, hnext⟩ := position_spec cs offset
  refine ⟨start, hstart, hcolumn, ?_, ?_⟩
  · have hmem := List.mem_of_getElem? hstart
    rw [lineStarts_eq] at hmem
    rcases List.mem_cons.mp hmem with rfl | hmem
    · exact .inl rfl
    · obtain ⟨i, rfl, hi⟩ := mem_feedsFrom.mp hmem
      exact .inr ⟨i, by omega, hi⟩
  · -- a line feed in between would start a line behind this one and not past the offset
    intro hmem
    obtain ⟨i, hi⟩ := List.mem_iff_getElem?.mp hmem
    rw [List.getElem?_drop, List.getElem?_take] at hi
    split_ifs at hi with hlt
    have hstarts : start + i + 1 ∈ (ofChars cs).lineStarts := by
      rw [lineStarts_eq]
      exact List.mem_cons_of_mem _ (mem_feedsFrom.mpr ⟨start + i, by omega, hi⟩)
    obtain ⟨j, hj⟩ := List.mem_iff_getElem?.mp hstarts
    have hsorted := List.pairwise_iff_getElem.mp (pairwise_lineStarts cs)
    obtain ⟨hline, hstart⟩ := List.getElem?_eq_some_iff.mp hstart
    obtain ⟨hlength, hj⟩ := List.getElem?_eq_some_iff.mp hj
    have hlater : ((ofChars cs).position offset).line < j := by
      by_contra hle
      rcases Nat.lt_or_eq_of_le (Nat.le_of_not_lt hle) with hlt | heq
      · have := hsorted _ _ hlength hline hlt
        omega
      · subst heq
        omega
    have hbehind := hnext _ (List.getElem?_eq_getElem (Nat.lt_of_le_of_lt hlater hlength))
    rcases Nat.lt_or_eq_of_le (Nat.succ_le_of_lt hlater) with hlt | heq
    · have := hsorted _ _ (Nat.lt_of_le_of_lt hlater hlength) hlength hlt
      omega
    · subst heq
      omega

/-! ## Pairs -/

theorem takeWhile_eq_nil {numbers : List Nat} {p : Nat → Bool} (h : ∀ s ∈ numbers, p s = false) :
    numbers.takeWhile p = [] := by
  cases numbers with
  | nil => rfl
  | cons s numbers => simp [h s List.mem_cons_self]

theorem length_takeWhile_returnsFrom (start n : Nat) (bs : List UInt8) :
    ((returnsFrom start bs).takeWhile fun s => s + 2 ≤ n).length = pairCount (bs.take (n - start)) := by
  induction bs generalizing start with
  | nil => simp [returnsFrom, pairCount]
  | cons b bs ih =>
    have hrest := ih (start + 1)
    cases hn : n - start with
    | zero =>
      have hnone : ((returnsFrom start (b :: bs)).takeWhile fun s => s + 2 ≤ n) = [] := by
        apply takeWhile_eq_nil
        intro s hs
        have := le_of_mem_returnsFrom hs
        simp only [decide_eq_false_iff_not]
        omega
      rw [hnone]
      rfl
    | succ k =>
      have hk : n - (start + 1) = k := by omega
      rw [hk] at hrest
      rw [returnsFrom, List.take_succ_cons, pairCount]
      simp only [head?_take_eq_some]
      by_cases hpair : b = 13 ∧ bs.head? = some 10
      · rw [if_pos hpair]
        by_cases hcomplete : 0 < k
        · rw [List.takeWhile_cons_of_pos (by simp only [decide_eq_true_eq]; omega), List.length_cons,
            hrest, if_pos ⟨hpair.1, hpair.2, hcomplete⟩]
        · have hzero : k = 0 := by omega
          rw [List.takeWhile_cons_of_neg (by simp only [decide_eq_true_eq]; omega),
            if_neg fun h => hcomplete h.2.2, hzero]
          rfl
      · rw [if_neg hpair, if_neg fun h => hpair ⟨h.1, h.2.1⟩, hrest]

theorem pairsBefore_eq_pairCount :
    (ofChars cs).pairsBefore offset = pairCount ((bytesOf cs).take offset) := by
  unfold pairsBefore ofChars
  rw [pairsFrom_eq, length_takeWhile_returnsFrom, Nat.sub_zero]

/-- The pairs that are counted are complete. -/
theorem complete_of_mem_take {s : Nat}
    (h : s ∈ (ofChars cs).pairStarts.take ((ofChars cs).pairsBefore offset)) : s + 2 ≤ offset := by
  have hfront := List.takeWhile_prefix (fun s => decide (s + 2 ≤ offset))
    (l := (ofChars cs).pairStarts)
  unfold pairsBefore at h
  rw [← List.prefix_iff_eq_take.mp hfront] at h
  simpa using List.mem_takeWhile_imp h

/-- No pair behind them is complete. -/
theorem incomplete_of_mem_drop {s : Nat}
    (h : s ∈ (ofChars cs).pairStarts.drop ((ofChars cs).pairsBefore offset)) : offset < s + 2 := by
  have hsorted : (ofChars cs).pairStarts.Pairwise (· < ·) := by
    unfold ofChars
    rw [pairsFrom_eq]
    exact pairwise_returnsFrom 0 _
  unfold pairsBefore at h
  generalize (ofChars cs).pairStarts = starts at h hsorted
  induction starts with
  | nil => simp at h
  | cons first starts ih =>
    obtain ⟨hfirst, hsorted⟩ := List.pairwise_cons.mp hsorted
    by_cases hcomplete : first + 2 ≤ offset
    · rw [List.takeWhile_cons_of_pos (by simpa using hcomplete), List.length_cons,
        List.drop_succ_cons] at h
      exact ih h hsorted
    · rw [List.takeWhile_cons_of_neg (by simpa using hcomplete), List.length_nil,
        List.drop_zero] at h
      rcases List.mem_cons.mp h with rfl | h
      · omega
      · have := hfirst s h
        omega

theorem normalized_add_pairCount :
    (ofChars cs).normalized offset + pairCount ((bytesOf cs).take offset) = offset := by
  have hlength := length_singleFeeds ((bytesOf cs).take offset)
  have htake := List.length_take_le offset (bytesOf cs)
  unfold normalized
  rw [pairsBefore_eq_pairCount]
  omega

theorem monotone_normalized : Monotone (ofChars cs).normalized := by
  apply monotone_nat_of_le_succ
  intro n
  have hn := normalized_add_pairCount cs n
  have hsucc := normalized_add_pairCount cs (n + 1)
  have hpairs := pairCount_take_succ (bytesOf cs) n
  omega

/-! ## Counting -/

/-- What the index answers for an offset, said of the bytes of the text alone. -/
structure Counts (bytes : List UInt8) (index : LineIndex) (offset : Nat) : Prop where
  /-- There is something to be found, and it is the line itself or the place behind it. -/
  finds : ∃ answer, Finds index.lineStarts offset answer
  line_of_finds : ∀ answer, Finds index.lineStarts offset answer →
    answer = .ok (index.position offset).line ∨ answer = .error ((index.position offset).line + 1)
  line : (index.position offset).line = (bytes.take offset).count 10
  column : ∃ start, index.lineStarts[(index.position offset).line]? = some start ∧
    start + (index.position offset).column = offset ∧ StartsLineOf bytes offset start
  /-- The list of pairs falls into those that are complete and those that are not. -/
  complete : ∀ s ∈ index.pairStarts.take (index.pairsBefore offset), s + 2 ≤ offset
  incomplete : ∀ s ∈ index.pairStarts.drop (index.pairsBefore offset), offset < s + 2
  pairs : index.pairsBefore offset = pairCount (bytes.take offset)
  pairs_le : index.pairsBefore offset ≤ offset
  /-- Behind the text every offset counts one more. -/
  normalized : index.normalized offset =
    (singleFeeds (bytes.take offset)).length + (offset - bytes.length)

end LineIndex

open LineIndex

/-- For every text and every offset, wherever it lies, the line and the column, the number of pairs and
the offset without them are what counting in the bytes gives, no difference falls below zero on the way,
and a later offset is not normalized to an earlier one. -/
theorem index_counts_bytes (source : String) :
    (∀ offset, Counts source.toUTF8.data.toList (LineIndex.ofText source) offset) ∧
      Monotone (LineIndex.ofText source).normalized := by
  rw [toList_toUTF8]
  refine ⟨fun offset => ?_, monotone_normalized source.toList⟩
  have hsum := normalized_add_pairCount source.toList offset
  have hlength := length_singleFeeds ((bytesOf source.toList).take offset)
  rw [List.length_take] at hlength
  exact {
    finds := exists_finds_lineStarts source.toList offset
    line_of_finds := fun _ h => line_of_finds source.toList offset h
    line := line_eq_count source.toList offset
    column := column_spec source.toList offset
    complete := fun _ h => complete_of_mem_take source.toList offset h
    incomplete := fun _ h => incomplete_of_mem_drop source.toList offset h
    pairs := pairsBefore_eq_pairCount source.toList offset
    pairs_le := by
      rw [LineIndex.ofText, pairsBefore_eq_pairCount]
      omega
    normalized := by
      rw [LineIndex.ofText]
      omega }

/-- Between the two halves of a pair nothing is taken off. -/
example : (LineIndex.ofText "a\r\nb").normalized 2 = 2 ∧
    (LineIndex.ofText "a\r\nb").normalized 3 = 2 := by decide

end MarkupTrace.Text
