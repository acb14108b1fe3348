import MarkupTrace.Number.Read
import MarkupTrace.Source.Printer
import Mathlib.Tactic.Ring
import Mathlib.Tactic.SplitIfs

/-!
# Printed numbers read back

A rank is nearest to its own units, and neither common factors of a quotient nor zeros at the end of
digits change what is nearest. So the decimal that a number is printed with, however it was found and
wherever its point stands, reads as the same number.
-/

namespace MarkupTrace

namespace Double

/-! ## Ranks and units -/

theorem binadeSize_pos : 0 < binadeSize := Nat.two_pow_pos 52

theorem divideToEven_one (n : Nat) : divideToEven n 1 = n := by
  simp [divideToEven, Nat.mod_one]

theorem divideToEven_mul_right (num den : Nat) {k : Nat} (hk : 0 < k) :
    divideToEven (num * k) (den * k) = divideToEven num den := by
  unfold divideToEven
  dsimp only
  rw [Nat.mul_div_mul_right num den hk, Nat.mul_mod_mul_right, ← Nat.mul_assoc]
  simp only [Nat.mul_lt_mul_right hk, Nat.mul_left_inj hk.ne']

theorem nearestRank_mul_right (num den : Nat) {k : Nat} (hk : 0 < k) :
    nearestRank (num * k) (den * k) = nearestRank num den := by
  unfold nearestRank
  dsimp only
  rw [Nat.mul_div_mul_right num den hk, Nat.mul_right_comm den k, divideToEven_mul_right _ _ hk]

/-- Below two binades the units are the ranks. -/
theorem units_of_lt {r : Nat} (hr : r < 2 * binadeSize) : units r = r := by
  have hb : binade r = 0 := by
    unfold binade
    have : r / binadeSize < 2 := (Nat.div_lt_iff_lt_mul binadeSize_pos).mpr hr
    omega
  unfold units
  rw [hb, Nat.zero_mul, Nat.sub_zero]
  exact Nat.mul_one r

/-- From there on they are a power of two times a number with 53 binary digits. -/
theorem units_of_le {r : Nat} (hr : 2 * binadeSize ≤ r) : ∃ b m, r = b * binadeSize + m ∧
    binadeSize ≤ m ∧ m < 2 * binadeSize ∧ units r = m * 2 ^ b := by
  have hq : 2 ≤ r / binadeSize := (Nat.le_div_iff_mul_le binadeSize_pos).mpr hr
  obtain ⟨b, hb⟩ : ∃ b, r / binadeSize = b + 1 := ⟨r / binadeSize - 1, by omega⟩
  have hbinade : binade r = b := by
    unfold binade
    omega
  have hdiv := Nat.div_add_mod r binadeSize
  have hmod := Nat.mod_lt r binadeSize_pos
  rw [hb, show binadeSize * (b + 1) = b * binadeSize + binadeSize by ring] at hdiv
  refine ⟨b, r - b * binadeSize, by omega, by omega, by omega, ?_⟩
  unfold units
  rw [hbinade]
  rfl

theorem log2_units {b m : Nat} (hm : binadeSize ≤ m) (hm' : m < 2 * binadeSize) :
    (m * 2 ^ b).log2 = 52 + b := by
  have hsize : binadeSize = 2 ^ 52 := rfl
  have hpos : m * 2 ^ b ≠ 0 :=
    (Nat.mul_pos (Nat.lt_of_lt_of_le binadeSize_pos hm) (Nat.two_pow_pos b)).ne'
  rw [Nat.log2_eq_iff hpos]
  constructor
  · rw [pow_add]
    exact Nat.mul_le_mul_right _ (hsize ▸ hm)
  · rw [show 52 + b + 1 = 53 + b by omega, pow_add]
    refine Nat.mul_lt_mul_of_pos_right ?_ (Nat.two_pow_pos b)
    rw [hsize] at hm'
    omega

/-- The units of a rank are nearest to it. -/
theorem nearestRank_units (r : Nat) : nearestRank (units r) 1 = r := by
  unfold nearestRank
  dsimp only
  rw [Nat.div_one, Nat.one_mul]
  by_cases hr : r < 2 * binadeSize
  · have hlog : r.log2 - 52 = 0 := by
      by_cases h0 : r = 0
      · rw [h0]
        decide
      · have : r.log2 < 53 := (Nat.log2_lt h0).mpr hr
        omega
    rw [units_of_lt hr, hlog, Nat.zero_mul, Nat.zero_add]
    exact divideToEven_one r
  · obtain ⟨b, m, hr, hm, hm', hunits⟩ := units_of_le (Nat.le_of_not_lt hr)
    have hdivide : divideToEven (m * 2 ^ b) (Nat.pow 2 b) = m := by
      have := divideToEven_mul_right m 1 (Nat.two_pow_pos b)
      rwa [Nat.one_mul, divideToEven_one] at this
    rw [hunits, log2_units hm hm', Nat.add_sub_cancel_left, hdivide, hr]

theorem ofQuotient_mul_right (negative : Bool) (num den : Nat) {k : Nat} (hk : 0 < k) :
    ofQuotient negative (num * k) (den * k) = ofQuotient negative num den := by
  unfold ofQuotient
  dsimp only
  rw [Nat.mul_right_comm, nearestRank_mul_right _ _ hk]

/-- A quotient that is the value of a rank. -/
theorem ofQuotient_of_units {r : Fin magnitudes} {num den : Nat} (hden : 0 < den)
    (hnum : num * unitsOfOne = units r.val * den) : ofQuotient false num den = finite false r := by
  have hrank : nearestRank (num * unitsOfOne) den = r.val := by
    have := nearestRank_mul_right (units r.val) 1 hden
    rw [Nat.one_mul] at this
    rw [hnum, this, nearestRank_units]
  unfold ofQuotient
  dsimp only
  rw [dif_pos (hrank ▸ r.isLt)]
  exact congrArg (finite false) (Fin.ext hrank)

theorem ofQuotient_exact (r : Fin magnitudes) {k : Nat} (hk : unitsOfOne = Nat.pow 2 k) :
    ofQuotient false (units r.val * Nat.pow 5 k) (Nat.pow 10 k) = finite false r := by
  refine ofQuotient_of_units (Nat.pow_pos (by decide)) ?_
  rw [hk, Nat.mul_assoc]
  exact congrArg (units r.val * ·) (Nat.mul_pow 5 2 k).symm

theorem units_pos {r : Nat} (hr : r ≠ 0) : 0 < units r := by
  by_cases hlt : r < 2 * binadeSize
  · rw [units_of_lt hlt]
    omega
  · obtain ⟨b, m, -, hm, -, hunits⟩ := units_of_le (Nat.le_of_not_lt hlt)
    rw [hunits]
    exact Nat.mul_pos (Nat.lt_of_lt_of_le binadeSize_pos hm) (Nat.two_pow_pos b)

theorem units_lt (r : Fin magnitudes) {n : Nat} (hn : 2098 ≤ n) : units r.val < Nat.pow 2 n := by
  by_cases hlt : r.val < 2 * binadeSize
  · rw [units_of_lt hlt]
    exact Nat.lt_of_lt_of_le hlt (Nat.pow_le_pow_right (show 0 < 2 by decide) (show 53 ≤ n by omega))
  · obtain ⟨b, m, hr, hm, hm', hunits⟩ := units_of_le (Nat.le_of_not_lt hlt)
    have hb : b ≤ 2045 := by
      by_contra hb
      have : 2046 * binadeSize ≤ b * binadeSize := Nat.mul_le_mul_right _ (by omega)
      have hlt : r.val < 2047 * binadeSize := r.isLt
      omega
    rw [hunits]
    calc m * 2 ^ b < 2 ^ 53 * 2 ^ b := Nat.mul_lt_mul_of_pos_right hm' (Nat.two_pow_pos b)
      _ = 2 ^ (53 + b) := (pow_add 2 53 b).symm
      _ ≤ 2 ^ n := Nat.pow_le_pow_right (by decide) (by omega)

/-! ## Decimals -/

theorem length_toDigits_le_iff {n k : Nat} (hk : 0 < k) :
    (Nat.toDigits 10 n).length ≤ k ↔ n < Nat.pow 10 k :=
  Nat.length_toDigits_le_iff (by decide) hk

theorem length_toDigits_mul_pow {n : Nat} (hn : n ≠ 0) (k : Nat) :
    (Nat.toDigits 10 (n * 10 ^ k)).length = (Nat.toDigits 10 n).length + k := by
  induction k with
  | zero => simp
  | succ k ih =>
    have hle : 10 ≤ n * 10 ^ (k + 1) := by
      rw [pow_succ, ← Nat.mul_assoc]
      have : 0 < n * 10 ^ k := Nat.mul_pos (Nat.pos_of_ne_zero hn) (Nat.pow_pos (by decide))
      omega
    have hdiv : n * 10 ^ (k + 1) / 10 = n * 10 ^ k := by
      rw [pow_succ, ← Nat.mul_assoc, Nat.mul_div_cancel _ (by decide)]
    rw [Nat.toDigits_of_base_le (by decide) hle, List.length_append, hdiv, ih]
    rfl

theorem ofDecimal_zero (negative : Bool) (exponent : Int) :
    ofDecimal negative 0 exponent = finite negative ⟨0, by decide⟩ := by
  unfold ofDecimal
  dsimp only
  exact if_pos (Or.inl rfl)

/-- Zeros behind the digits count as powers of ten. -/
theorem ofDecimal_mul_pow (negative : Bool) (digits k : Nat) (exponent : Int) :
    ofDecimal negative (digits * 10 ^ k) exponent = ofDecimal negative digits (exponent + k) := by
  have hpow : ∀ n, 0 < (10 : Nat) ^ n := fun n => Nat.pow_pos (by decide)
  by_cases h0 : digits = 0
  · rw [h0, Nat.zero_mul, ofDecimal_zero, ofDecimal_zero]
  have hk : digits * 10 ^ k ≠ 0 := (Nat.mul_pos (Nat.pos_of_ne_zero h0) (hpow k)).ne'
  unfold ofDecimal
  dsimp only
  rw [length_toDigits_mul_pow h0]
  have htop : exponent + ((Nat.toDigits 10 digits).length + k : Nat) =
      exponent + k + ((Nat.toDigits 10 digits).length : Nat) := by
    push_cast
    ring
  rw [htop]
  simp only [h0, hk, false_or]
  split
  · rfl
  split
  · rfl
  by_cases he : 0 ≤ exponent
  · have hsum : (exponent + k).toNat = exponent.toNat + k := by omega
    rw [if_pos he, if_pos (by omega), hsum, Nat.mul_assoc, Nat.add_comm]
    exact congrArg (fun p => ofQuotient negative (digits * p) 1) (pow_add 10 k _).symm
  rw [if_neg he]
  by_cases hek : 0 ≤ exponent + k
  · have hsum : 10 ^ k = 10 ^ (exponent + k).toNat * Nat.pow 10 (-exponent).toNat := by
      refine Eq.trans ?_ (pow_add 10 _ _)
      congr 1
      omega
    have := ofQuotient_mul_right negative (digits * 10 ^ (exponent + k).toNat) 1
      (hpow (-exponent).toNat)
    rw [if_pos hek, hsum, ← Nat.mul_assoc]
    rwa [Nat.one_mul] at this
  · have hsum : Nat.pow 10 (-exponent).toNat = 10 ^ (-(exponent + k)).toNat * 10 ^ k := by
      refine Eq.trans ?_ (pow_add 10 _ _)
      show 10 ^ _ = 10 ^ _
      congr 1
      omega
    rw [if_neg hek, hsum]
    exact ofQuotient_mul_right negative digits _ (hpow k)

end Double

namespace Decimal

open Double

theorem ofDecimal_normalize (negative : Bool) (d : Decimal) :
    ofDecimal negative d.normalize.digits d.normalize.exponent =
      ofDecimal negative d.digits d.exponent := by
  fun_induction normalize d with
  | case1 d h ih =>
    have hdigits : d.digits = d.digits / 10 * 10 ^ 1 := by omega
    rw [ih]
    conv_rhs => rw [hdigits, ofDecimal_mul_pow]
    rfl
  | case2 d h => rfl

/-- Units times a power of five are the digits of a decimal with the same value. -/
theorem ofDecimal_units {r : Fin magnitudes} (hr : r.val ≠ 0) (k low top high : Nat)
    (hk : unitsOfOne = Nat.pow 2 k) (hlow : Nat.pow 10 low ≤ Nat.pow 5 k)
    (hhigh : Nat.pow 2 top * Nat.pow 5 k < Nat.pow 10 high) (hpos : 0 < low)
    (hbounds : low ≤ k ∧ k ≤ low + 400 ∧ 2098 ≤ top ∧ high < k + 400) :
    ofDecimal false (units r.val * Nat.pow 5 k) (-k) = finite false r := by
  obtain ⟨hlow', hk', htop, hhigh'⟩ := hbounds
  have hpow : 0 < Nat.pow 5 k := Nat.pow_pos (by decide)
  have hdigits := Nat.mul_ne_zero (units_pos hr).ne' hpow.ne'
  have hle := Nat.le_trans hlow (Nat.le_mul_of_pos_left (Nat.pow 5 k) (units_pos hr))
  have hlt := Nat.lt_trans (Nat.mul_lt_mul_of_pos_right (units_lt r htop) hpow) hhigh
  generalize hn : units r.val * Nat.pow 5 k = n at *
  have hmin := mt (length_toDigits_le_iff hpos).mp (Nat.not_lt.mpr hle)
  have hmax := (length_toDigits_le_iff (Nat.succ_pos high)).mpr
    (Nat.lt_of_lt_of_le hlt (Nat.pow_le_pow_right (by decide) (Nat.le_succ high)))
  unfold ofDecimal
  dsimp only
  rw [if_neg (not_or.mpr ⟨hdigits, by omega⟩), if_neg (by omega), if_neg (by omega), Int.neg_neg,
    Int.toNat_natCast, ← hn]
  exact ofQuotient_exact r hk

/-- The exact decimal of a rank reads back as it. -/
theorem ofDecimal_exact {r : Fin magnitudes} (hr : r.val ≠ 0) :
    ofDecimal false (exact r.val).digits (exact r.val).exponent = finite false r :=
  ofDecimal_units hr 1074 700 2098 1400 unitsOfOne.eq_1 (by decide +kernel) (by decide +kernel)
    (by decide) (by decide)

theorem sign_of_ofDecimal {negative s : Bool} {digits : Nat} {exponent : Int} {r : Fin magnitudes}
    (h : ofDecimal negative digits exponent = finite s r) : s = negative := by
  have hquotient : ∀ {num den}, ofQuotient negative num den = finite s r → s = negative := by
    intro num den h
    unfold ofQuotient at h
    dsimp only at h
    split at h <;> cases h
    rfl
  unfold ofDecimal at h
  dsimp only at h
  split at h
  · cases h
    rfl
  split at h
  · cases h
  split at h <;> exact hquotient h

theorem eq_of_rank {d : Decimal} {r : Fin magnitudes} (h : d.rank = some r.val) :
    ofDecimal false d.digits d.exponent = finite false r := by
  unfold rank at h
  split at h
  · rename_i s r' heq
    cases Fin.ext (Option.some.inj h)
    rw [heq, sign_of_ofDecimal heq]
  · cases h

/-- The shortest decimal of a rank reads back as it. -/
theorem ofDecimal_shortest (tie : Tie) (r : Fin magnitudes) :
    ofDecimal false (shortest tie r.val).digits (shortest tie r.val).exponent = finite false r := by
  unfold shortest
  split
  · rename_i hr
    exact (ofDecimal_zero false 0).trans (congrArg (finite false) (Fin.ext hr.symm))
  rename_i hr
  split
  · rename_i d hd
    rw [ofDecimal_normalize]
    generalize candidates tie (units r.val) unitsOfOne = ds at hd
    have hrank := List.find?_some hd
    exact eq_of_rank (beq_iff_eq.mp hrank)
  · rw [ofDecimal_normalize, ofDecimal_exact hr]

end Decimal

/-! ## Digits and a point -/

theorem Text.digitValue?_of_isDigit {c : Char} (h : c.isDigit = true) :
    Text.digitValue? c = some (c.toNat - '0'.toNat) ∧ c.toNat - '0'.toNat < 10 := by
  simp only [Char.isDigit, Bool.and_eq_true, decide_eq_true_eq] at h
  have hlow : '0' ≤ c := h.1
  have hhigh : c ≤ '9' := h.2
  refine ⟨if_pos ⟨hlow, hhigh⟩, ?_⟩
  have : c.toNat ≤ '9'.toNat := hhigh
  have h9 : '9'.toNat = 57 := rfl
  have h0 : '0'.toNat = 48 := rfl
  omega

theorem Text.natOfDigits?_of_isDigit {l : List Char} (hne : l ≠ [])
    (h : ∀ c ∈ l, c.isDigit = true) :
    Text.natOfDigits? 10 l = some (Nat.ofDigitChars 10 l 0) := by
  unfold Text.natOfDigits?
  rw [if_neg (by simpa using hne)]
  clear hne
  generalize 0 = n
  induction l generalizing n with
  | nil => rfl
  | cons c l ih =>
    rw [List.forall_mem_cons] at h
    obtain ⟨hvalue, hlt⟩ := Text.digitValue?_of_isDigit h.1
    rw [List.foldlM_cons, hvalue, Nat.ofDigitChars_cons, Nat.mul_comm 10 n, ← ih h.2]
    simp only [Option.bind_eq_bind, Option.bind_some, if_pos hlt]

namespace Double

/-- Digits, and a point with further digits if there are any. -/
def numeral (whole fraction : List Char) : List Char :=
  if fraction = [] then whole else whole ++ '.' :: fraction

variable {whole fraction : List Char}

theorem takeWhile_isDigit_append {cs r : List Char} (h : ∀ c ∈ cs, c.isDigit = true)
    (hrest : ∀ c ∈ r.head?, c.isDigit = false) :
    (cs ++ r).takeWhile Char.isDigit = cs ∧ (cs ++ r).dropWhile Char.isDigit = r := by
  rw [List.takeWhile_append_of_pos h, List.dropWhile_append_of_pos h]
  cases r with
  | nil => simp
  | cons c r =>
    have hc := hrest c rfl
    simp [hc]

theorem readDecimal?_numeral (negative : Bool) (hne : whole ≠ [])
    (hwhole : ∀ c ∈ whole, c.isDigit = true) (hfraction : ∀ c ∈ fraction, c.isDigit = true) :
    readDecimal? negative (numeral whole fraction) = some (ofDecimal negative
      (Nat.ofDigitChars 10 (whole ++ fraction) 0) (-(fraction.length : Nat))) := by
  have hvalue := Text.natOfDigits?_of_isDigit (l := whole ++ fraction) (by simp [hne])
    (fun c hc => (List.mem_append.mp hc).elim (hwhole c) (hfraction c))
  unfold readDecimal? numeral
  split
  · rename_i hnil
    obtain ⟨htake, hdrop⟩ := takeWhile_isDigit_append (r := []) hwhole nofun
    rw [List.append_nil] at htake hdrop
    rw [hnil] at hvalue ⊢
    rw [htake, hdrop]
    simp only [hvalue, readExponent?]
    rfl
  · obtain ⟨htake, hdrop⟩ := takeWhile_isDigit_append (r := '.' :: fraction) hwhole
      (fun c hc => by cases hc; rfl)
    obtain ⟨htake', hdrop'⟩ := takeWhile_isDigit_append (r := []) hfraction nofun
    rw [List.append_nil] at htake' hdrop'
    rw [htake, hdrop]
    simp only [htake', hdrop', hvalue, readExponent?]
    simp

theorem numeral_eq_cons (hne : whole ≠ []) (hwhole : ∀ c ∈ whole, c.isDigit = true) :
    ∃ d ds, numeral whole fraction = d :: ds ∧ d.isDigit = true := by
  cases whole with
  | nil => exact absurd rfl hne
  | cons d ds =>
    unfold numeral
    split
    · exact ⟨d, ds, rfl, hwhole d List.mem_cons_self⟩
    · exact ⟨d, _, rfl, hwhole d List.mem_cons_self⟩

theorem toLower_of_isDigit {c : Char} (h : c.isDigit = true) : c.toLower = c := by
  simp only [Char.isDigit, Bool.and_eq_true, decide_eq_true_eq] at h
  unfold Char.toLower
  have : c.val ≤ 57 := h.2
  rw [dif_neg]
  intro hupper
  have := UInt32.le_trans hupper.1 h.2
  revert this
  decide

theorem ofChars?_numeral (hne : whole ≠ []) (hwhole : ∀ c ∈ whole, c.isDigit = true)
    (hfraction : ∀ c ∈ fraction, c.isDigit = true) :
    ofChars? (numeral whole fraction) = some (ofDecimal false
      (Nat.ofDigitChars 10 (whole ++ fraction) 0) (-(fraction.length : Nat))) := by
  have hread := readDecimal?_numeral false hne hwhole hfraction
  obtain ⟨d, ds, hcs, hd⟩ := @numeral_eq_cons _ fraction hne hwhole
  have hsign : takeSign (d :: ds) = (false, d :: ds) := by
    unfold takeSign
    split
    · rename_i h
      cases h
      cases hd
    · rename_i h
      cases h
      cases hd
    · rfl
  have hword : ∀ {c : Char} {cs : List Char}, c.isDigit = false →
      String.ofList ((d :: ds).map Char.toLower) ≠ String.ofList (c :: cs) := by
    intro c cs hc h
    have hlist := congrArg String.toList h
    rw [String.toList_ofList, String.toList_ofList, List.map_cons, toLower_of_isDigit hd] at hlist
    cases hlist
    rw [hd] at hc
    cases hc
  rw [hcs] at hread ⊢
  unfold ofChars?
  rw [hsign]
  dsimp only
  rw [if_neg (not_or.mpr ⟨hword (c := 'i') rfl, hword (c := 'i') rfl⟩), if_neg (hword (c := 'n') rfl)]
  exact hread

theorem isDigit_of_mem_toString {n : Nat} {c : Char} (h : c ∈ (toString n).toList) :
    c.isDigit = true := by
  rw [Nat.toString_eq_ofList_toDigits, String.toList_ofList] at h
  exact Nat.isDigit_of_mem_toDigits (by decide) (by decide) h

theorem ofDigitChars_toString (n : Nat) : Nat.ofDigitChars 10 (toString n).toList 0 = n := by
  rw [Nat.toString_eq_ofList_toDigits, String.toList_ofList]
  exact Nat.ofDigitChars_ten_toDigits

theorem toList_toString_ne_nil (n : Nat) : (toString n).toList ≠ [] := by
  rw [Nat.toString_eq_ofList_toDigits, String.toList_ofList]
  exact Nat.toDigits_ne_nil

/-- A number that is written with a numeral reads back. -/
def WrittenAs (n : Double) (cs : List Char) : Prop := ∃ whole fraction,
  cs = numeral whole fraction ∧ whole ≠ [] ∧ (∀ c ∈ whole, c.isDigit = true) ∧
    (∀ c ∈ fraction, c.isDigit = true) ∧ ofChars? cs = some n

theorem WrittenAs.of_numeral {n : Double} {cs : List Char} (whole fraction : List Char)
    (hcs : cs = numeral whole fraction) (hne : whole ≠ [])
    (hwhole : ∀ c ∈ whole, c.isDigit = true) (hfraction : ∀ c ∈ fraction, c.isDigit = true)
    (hn : ofDecimal false (Nat.ofDigitChars 10 (whole ++ fraction) 0) (-(fraction.length : Nat)) = n) :
    WrittenAs n cs :=
  ⟨whole, fraction, hcs, hne, hwhole, hfraction, by
    rw [hcs, ofChars?_numeral hne hwhole hfraction, hn]⟩

/-- The digits of a decimal with a point have its value. -/
theorem writtenAs_placePoint (d : Decimal) :
    WrittenAs (ofDecimal false d.digits d.exponent)
      (placePoint (toString d.digits) ((toString d.digits).length + d.exponent)).toList := by
  have hdigit : ∀ c ∈ (toString d.digits).toList, c.isDigit = true :=
    fun c => isDigit_of_mem_toString
  have hzeros : ∀ n, ∀ c ∈ List.replicate n '0', c.isDigit = true := by
    intro n c hc
    rw [List.eq_of_mem_replicate hc]
    rfl
  have hne := toList_toString_ne_nil d.digits
  have hvalue := ofDigitChars_toString d.digits
  rw [← String.length_toList]
  unfold placePoint zeros
  rw [← String.length_toList]
  generalize (toString d.digits) = text at *
  generalize hds : text.toList = ds at *
  have hlen : 0 < ds.length := List.length_pos_iff.mpr hne
  split_ifs with hpoint hwhole
  · -- zeros between the point and the digits
    generalize hz : (-(ds.length + d.exponent)).toNat = z
    refine .of_numeral ['0'] (List.replicate z '0' ++ ds) ?_ (List.cons_ne_nil _ _) (by simp)
      (fun c hc => (List.mem_append.mp hc).elim (hzeros z c) (hdigit c)) ?_
    · unfold numeral
      rw [if_neg (by simp [hne])]
      simp [hds]
    · have hdigits : Nat.ofDigitChars 10 (['0'] ++ (List.replicate z '0' ++ ds)) 0 = d.digits := by
        rw [Nat.ofDigitChars_append, Nat.ofDigitChars_append, Nat.ofDigitChars_replicate_zero]
        exact hvalue
      have hexponent : -((List.replicate z '0' ++ ds).length : Int) = d.exponent := by
        rw [List.length_append, List.length_replicate]
        omega
      rw [hdigits, hexponent]
  · -- zeros behind the digits
    generalize hz : (ds.length + d.exponent).toNat - ds.length = z
    refine .of_numeral (ds ++ List.replicate z '0') [] ?_ (by simp [hne])
      (fun c hc => (List.mem_append.mp hc).elim (hdigit c) (hzeros z c)) nofun ?_
    · simp [numeral, hds]
    · have hdigits : Nat.ofDigitChars 10 (ds ++ List.replicate z '0' ++ []) 0 =
          d.digits * 10 ^ z := by
        rw [List.append_nil, Nat.ofDigitChars_append, hvalue, Nat.ofDigitChars_replicate_zero,
          Nat.mul_comm]
      have hexponent : -(([] : List Char).length : Int) + z = d.exponent := by
        rw [List.length_nil]
        omega
      rw [hdigits, ofDecimal_mul_pow, hexponent]
  · -- digits on both sides of the point
    generalize hn : (ds.length + d.exponent).toNat = n at *
    refine .of_numeral (ds.take n) (ds.drop n) ?_ ?_ (fun c hc => hdigit c (List.mem_of_mem_take hc))
      (fun c hc => hdigit c (List.mem_of_mem_drop hc)) ?_
    · unfold numeral
      rw [if_neg (by rw [List.drop_eq_nil_iff]; omega)]
      simp
    · rw [Ne, List.take_eq_nil_iff]
      rintro (h | h)
      · omega
      · exact hne h
    · have hexponent : -((ds.drop n).length : Int) = d.exponent := by
        rw [List.length_drop]
        omega
      rw [List.take_append_drop, hvalue, hexponent]

theorem writtenAs_toString (n : Nat) : WrittenAs (ofDecimal false n 0) (toString n).toList := by
  refine .of_numeral (toString n).toList [] ?_ (toList_toString_ne_nil n)
    (fun c => isDigit_of_mem_toString) nofun ?_
  · simp [numeral]
  · rw [List.append_nil, ofDigitChars_toString]
    rfl

end Double

namespace Source

open Double

theorem ofDecimal_whole {r : Fin magnitudes} {n : Nat} (hr : units r.val = n * unitsOfOne)
    (hn : n < Nat.pow 10 15) : ofDecimal false n 0 = finite false r := by
  by_cases h0 : n = 0
  · have hzero : r.val = 0 := by
      by_contra hne
      have := units_pos hne
      rw [hr, h0, Nat.zero_mul] at this
      exact Nat.lt_irrefl 0 this
    rw [h0, ofDecimal_zero]
    exact congrArg (finite false) (Fin.ext hzero.symm)
  · have hlength := (length_toDigits_le_iff (by decide)).mpr hn
    unfold ofDecimal
    dsimp only
    rw [if_neg (not_or.mpr ⟨h0, by omega⟩), if_neg (by omega), if_pos (Int.le_refl 0)]
    refine ofQuotient_of_units Nat.one_pos ?_
    rw [hr, Nat.mul_one]
    exact congrArg (· * unitsOfOne) (Nat.mul_one n)

theorem toInt64_of_lt {r : Fin magnitudes} (h : units r.val / unitsOfOne < Nat.pow 10 15) :
    (finite false r).toInt64 = (units r.val / unitsOfOne : Nat) := by
  generalize hn : units r.val / unitsOfOne = n at *
  have h15 : Nat.pow 10 15 = 1000000000000000 := rfl
  unfold toInt64 toIntWithin
  dsimp only
  rw [hn, if_neg Bool.false_ne_true, show Nat.pow 2 63 = 9223372036854775808 from rfl]
  omega

/-- A printed number reads back. -/
theorem writtenAs_printNumber (r : Fin magnitudes) :
    WrittenAs (finite false r) (printNumber (finite false r)).toList := by
  unfold printNumber
  split
  · rename_i hwhole
    simp only [isWholeBelow, Bool.and_eq_true, beq_iff_eq, decide_eq_true_eq] at hwhole
    rw [toInt64_of_lt hwhole.2]
    have hread := ofDecimal_whole (Nat.div_mul_cancel (Nat.dvd_of_mod_eq_zero hwhole.1)).symm hwhole.2
    rw [← hread]
    exact writtenAs_toString _
  · unfold plain
    dsimp only
    split
    · rename_i hr
      have hread : ofDecimal false 0 0 = finite false r :=
        (ofDecimal_zero false 0).trans (congrArg (finite false) (Fin.ext hr.symm))
      rw [← hread]
      exact writtenAs_toString 0
    · have hread := writtenAs_placePoint (Decimal.shortest .up r.val)
      rw [Decimal.ofDecimal_shortest] at hread
      rw [sign, if_neg Bool.false_ne_true, String.empty_append]
      exact hread

end Source

end MarkupTrace
