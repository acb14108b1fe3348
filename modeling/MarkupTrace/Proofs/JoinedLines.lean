import MarkupTrace.Proofs.ShownText
import Mathlib.Data.List.DropRight

/-!
# The rule for the text between tags

Text is shown by a rule about its lines: they are stripped where they meet, those that became empty
are left out, and single spaces join the others. Cooking a text goes by this rule and numbers its
lines to find out where no space belongs. It goes wrong in one case. A text on a single line that
has nothing but spaces and tabs is not stripped, and no line of it counts as filled, so a space is
put behind it.
-/

namespace MarkupTrace

namespace Text

variable {p : Char → Bool} {sep : Char} {cs : List Char}

theorem dropEnd_eq_rdropWhile (p : Char → Bool) (cs : List Char) :
    dropEnd p cs = cs.rdropWhile p := rfl

theorem splitAt_eq_splitOn (sep : Char) (cs : List Char) : splitAt sep cs = cs.splitOn sep := by
  induction cs with
  | nil => rfl
  | cons c cs ih =>
    have hcons : (c :: cs).splitOn sep =
        if (c == sep) = true then [] :: cs.splitOn sep else (cs.splitOn sep).modifyHead (c :: ·) :=
      List.splitOnP_cons_eq_if_modifyHead c cs
    rw [splitAt, ih, hcons]
    by_cases h : c = sep
    · rw [if_pos h, if_pos (beq_iff_eq.mpr h)]
    · rw [if_neg h, if_neg (by simpa using h)]
      cases hcs : cs.splitOn sep with
      | nil => exact absurd (ih.trans hcs) (splitAt_ne_nil sep cs)
      | cons piece pieces => rfl

/-- A separator makes two pieces at least. -/
theorem exists_splitOn_of_mem (h : sep ∈ cs) :
    ∃ piece next pieces, cs.splitOn sep = piece :: next :: pieces := by
  obtain ⟨before, after, rfl⟩ := List.append_of_mem h
  have hboth : (before ++ sep :: after).splitOn sep = before.splitOn sep ++ after.splitOn sep :=
    List.splitOnP_append_cons before after (beq_self_eq_true sep)
  obtain ⟨piece, pieces, hbefore⟩ := List.exists_cons_of_ne_nil (splitAt_ne_nil sep before)
  obtain ⟨next, pieces', hafter⟩ := List.exists_cons_of_ne_nil (splitAt_ne_nil sep after)
  rw [splitAt_eq_splitOn] at hbefore hafter
  rw [hboth, hbefore, hafter]
  cases pieces with
  | nil => exact ⟨piece, next, pieces', rfl⟩
  | cons p pieces => exact ⟨piece, p, _, rfl⟩

end Text

namespace Source.MarkupText

open Text

/-! ## The rule -/

/-- A line without the carriage returns at its end, and with spaces for tabs. -/
def plainLine (line : List Char) : List Char :=
  (line.rdropWhile (· == '\r')).map fun c => if c = '\t' then ' ' else c

/-- Lines behind another one lose the spaces that they begin with, and all but the last one those
that they end with. -/
def strippedBehind : List (List Char) → List (List Char)
  | [] => []
  | [last] => [last.dropWhile (· == ' ')]
  | line :: rest => (line.dropWhile (· == ' ')).rdropWhile (· == ' ') :: strippedBehind rest

/-- The first line loses the spaces that it ends with, unless it is the only one. -/
def stripped : List (List Char) → List (List Char)
  | [] => []
  | [only] => [only]
  | first :: rest => first.rdropWhile (· == ' ') :: strippedBehind rest

/-- The lines that are not empty, joined by single spaces. -/
def joined (lines : List (List Char)) : List Char :=
  [' '].intercalate (lines.filter fun line => !line.isEmpty)

/-- What the rule makes of a text. -/
def shownChars (raw : List Char) : List Char :=
  joined (stripped ((raw.splitOn '\n').map plainLine))

/-- A text on one line, not empty, of nothing but spaces and tabs. -/
def IsLoneBlank (raw : List Char) : Prop :=
  '\n' ∉ raw ∧ plainLine raw ≠ [] ∧ ∀ c ∈ plainLine raw, c = ' '

instance (raw : List Char) : Decidable (IsLoneBlank raw) := inferInstanceAs (Decidable (_ ∧ _ ∧ _))

/-! ## Single lines -/

variable {first last : Bool} {line : List Char}

theorem cookLine_eq (first last : Bool) (line : List Char) : cookLine first last line =
    let start := if first then plainLine line else (plainLine line).dropWhile (· == ' ')
    if last then start else start.rdropWhile (· == ' ') := rfl

/-- A line is filled if it has something besides spaces once tabs are spaces. -/
theorem isFilled_eq_false : isFilled line = false ↔ ∀ c ∈ plainLine line, c = ' ' := by
  have hchar : ∀ c : Char,
      (c != ' ' && c != '\t') = false ↔ (if c = '\t' then ' ' else c) = ' ' := by
    intro c
    by_cases htab : c = '\t'
    · simp [htab]
    · simp [htab]
  unfold isFilled plainLine
  rw [List.any_eq_false, dropEnd_eq_rdropWhile, List.forall_mem_map]
  refine forall₂_congr fun c _ => ?_
  rw [Bool.not_eq_true, hchar]

/-- A line that is stripped at one end at least becomes empty if it is not filled. -/
theorem isEmpty_cookLine (h : (first && last) = false) :
    (cookLine first last line).isEmpty = !isFilled line := by
  rw [Bool.eq_iff_iff, List.isEmpty_iff, Bool.not_eq_true', isFilled_eq_false, cookLine_eq]
  have hspaces : ∀ cs : List Char, (∀ c ∈ cs, (c == ' ') = true) ↔ ∀ c ∈ cs, c = ' ' := by
    simp only [beq_iff_eq, implies_true]
  have hstart : (plainLine line).dropWhile (· == ' ') = [] ↔ ∀ c ∈ plainLine line, c = ' ' := by
    rw [List.dropWhile_eq_nil_iff, hspaces]
  have hend : (plainLine line).rdropWhile (· == ' ') = [] ↔ ∀ c ∈ plainLine line, c = ' ' := by
    rw [List.rdropWhile_eq_nil_iff, hspaces]
  cases first with
  | true =>
    cases last with
    | true => cases h
    | false => exact hend
  | false =>
    cases last with
    | true => exact hstart
    | false =>
      refine Iff.trans ?_ hstart
      -- what is left at the start begins with something else than a space
      show ((plainLine line).dropWhile (· == ' ')).rdropWhile (· == ' ') = [] ↔ _
      rw [List.rdropWhile_eq_nil_iff]
      constructor
      · intro hall
        have hhead := List.head?_dropWhile_not (· == ' ') (plainLine line)
        cases hdrop : (plainLine line).dropWhile (· == ' ') with
        | nil => rfl
        | cons c cs =>
          rw [hdrop] at hall hhead
          exact absurd (hall c List.mem_cons_self) (Bool.eq_false_iff.mp hhead)
      · intro hnil c hc
        rw [hnil] at hc
        cases hc

/-! ## Lines by number -/

/-- From the second line on, stripping goes by whether a line is the last one. -/
theorem map_cookLine_behind (lines : List (List Char)) (k n : Nat) (hk : 0 < k)
    (hn : n + 1 = k + lines.length) :
    (lines.zipIdx k).map (fun z => cookLine (z.2 == 0) (z.2 == n) z.1) =
      strippedBehind (lines.map plainLine) := by
  induction lines generalizing k with
  | nil => rfl
  | cons line lines ih =>
    have hfirst : (k == 0) = false := by simpa using hk.ne'
    rw [List.length_cons] at hn
    rw [List.zipIdx_cons, List.map_cons, ih (k + 1) (Nat.succ_pos k) (by omega), List.map_cons,
      hfirst, cookLine_eq]
    cases lines with
    | nil =>
      have hlast : (k == n) = true := by simpa using (Nat.succ.inj hn).symm
      rw [hlast]
      rfl
    | cons next lines =>
      have hlast : (k == n) = false := by
        rw [List.length_cons] at hn
        simp only [beq_eq_false_iff_ne]
        omega
      rw [hlast]
      rfl

theorem map_cookLine (lines : List (List Char)) :
    (lines.zipIdx.map fun z => cookLine (z.2 == 0) (z.2 == lines.length - 1) z.1) =
      stripped (lines.map plainLine) := by
  match lines with
  | [] => rfl
  | [only] => rfl
  | first :: next :: lines =>
    have hbehind := map_cookLine_behind (next :: lines) 1 (first :: next :: lines).length.pred
      Nat.one_pos (by simp; omega)
    rw [List.zipIdx_cons, List.map_cons]
    exact congrArg _ hbehind

/-! ## Joining -/

/-- The number of the last line that is not empty. -/
def lastShown (k : Nat) (lines : List (List Char)) : Option Nat :=
  ((lines.zipIdx k).filter fun z => !z.1.isEmpty).getLast?.map (·.2)

/-- Lines with a space behind each that is not empty, one number excepted. -/
def spacedBut (but : Option Nat) (k : Nat) (lines : List (List Char)) : List Char :=
  (lines.zipIdx k).flatMap fun z =>
    if z.1.isEmpty then [] else if but = some z.2 then z.1 else z.1 ++ [' ']

section

variable {k i : Nat} {line : List Char} {lines : List (List Char)}

theorem lastShown_cons_empty (h : line.isEmpty = true) :
    lastShown k (line :: lines) = lastShown (k + 1) lines := by
  rw [lastShown, List.zipIdx_cons, List.filter_cons_of_neg (by simp [h]), lastShown]

theorem lastShown_cons_shown (h : line.isEmpty = false) :
    lastShown k (line :: lines) = some ((lastShown (k + 1) lines).getD k) := by
  rw [lastShown, List.zipIdx_cons, List.filter_cons_of_pos (by simp [h]), List.getLast?_cons,
    lastShown]
  cases ((lines.zipIdx (k + 1)).filter fun z => !z.1.isEmpty).getLast? <;> rfl

theorem lt_of_lastShown (h : lastShown (k + 1) lines = some i) : k < i := by
  obtain ⟨z, hz, rfl⟩ := Option.map_eq_some_iff.mp h
  exact List.le_snd_of_mem_zipIdx (List.mem_of_mem_filter (List.mem_of_getLast? hz))

/-- There is no last line to show if all are empty. -/
theorem lastShown_eq_none :
    lastShown k lines = none ↔ lines.filter (fun line => !line.isEmpty) = [] := by
  induction lines generalizing k with
  | nil => exact iff_of_true rfl rfl
  | cons line lines ih =>
    cases hempty : line.isEmpty with
    | true => rw [lastShown_cons_empty hempty, List.filter_cons_of_neg (by simp [hempty]), ih]
    | false =>
      rw [lastShown_cons_shown hempty, List.filter_cons_of_pos (by simp [hempty])]
      exact iff_of_false (Option.some_ne_none _) (List.cons_ne_nil _ _)

theorem spacedBut_cons (but : Option Nat) : spacedBut but k (line :: lines) =
    (if line.isEmpty then [] else if but = some k then line else line ++ [' ']) ++
      spacedBut but (k + 1) lines := by
  rw [spacedBut, List.zipIdx_cons, List.flatMap_cons, spacedBut]

theorem spacedBut_eq_nil (but : Option Nat)
    (h : lines.filter (fun line => !line.isEmpty) = []) : spacedBut but k lines = [] := by
  refine List.flatMap_eq_nil_iff.mpr fun z hz => if_pos ?_
  have hempty := List.filter_eq_nil_iff.mp h z.1 (List.fst_mem_of_mem_zipIdx hz)
  simpa using hempty

/-- With no space behind the last line that is not empty, single spaces join the lines. -/
theorem spacedBut_lastShown (k : Nat) (lines : List (List Char)) :
    spacedBut (lastShown k lines) k lines = joined lines := by
  induction lines generalizing k with
  | nil => rfl
  | cons line lines ih =>
    rw [spacedBut_cons, joined]
    cases hempty : line.isEmpty with
    | true =>
      rw [if_pos rfl, List.nil_append, lastShown_cons_empty hempty, ih, joined,
        List.filter_cons_of_neg (by simp [hempty])]
    | false =>
      rw [if_neg Bool.false_ne_true, lastShown_cons_shown hempty,
        List.filter_cons_of_pos (by simp [hempty])]
      cases hlast : lastShown (k + 1) lines with
      | none =>
        have hnil := lastShown_eq_none.mp hlast
        rw [Option.getD_none, if_pos rfl, spacedBut_eq_nil _ hnil, hnil, List.append_nil,
          List.intercalate_singleton]
      | some i =>
        have hne : some i ≠ some k := by simpa using (lt_of_lastShown hlast).ne'
        have hrest : lines.filter (fun line => !line.isEmpty) ≠ [] := by
          intro hnil
          rw [lastShown_eq_none.mpr hnil] at hlast
          cases hlast
        rw [Option.getD_some, if_neg hne, ← hlast, ih, joined,
          List.intercalate_cons_of_ne_nil hrest]

end

/-! ## Texts -/

theorem zipIdx_map_zipIdx {α β : Type} (f : α × Nat → β) (as : List α) (k : Nat) :
    ((as.zipIdx k).map f).zipIdx k = (as.zipIdx k).map fun z => (f z, z.2) := by
  induction as generalizing k with
  | nil => rfl
  | cons a as ih => rw [List.zipIdx_cons, List.map_cons, List.zipIdx_cons, ih, List.map_cons]

/-- Cooked lines get a space behind each but the last filled one. -/
theorem cookLines_eq_spacedBut (lines : List (List Char)) : cookLines lines =
    spacedBut (lastFilled lines) 0 (stripped (lines.map plainLine)) := by
  rw [← map_cookLine, spacedBut, zipIdx_map_zipIdx, List.flatMap_map, cookLines]

/-- Among several lines the filled ones are those that are shown. -/
theorem lastFilled_eq_lastShown {lines : List (List Char)} (h : 1 < lines.length) :
    lastFilled lines = lastShown 0 (stripped (lines.map plainLine)) := by
  have hfilled : ∀ z ∈ lines.zipIdx,
      isFilled z.1 = !(cookLine (z.2 == 0) (z.2 == lines.length - 1) z.1).isEmpty := by
    intro z _
    have hends : (z.2 == 0 && z.2 == lines.length - 1) = false := by
      rw [Bool.and_eq_false_iff, beq_eq_false_iff_ne, beq_eq_false_iff_ne]
      omega
    rw [isEmpty_cookLine hends, Bool.not_not]
  rw [← map_cookLine, lastShown, zipIdx_map_zipIdx, List.filter_map, List.getLast?_map,
    Option.map_map, lastFilled, List.filter_congr hfilled]
  rfl

/-- Several lines are shown by the rule. -/
theorem cookLines_of_several {lines : List (List Char)} (h : 1 < lines.length) :
    cookLines lines = joined (stripped (lines.map plainLine)) := by
  rw [cookLines_eq_spacedBut, lastFilled_eq_lastShown h, spacedBut_lastShown]

/-- A single line is shown as it is, with a space behind it if nothing else is in it. -/
theorem cookLines_of_single (line : List Char) : cookLines [line] =
    plainLine line ++ if plainLine line ≠ [] ∧ isFilled line = false then [' '] else [] := by
  have hlast : lastFilled [line] = if isFilled line then some 0 else none := by
    cases h : isFilled line <;> simp [lastFilled, h]
  have hnil : ∀ but, spacedBut but 1 [] = [] := fun _ => rfl
  rw [cookLines_eq_spacedBut, hlast, List.map_singleton, stripped, spacedBut_cons, hnil,
    List.append_nil]
  by_cases hplain : plainLine line = []
  · rw [hplain]
    rfl
  · rw [if_neg (by simpa using hplain)]
    cases isFilled line with
    | true => rw [if_pos rfl, if_pos rfl, if_neg fun h => Bool.noConfusion h.2, List.append_nil]
    | false => rw [if_neg Bool.false_ne_true, if_neg nofun, if_pos ⟨hplain, rfl⟩]

/-- A text is shown by the rule, but for a space that is put behind a text on one line, not empty,
of nothing but spaces and tabs. -/
theorem cooked_eq_shownChars (t : MarkupText) : t.cooked = String.ofList
    (shownChars t.raw.toList ++ if IsLoneBlank t.raw.toList then [' '] else []) := by
  rw [cooked, splitAt_eq_splitOn, shownChars]
  by_cases hfeed : '\n' ∈ t.raw.toList
  · obtain ⟨line, next, lines, hlines⟩ := exists_splitOn_of_mem hfeed
    have hseveral : 1 < (t.raw.toList.splitOn '\n').length := by
      rw [hlines]
      simp
    rw [if_neg fun h => h.1 hfeed, List.append_nil, cookLines_of_several hseveral]
  · have hjoined : joined [plainLine t.raw.toList] = plainLine t.raw.toList := by
      cases hplain : plainLine t.raw.toList <;> simp [joined]
    rw [List.splitOn_eq_singleton hfeed, cookLines_of_single, List.map_singleton, stripped, hjoined]
    simp only [IsLoneBlank, hfeed, not_false_eq_true, true_and, isFilled_eq_false]

/-- The space that stands between two values is shown twice. -/
example : cooked ⟨" ", ⟨0, 1⟩⟩ = "  " := by decide

end Source.MarkupText

end MarkupTrace
