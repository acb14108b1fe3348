import MarkupTrace.Proofs.JoinedLines
import MarkupTrace.Proofs.LineEndings

/-!
# Lines of texts

A line ends at a line feed, and a carriage return right before it belongs to the break. What stands
behind the last line feed is a line too unless it is empty, so a text has as many lines as line feeds
and perhaps one more.

The line of an offset is the one with the last start that is not past it, and the column is what lies
between the two. As the first line starts at zero there always is such a line, so nothing is lost when
one is subtracted from the other. Behind some characters the number of the line is the number of line
feeds among them.
-/

namespace MarkupTrace.Text

/-! ## Splitting at line feeds -/

section

variable {line rest : List Char}

theorem splitOn_of_not_mem (h : '\n' ∉ line) : line.splitOn '\n' = [line] := by
  apply List.splitOnP_eq_singleton
  intro c hc
  rw [beq_eq_false_iff_ne]
  rintro rfl
  exact h hc

theorem splitOn_append_feed (h : '\n' ∉ line) :
    (line ++ '\n' :: rest).splitOn '\n' = line :: rest.splitOn '\n' := by
  have hboth : (line ++ '\n' :: rest).splitOn '\n' = line.splitOn '\n' ++ rest.splitOn '\n' :=
    List.splitOnP_append_cons line rest (beq_self_eq_true '\n')
  rw [hboth, splitOn_of_not_mem h, List.singleton_append]

/-- Lines that are all closed can be told from their text. -/
theorem splitOn_closed {lines : List (List Char)} (h : ∀ line ∈ lines, '\n' ∉ line) :
    (lines.flatMap (· ++ ['\n'])).splitOn '\n' = lines ++ [[]] := by
  induction lines with
  | nil => rfl
  | cons line lines ih =>
    rw [List.forall_mem_cons] at h
    rw [List.flatMap_cons, List.append_assoc, List.singleton_append, splitOn_append_feed h.1, ih h.2,
      List.cons_append]

/-- A text without a line feed, or one with the first of them shown. -/
theorem exists_first_feed (cs : List Char) :
    '\n' ∉ cs ∨ ∃ line rest, cs = line ++ '\n' :: rest ∧ '\n' ∉ line := by
  by_cases h : '\n' ∈ cs
  · obtain ⟨line, rest, rfl, hline⟩ := List.eq_append_cons_of_mem h
    exact .inr ⟨line, rest, rfl, hline⟩
  · exact .inl h

end

/-- Digits are no line feeds. -/
theorem feed_not_mem_toDigits {base : Nat} (hbase : 1 < base) (n : Nat) :
    '\n' ∉ Nat.toDigits base n := by
  have hdigit (d : Nat) : '\n' ≠ Nat.digitChar d := (Nat.digitChar_ne '\n' rfl).symm
  induction n using Nat.strongRecOn with
  | ind n ih =>
    rcases Nat.lt_or_ge n base with h | h
    · simp [Nat.toDigits_of_lt_base h, hdigit]
    · have hless : n / base < n := Nat.div_lt_self (by omega) hbase
      simpa [Nat.toDigits_of_base_le hbase h, hdigit] using ih _ hless

/-! ## Lines -/

/-- The lines of a text, each without the break behind it. -/
inductive HasLines : List Char → List (List Char) → Prop
  | none : HasLines [] []
  | last {line : List Char} (filled : line ≠ []) (unbroken : '\n' ∉ line) : HasLines line [line]
  | feed {line rest : List Char} {lines : List (List Char)} (unbroken : '\n' ∉ line)
      (alone : line.getLast? ≠ some '\r') (behind : HasLines rest lines) :
      HasLines (line ++ '\n' :: rest) (line :: lines)
  | pair {line rest : List Char} {lines : List (List Char)} (unbroken : '\n' ∉ line)
      (behind : HasLines rest lines) : HasLines (line ++ '\r' :: '\n' :: rest) (line :: lines)

/-- The text ends where a further line could start. -/
def EndsClosed (cs : List Char) : Prop := ∀ c ∈ cs.getLast?, c = '\n'

instance (cs : List Char) : Decidable (EndsClosed cs) := Option.decidableForallMem cs.getLast?

theorem endsClosed_append_feed {line rest : List Char} :
    EndsClosed (line ++ '\n' :: rest) ↔ EndsClosed rest := by
  unfold EndsClosed
  rw [List.getLast?_append, List.getLast?_cons]
  cases rest.getLast? <;> simp

theorem count_append_feed {line rest : List Char} (h : '\n' ∉ line) :
    (line ++ '\n' :: rest).count '\n' = rest.count '\n' + 1 := by
  rw [List.count_append, List.count_eq_zero.mpr h, List.count_cons_self, Nat.zero_add]

theorem not_endsClosed_of_not_mem {line : List Char} (filled : line ≠ []) (h : '\n' ∉ line) :
    ¬ EndsClosed line := by
  intro hclosed
  have hlast := hclosed _ (List.getLast?_eq_some_getLast filled)
  exact h (hlast ▸ List.getLast_mem filled)

theorem dropReturn_cases (line : List Char) :
    line = dropReturn line ++ ['\r'] ∨ dropReturn line = line ∧ line.getLast? ≠ some '\r' := by
  rw [List.getLast?_eq_head?_reverse]
  unfold dropReturn
  split
  · rename_i rest h
    exact .inl (by rw [← List.reverse_reverse line, h, List.reverse_cons])
  · rename_i h
    refine .inr ⟨rfl, fun hhead => ?_⟩
    obtain ⟨rest, hrest⟩ := List.head?_eq_some_iff.mp hhead
    exact h rest hrest

theorem lines_of_not_mem {cs : List Char} (h : '\n' ∉ cs) : lines cs = if cs = [] then [] else [cs] := by
  unfold lines
  rw [splitAt_eq_splitOn, splitOn_of_not_mem h]
  cases cs <;> rfl

theorem lines_append_feed {line rest : List Char} (h : '\n' ∉ line) :
    lines (line ++ '\n' :: rest) = dropReturn line :: lines rest := by
  unfold lines
  dsimp only
  rw [splitAt_eq_splitOn, splitAt_eq_splitOn, splitOn_append_feed h]
  obtain ⟨piece, pieces, hrest⟩ := List.exists_cons_of_ne_nil (splitAt_ne_nil '\n' rest)
  rw [splitAt_eq_splitOn] at hrest
  rw [hrest, List.dropLast_cons_of_ne_nil (List.cons_ne_nil _ _), List.getLast?_cons_cons]
  cases hlast : (piece :: pieces).getLast? with
  | none => rfl
  | some last => cases last <;> rfl

theorem hasLines_lines (cs : List Char) : HasLines cs (lines cs) := by
  induction hn : cs.length using Nat.strongRecOn generalizing cs with
  | ind n ih =>
    rcases exists_first_feed cs with h | ⟨line, rest, rfl, h⟩
    · rw [lines_of_not_mem h]
      split
      · rename_i hnil
        rw [hnil]
        exact .none
      · exact .last ‹_› h
    · have hlt : rest.length < n := by
        rw [← hn, List.length_append, List.length_cons]
        omega
      have hrest := ih _ hlt rest rfl
      rw [lines_append_feed h]
      rcases dropReturn_cases line with hline | ⟨hline, halone⟩
      · have hunbroken : '\n' ∉ dropReturn line := fun hmem =>
          h (hline ▸ List.mem_append_left _ hmem)
        have hbroken : line ++ '\n' :: rest = dropReturn line ++ '\r' :: '\n' :: rest := by
          conv_lhs => rw [hline, List.append_assoc]
          rfl
        rw [hbroken]
        exact .pair hunbroken hrest
      · rw [hline]
        exact .feed h halone hrest

namespace HasLines

variable {cs : List Char} {ls : List (List Char)}

theorem not_mem (h : HasLines cs ls) : ∀ line ∈ ls, '\n' ∉ line := by
  induction h with
  | none => exact nofun
  | last _ unbroken => exact List.forall_mem_singleton.mpr unbroken
  | feed unbroken _ _ ih => exact List.forall_mem_cons.mpr ⟨unbroken, ih⟩
  | pair unbroken _ ih => exact List.forall_mem_cons.mpr ⟨unbroken, ih⟩

/-- A line for each line feed, and one more unless the text ends with one. -/
theorem length_eq (h : HasLines cs ls) :
    ls.length = cs.count '\n' + if EndsClosed cs then 0 else 1 := by
  induction h with
  | none => rfl
  | last filled unbroken =>
    rw [List.count_eq_zero.mpr unbroken, if_neg (not_endsClosed_of_not_mem filled unbroken)]
    rfl
  | feed unbroken _ _ ih =>
    rw [List.length_cons, ih, count_append_feed unbroken]
    simp only [endsClosed_append_feed]
    omega
  | @pair line rest lines unbroken _ ih =>
    have hbroken : line ++ '\r' :: '\n' :: rest = (line ++ ['\r']) ++ '\n' :: rest := by simp
    rw [List.length_cons, ih, hbroken, count_append_feed (by simpa using unbroken)]
    simp only [endsClosed_append_feed]
    omega

end HasLines

/-! ## Positions -/

namespace LineIndex

/-- The search ends at the last of the starts that are not past the offset before a later one is. -/
theorem lastStart_spec {offset : Nat} (starts : List Nat) (found : Nat × Nat) (h : found.2 ≤ offset) :
    ∃ k, (lastStart offset starts found).1 = found.1 + k ∧
      (found.2 :: starts)[k]? = some (lastStart offset starts found).2 ∧
      (lastStart offset starts found).2 ≤ offset ∧ ∀ next ∈ starts[k]?, offset < next := by
  induction starts generalizing found with
  | nil => exact ⟨0, rfl, rfl, h, nofun⟩
  | cons s starts ih =>
    rw [lastStart]
    split
    · rename_i hs
      obtain ⟨k, hline, hstart, hle, hnext⟩ := ih (found.1 + 1, s) hs
      refine ⟨k + 1, ?_, hstart, hle, hnext⟩
      rw [hline]
      omega
    · rename_i hs
      refine ⟨0, rfl, rfl, h, ?_⟩
      rintro next ⟨⟩
      omega

/-- The line of a position starts at or before the offset and the next one behind it. The column is the
whole distance from the start, for any offset there is. -/
theorem position_spec (cs : List Char) (offset : Nat) :
    ∃ start, (ofChars cs).lineStarts[((ofChars cs).position offset).line]? = some start ∧
      start + ((ofChars cs).position offset).column = offset ∧
      ∀ next ∈ (ofChars cs).lineStarts[((ofChars cs).position offset).line + 1]?, offset < next := by
  obtain ⟨k, hline, hstart, hle, hnext⟩ :=
    lastStart_spec (startsFrom 0 cs) (0, 0) (Nat.zero_le offset)
  rw [Nat.zero_add] at hline
  have hposition : (ofChars cs).position offset =
      ⟨k, offset - (lastStart offset (startsFrom 0 cs) (0, 0)).2⟩ := by
    rw [← hline]
    rfl
  rw [hposition]
  exact ⟨_, hstart, Nat.add_sub_of_le hle, hnext⟩

theorem line_cut (a b : List Char) :
    ((ofChars (a ++ b)).position (byteLength a)).line = a.count '\n' :=
  Nat.succ.inj (lineNumber_cut a b)

end LineIndex

end MarkupTrace.Text
