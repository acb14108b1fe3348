import MarkupTrace.Proofs.AcceptedPrefixes

/-!
# Excerpts around errors

The excerpt of an error shows the line that the error is on, marked and with its number, between up to
two lines before it and up to two behind it. The number of the line counts line feeds, and the lines
are those of the text, so behind a line feed at the very end there is no line to show: an error that
points there has an excerpt with the last two lines and no mark. This is the only exception.
-/

namespace MarkupTrace

namespace Text

/-! ## Lines of an excerpt -/

/-- The line with that number, as an excerpt shows it. -/
def excerptLine (marked : Bool) (i : Nat) (line : List Char) : List Char :=
  ((if marked then ">>" else "  ") ++ " " ++ threeColumns (i + 1) ++ " | ").toList ++ line

/-- Lines without a mark, numbered from `i` on. -/
def unmarkedFrom (i : Nat) (ls : List (List Char)) : List (List Char) :=
  (ls.zipIdx i).map fun (line, i) => excerptLine false i line

/-- A line with a mark in front. -/
def isMarked (line : List Char) : Bool := ['>', '>'].isPrefixOf line

/-- Of all these lines the excerpt shows the one with number `n`, marked, and around it the two lines
before and the two behind, or as many as there are, without a mark. -/
def Frames (ls : List (List Char)) (n : Nat) (excerpt : String) : Prop :=
  ∃ above before line after below, ls = above ++ before ++ line :: (after ++ below) ∧
    (above ++ before).length = n ∧ before.length = min 2 n ∧
    after.length = min 2 (after ++ below).length ∧
    excerpt.toList.splitOn '\n' = unmarkedFrom (n - before.length) before ++
      excerptLine true n line :: unmarkedFrom (n + 1) after ++ [[]]

variable {ls above before rest : List (List Char)} {n : Nat}

theorem feed_not_mem_excerptLine {marked : Bool} {i : Nat} {line : List Char} (h : '\n' ∉ line) :
    '\n' ∉ excerptLine marked i line := by
  have hnumber := feed_not_mem_toDigits (by decide : 1 < 10) (i + 1)
  cases marked <;> simp [excerptLine, threeColumns, h, hnumber]

theorem isMarked_excerptLine (marked : Bool) (i : Nat) (line : List Char) :
    isMarked (excerptLine marked i line) = marked := by
  cases marked <;> simp [isMarked, excerptLine, List.isPrefixOf]

theorem countP_isMarked_unmarkedFrom (i : Nat) (ls : List (List Char)) :
    (unmarkedFrom i ls).countP isMarked = 0 := by
  simp [unmarkedFrom, List.countP_eq_zero, isMarked_excerptLine]

theorem Frames.countP_isMarked {excerpt : String} (h : Frames ls n excerpt) :
    (excerpt.toList.splitOn '\n').countP isMarked = 1 := by
  obtain ⟨above, before, line, after, below, -, -, -, -, hlines⟩ := h
  rw [hlines]
  simp [List.countP_append, List.countP_cons, countP_isMarked_unmarkedFrom, isMarked_excerptLine]
  decide

theorem take_zipIdx (k n : Nat) (ls : List (List Char)) :
    (ls.zipIdx n).take k = (ls.take k).zipIdx n := by
  induction ls generalizing k n with
  | nil => simp
  | cons line ls ih => cases k <;> simp [ih]

/-- What is shown of lines that are divided in front of the one in question. -/
theorem shown_eq (hls : ls = above ++ before ++ rest) (hn : (above ++ before).length = n)
    (hbefore : before.length = min 2 n) :
    (ls.zipIdx.take (min (n + 3) ls.length)).drop (n - 2) =
      before.zipIdx (n - before.length) ++ (rest.take 3).zipIdx n := by
  have habove : above.length = n - before.length := by
    rw [List.length_append] at hn
    omega
  have hlength : ls.length = ls.zipIdx.length := by rw [List.length_zipIdx]
  have hzip : ls.zipIdx = (above ++ before).zipIdx ++ rest.zipIdx n := by
    rw [hls, List.zipIdx_append, Nat.zero_add, hn]
  have hsize : (above ++ before).zipIdx.length = n := by rw [List.length_zipIdx, hn]
  -- nothing is cut off in front of the line, and behind it all but two lines are
  have htake : ls.zipIdx.take (min (n + 3) ls.length) =
      (above ++ before).zipIdx ++ (rest.take 3).zipIdx n := by
    rw [hlength, ← List.take_eq_take_min, hzip]
    nth_rewrite 1 [← hsize]
    rw [List.take_length_add_append, take_zipIdx]
  have hdrop : above.zipIdx.length = n - 2 := by
    rw [List.length_zipIdx]
    omega
  rw [htake, List.zipIdx_append, Nat.zero_add, List.append_assoc, List.drop_left' hdrop, habove]

/-- Lines whose numbers are all others than `n`. -/
theorem map_zipIdx_of_ne {k : Nat} (h : ∀ i, k ≤ i → i < k + ls.length → i ≠ n) :
    ((ls.zipIdx k).map fun (line, i) => excerptLine (i = n) i line) = unmarkedFrom k ls := by
  apply List.map_congr_left
  rintro ⟨line, i⟩ hmem
  have hi := List.mem_zipIdx hmem
  have hne := h i hi.1 hi.2.1
  simp [hne]

/-- An excerpt shows the lines of a text around the number, whether or not there is a line with it. -/
theorem splitOn_excerpt {source : String} (hls : lines source.toList = above ++ before ++ rest)
    (hn : (above ++ before).length = n) (hbefore : before.length = min 2 n) :
    (excerpt source n).toList.splitOn '\n' = unmarkedFrom (n - before.length) before ++
      ((rest.take 3).zipIdx n).map (fun (line, i) => excerptLine (i = n) i line) ++ [[]] := by
  have hexcerpt : (excerpt source n).toList = (((before.zipIdx (n - before.length) ++
      (rest.take 3).zipIdx n).map fun (line, i) => excerptLine (i = n) i line).flatMap
        (· ++ ['\n'])) := by
    rw [← shown_eq hls hn hbefore]
    unfold excerpt
    rw [String.toList_join, List.flatMap_map, List.flatMap_map]
    apply List.flatMap_congr
    rintro ⟨line, i⟩ -
    simp [excerptLine]
  have hunbroken := (hasLines_lines source.toList).not_mem
  rw [hls] at hunbroken
  have hclosed : ∀ shown ∈ (before.zipIdx (n - before.length) ++ (rest.take 3).zipIdx n).map
      fun (line, i) => excerptLine (i = n) i line, '\n' ∉ shown := by
    intro shown hshown
    obtain ⟨⟨line, i⟩, hmem, rfl⟩ := List.mem_map.mp hshown
    refine feed_not_mem_excerptLine (hunbroken line ?_)
    rcases List.mem_append.mp hmem with hmem | hmem
    · exact List.mem_append_left _ (List.mem_append_right _ (List.fst_mem_of_mem_zipIdx hmem))
    · exact List.mem_append_right _ (List.mem_of_mem_take (List.fst_mem_of_mem_zipIdx hmem))
  rw [hexcerpt, splitOn_closed hclosed, List.map_append, map_zipIdx_of_ne]
  intro i _ hi
  omega

theorem exists_division (hn : n ≤ ls.length) : ∃ above before, ls = above ++ before ++ ls.drop n ∧
    (above ++ before).length = n ∧ before.length = min 2 n := by
  refine ⟨(ls.take n).take (n - 2), (ls.take n).drop (n - 2), ?_, ?_, ?_⟩
  · rw [List.take_append_drop, List.take_append_drop]
  · rw [List.take_append_drop, List.length_take]
    omega
  · rw [List.length_drop, List.length_take]
    omega

/-- The excerpt around a line that exists. -/
theorem frames_excerpt {source : String} (h : n < (lines source.toList).length) :
    Frames (lines source.toList) n (excerpt source n) := by
  obtain ⟨above, before, hls, hn, hbefore⟩ := exists_division (Nat.le_of_lt h)
  have hshown := splitOn_excerpt hls hn hbefore
  rw [List.drop_eq_getElem_cons h] at hls hshown
  refine ⟨above, before, (lines source.toList)[n], ((lines source.toList).drop (n + 1)).take 2,
    ((lines source.toList).drop (n + 1)).drop 2, ?_, hn, hbefore, ?_, ?_⟩
  · rw [List.take_append_drop]
    exact hls
  · rw [List.take_append_drop, List.length_take]
  · rw [hshown, List.take_succ_cons, List.zipIdx_cons, List.map_cons, map_zipIdx_of_ne]
    · simp
    · intro i hi _
      omega

/-- The excerpt around the number behind the last line. -/
theorem splitOn_excerpt_length (source : String) :
    (excerpt source (lines source.toList).length).toList.splitOn '\n' =
      unmarkedFrom ((lines source.toList).length - 2)
        ((lines source.toList).drop ((lines source.toList).length - 2)) ++ [[]] := by
  obtain ⟨above, before, hls, hn, hbefore⟩ := exists_division (Nat.le_refl (lines source.toList).length)
  rw [splitOn_excerpt hls hn hbefore]
  rw [List.drop_length, List.append_nil] at hls
  have habove : above.length = (lines source.toList).length - 2 := by
    rw [List.length_append] at hn
    omega
  have hdrop : (lines source.toList).drop ((lines source.toList).length - 2) = before := by
    rw [← habove]
    conv_lhs => rw [hls]
    exact List.drop_left
  have hstart : (lines source.toList).length - before.length = (lines source.toList).length - 2 := by
    omega
  rw [hdrop, hstart, List.drop_length]
  simp

end Text

namespace Source

open Text Grammar

namespace ParseError

/-- The error points behind a line feed at the very end, or into an empty text. -/
def Lineless (source : String) (e : ParseError) : Prop :=
  e.span = endOf source ∧ EndsClosed source.toList

/-- What the excerpt of an error shows. The number of the line counts the line feeds before the error. Of
the lines of the text the one with this number is framed and has the only mark, unless the error points
behind a line feed at the very end, where no line is left to mark. -/
structure ShowsLine (source : String) (ls : List (List Char)) (e : ParseError) : Prop where
  counted : ∃ a b, source.toList = a ++ b ∧ e.span.start = byteLength a ∧
    e.position.line = a.count '\n'
  framed : ¬ e.Lineless source → Frames ls e.position.line e.excerpt ∧
    (e.excerpt.toList.splitOn '\n').countP isMarked = 1
  lineless : e.Lineless source → e.position.line = ls.length ∧
    e.excerpt.toList.splitOn '\n' = unmarkedFrom (ls.length - 2) (ls.drop (ls.length - 2)) ++ [[]] ∧
    (e.excerpt.toList.splitOn '\n').countP isMarked = 0

variable {source : String} {b : Blame}

/-- The text is cut where an error starts, and only at the end of the text nothing stands behind. -/
theorem exists_cut_of_placed (h : b.Placed (tokenize source)) : ∃ before behind,
    source.toList = before ++ behind ∧ (ofBlame source b).span.start = byteLength before ∧
      (behind = [] → (ofBlame source b).span = endOf source) := by
  rcases range_of_placed h with ⟨t, us, hus, -, hspan⟩ | hspan
  · have ht : t ∈ tokenize source := hus.subset List.mem_cons_self
    have hstart : (ofBlame source b).span.start = offset source (t :: us) := by
      rw [hspan, span_eq_offsets hus]
    obtain ⟨ts, hts⟩ := hus
    refine ⟨textOf ts, textOf (t :: us), ?_, ?_, ?_⟩
    · rw [← textOf_tokenize, ← hts, textOf_append]
    · rw [hstart, offset_eq hts.symm]
    · intro hnil
      rw [textOf_cons] at hnil
      exact absurd (List.append_eq_nil_iff.mp hnil).1 (text_ne_nil ht)
  · refine ⟨source.toList, [], (List.append_nil _).symm, ?_, fun _ => hspan⟩
    rw [hspan]
    rfl

theorem showsLine_of_placed (h : b.Placed (tokenize source)) :
    (ofBlame source b).ShowsLine source (lines source.toList) := by
  obtain ⟨before, behind, hsource, hstart, hend⟩ := exists_cut_of_placed h
  have hsize : byteLength before ≤ byteLength source.toList := by
    rw [hsource, byteLength_append]
    exact Nat.le_add_right _ _
  have hline : (ofBlame source b).position.line = before.count '\n' := by
    have hposition : (ofBlame source b).position =
        (LineIndex.ofText source).position (min (ofBlame source b).span.start
          (byteLength source.toList)) := rfl
    rw [hposition, hstart, Nat.min_eq_left hsize, LineIndex.ofText, hsource, LineIndex.line_cut]
  have hexcerpt : (ofBlame source b).excerpt = Text.excerpt source (before.count '\n') := by
    rw [← hline]
    rfl
  have hlength := (hasLines_lines source.toList).length_eq
  have hcount : source.toList.count '\n' = before.count '\n' + behind.count '\n' := by
    rw [hsource, List.count_append]
  refine ⟨⟨before, behind, hsource, hstart, hline⟩, fun hlines => ?_, fun hlineless => ?_⟩
  · have hlt : before.count '\n' < (lines source.toList).length := by
      by_cases hclosed : EndsClosed source.toList
      · have hne : behind ≠ [] := fun hnil => hlines ⟨hend hnil, hclosed⟩
        have hmem : behind.getLast hne ∈ source.toList.getLast? := by
          rw [hsource, List.getLast?_append, List.getLast?_eq_some_getLast hne]
          rfl
        have hlast := hclosed _ hmem
        have hpos : 0 < behind.count '\n' := List.count_pos_iff.mpr (hlast ▸ List.getLast_mem hne)
        omega
      · rw [if_neg hclosed] at hlength
        omega
    have hframes := frames_excerpt hlt
    rw [hline, hexcerpt]
    exact ⟨hframes, hframes.countP_isMarked⟩
  · obtain ⟨hspan, hclosed⟩ := hlineless
    have hnil : behind = [] := by
      by_contra hne
      have hpos := byteLength_pos hne
      rw [hspan] at hstart
      have hbytes : byteLength source.toList = byteLength before + byteLength behind := by
        rw [hsource, byteLength_append]
      have hall : byteLength source.toList = byteLength before := hstart
      omega
    have hnumber : before.count '\n' = (lines source.toList).length := by
      rw [hnil, List.count_nil] at hcount
      rw [if_pos hclosed] at hlength
      omega
    have hshown := splitOn_excerpt_length source
    rw [hline, hexcerpt, hnumber]
    refine ⟨rfl, hshown, ?_⟩
    rw [hshown, List.countP_append, countP_isMarked_unmarkedFrom]
    rfl

end ParseError

/-- Whenever a text is refused, as a module or as an expression, the excerpt shows the line of the error
and marks it alone, but for errors that point behind a line feed at the very end. -/
theorem excerpts_show_error_line {source : String} {e : ParseError}
    (h : Module.parse source = .error e ∨ Expr.parse source = .error e) :
    ∃ ls, HasLines source.toList ls ∧ e.ShowsLine source ls := by
  refine ⟨lines source.toList, hasLines_lines _, ?_⟩
  rcases h with h | h
  · obtain ⟨b, -, hplaced, rfl⟩ := ParseError.exists_placed (fun _ => module_places) h
    exact ParseError.showsLine_of_placed hplaced
  · obtain ⟨b, -, hplaced, rfl⟩ := ParseError.exists_placed (fun _ => wholeExpression_places) h
    exact ParseError.showsLine_of_placed hplaced

/-- A declaration without its value, and a line feed behind it. -/
def unfinishedSource : String := "const a =\n"

theorem reported_unfinishedSource :
    reported Grammar.module unfinishedSource = some (0, ⟨10, 10⟩) := by
  decide +kernel

/-- The line with the missing value is shown. Where the text ends instead, the error is on the line
behind it, and none is marked. -/
theorem excerpts_show_error_line_unfinished :
    (∃ e ls, Module.parse valuelessSource = .error e ∧ HasLines valuelessSource.toList ls ∧
      Frames ls e.position.line e.excerpt ∧
      (e.excerpt.toList.splitOn '\n').countP isMarked = 1) ∧
    ∃ e ls, Module.parse unfinishedSource = .error e ∧ HasLines unfinishedSource.toList ls ∧
      e.position.line = ls.length ∧ (e.excerpt.toList.splitOn '\n').countP isMarked = 0 := by
  constructor
  · obtain ⟨e, he, hspan, -⟩ := exists_of_reported reported_valuelessSource
    obtain ⟨ls, hls, hshows⟩ := excerpts_show_error_line (.inl he)
    have hinside : ¬ e.Lineless valuelessSource := by
      rintro ⟨hend, -⟩
      rw [hspan] at hend
      revert hend
      decide +kernel
    exact ⟨e, ls, he, hls, hshows.framed hinside⟩
  · obtain ⟨e, he, hspan, -⟩ := exists_of_reported reported_unfinishedSource
    obtain ⟨ls, hls, hshows⟩ := excerpts_show_error_line (.inl he)
    have hend : e.span = endOf unfinishedSource := by
      rw [hspan]
      decide +kernel
    have hclosed : EndsClosed unfinishedSource.toList := by decide +kernel
    obtain ⟨hline, -, hcount⟩ := hshows.lineless ⟨hend, hclosed⟩
    exact ⟨e, ls, he, hls, hline, hcount⟩

end Source

end MarkupTrace
