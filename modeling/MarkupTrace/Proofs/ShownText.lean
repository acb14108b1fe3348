import MarkupTrace.Source.Tree
import Mathlib.Data.List.TakeWhile
import Mathlib.Tactic.SplitIfs

/-!
# Text that shows

A text with anything but blanks in it is shown as something: no character that is not blank gets
lost when the lines of a text are joined.
-/

namespace MarkupTrace.Text

variable {p : Char → Bool} {c : Char} {cs : List Char}

theorem mem_dropStart (hc : c ∈ cs) (hp : p c = false) : c ∈ dropStart p cs := by
  rw [← takeWhile_append_dropStart p cs] at hc
  rcases List.mem_append.mp hc with h | h
  · have := List.mem_takeWhile_imp h
    rw [hp] at this
    cases this
  · exact h

theorem mem_dropEnd (hc : c ∈ cs) (hp : p c = false) : c ∈ dropEnd p cs :=
  List.mem_reverse.mpr (mem_dropStart (List.mem_reverse.mpr hc) hp)

theorem exists_mem_splitAt {sep : Char} (hc : c ∈ cs) (hsep : c ≠ sep) :
    ∃ line ∈ splitAt sep cs, c ∈ line := by
  induction cs with
  | nil => cases hc
  | cons d cs ih =>
    rw [splitAt]
    split_ifs with hd
    · have hmem := (List.mem_cons.mp hc).resolve_left fun h => hsep (h.trans hd)
      obtain ⟨line, hline, hin⟩ := ih hmem
      exact ⟨line, List.mem_cons_of_mem _ hline, hin⟩
    · cases hsplit : splitAt sep cs with
      | nil => exact absurd hsplit (splitAt_ne_nil sep cs)
      | cons piece pieces =>
        rcases List.mem_cons.mp hc with rfl | hmem
        · exact ⟨_, List.mem_cons_self, List.mem_cons_self⟩
        · obtain ⟨line, hline, hin⟩ := ih hmem
          rw [hsplit] at hline
          rcases List.mem_cons.mp hline with rfl | hline
          · exact ⟨_, List.mem_cons_self, List.mem_cons_of_mem _ hin⟩
          · exact ⟨line, List.mem_cons_of_mem _ hline, hin⟩

end MarkupTrace.Text

namespace MarkupTrace.Source.MarkupText

open Text

variable {c : Char}

theorem mem_cookLine {line : List Char} (hc : c ∈ line) (hblank : isBlank c = false)
    (first last : Bool) : c ∈ cookLine first last line := by
  have hne : ∀ d, isBlank d = true → c ≠ d := by
    rintro d hd rfl
    rw [hblank] at hd
    cases hd
  have hspace : (c == ' ') = false := beq_eq_false_iff_ne.mpr (hne ' ' (by decide))
  have hreturn : (c == '\r') = false := beq_eq_false_iff_ne.mpr (hne '\r' (by decide))
  have hspaced : c ∈ (dropEnd (· == '\r') line).map fun c => if c = '\t' then ' ' else c :=
    List.mem_map.mpr ⟨c, mem_dropEnd hc hreturn, if_neg (hne '\t' (by decide))⟩
  have hstart : c ∈ if first then
      (dropEnd (· == '\r') line).map fun c => if c = '\t' then ' ' else c
      else dropStart (fun c => c == ' ')
        ((dropEnd (· == '\r') line).map fun c => if c = '\t' then ' ' else c) := by
    split_ifs
    · exact hspaced
    · exact mem_dropStart hspaced hspace
  unfold cookLine
  cases last with
  | true => exact hstart
  | false => exact mem_dropEnd hstart hspace

theorem mem_cookLines {lines : List (List Char)} {line : List Char} (hline : line ∈ lines)
    (hc : c ∈ line) (hblank : isBlank c = false) : c ∈ cookLines lines := by
  obtain ⟨i, hi⟩ := List.mem_iff_getElem?.mp hline
  refine List.mem_flatMap.mpr ⟨(line, i), List.mem_zipIdx_iff_getElem?.mpr hi, ?_⟩
  have hcooked := mem_cookLine hc hblank (i == 0) (i == lines.length - 1)
  have hfull : (cookLine (i == 0) (i == lines.length - 1) line).isEmpty = false := by
    rw [List.isEmpty_eq_false_iff]
    exact List.ne_nil_of_mem hcooked
  simp only [hfull, Bool.false_eq_true, if_false]
  split_ifs
  · exact hcooked
  · exact List.mem_append_left _ hcooked

/-- A text with something else than blanks in it is not shown as the empty one. -/
theorem cooked_ne_empty {t : MarkupText} (h : t.isSignificant = true) : t.cooked ≠ "" := by
  obtain ⟨c, hc, hblank⟩ := List.any_eq_true.mp h
  have hblank : isBlank c = false := by simpa using hblank
  have hne : c ≠ '\n' := by
    rintro rfl
    exact absurd hblank (by decide)
  obtain ⟨line, hline, hin⟩ := exists_mem_splitAt hc hne
  intro hempty
  have hmem := mem_cookLines hline hin hblank
  rw [← String.toList_ofList (l := cookLines _), ← cooked, hempty] at hmem
  cases hmem

end MarkupTrace.Source.MarkupText
