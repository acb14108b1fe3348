import MarkupTrace.Proofs.Locations
import MarkupTrace.Proofs.MixedEndings

/-!
# Texts between tags with other line endings

A text with line feeds for pairs is blank where it was, is trimmed to the same, and is shown as the
same string.
-/

namespace MarkupTrace

namespace Text

theorem any_lineFeeds {p : Char → Bool} (hreturn : p '\r' = false) (cs : List Char) :
    (lineFeeds cs).any p = cs.any p := by
  induction cs with
  | nil => rfl
  | cons c cs ih =>
    rw [lineFeeds, List.any_cons]
    split
    · rename_i hpair
      rw [ih, hpair.1, hreturn, Bool.false_or]
    · rw [List.any_cons, ih]

theorem getLast?_lineFeeds (cs : List Char) : (lineFeeds cs).getLast? = cs.getLast? := by
  induction cs with
  | nil => rfl
  | cons c cs ih =>
    rw [lineFeeds]
    split
    · rename_i hpair
      obtain ⟨rest, rfl⟩ := List.head?_eq_some_iff.mp hpair.2
      rw [ih, List.getLast?_cons_cons]
    · rw [List.getLast?_cons, List.getLast?_cons, ih]

theorem count_lineFeeds (cs : List Char) : (lineFeeds cs).count '\n' = cs.count '\n' := by
  induction cs with
  | nil => rfl
  | cons c cs ih =>
    rw [lineFeeds]
    split
    · rename_i hpair
      rw [ih, hpair.1, List.count_cons_of_ne (by decide)]
    · rw [List.count_cons, List.count_cons, ih]

theorem all_lineFeeds {P : Char → Prop} {cs : List Char} (h : ∀ c ∈ cs, P c) :
    ∀ c ∈ lineFeeds cs, P c := by
  induction cs with
  | nil => exact h
  | cons c cs ih =>
    rw [List.forall_mem_cons] at h
    rw [lineFeeds]
    split
    · exact ih h.2
    · rw [List.forall_mem_cons]
      exact ⟨h.1, ih h.2⟩

/-! ## Blanks at both ends -/

theorem takeWhile_isBlank_lineFeeds (cs : List Char) :
    (lineFeeds cs).takeWhile isBlank = lineFeeds (cs.takeWhile isBlank) := by
  induction cs with
  | nil => rfl
  | cons c cs ih =>
    by_cases hpair : c = '\r' ∧ cs.head? = some '\n'
    · obtain ⟨rfl, hhead⟩ := hpair
      obtain ⟨rest, rfl⟩ := List.head?_eq_some_iff.mp hhead
      rw [lineFeeds_cons (by decide), List.takeWhile_cons_of_pos (by decide),
        List.takeWhile_cons_of_pos (by decide), lineFeeds_cons (by decide)] at ih
      rw [lineFeeds_pair, List.takeWhile_cons_of_pos (by decide),
        List.takeWhile_cons_of_pos (by decide), List.takeWhile_cons_of_pos (by decide),
        lineFeeds_pair, ih]
    · rw [lineFeeds, if_neg hpair, List.takeWhile_cons, List.takeWhile_cons]
      split
      · rw [ih, lineFeeds, if_neg]
        rintro ⟨hc, hhead⟩
        refine hpair ⟨hc, ?_⟩
        cases cs with
        | nil => cases hhead
        | cons d cs =>
          rw [List.takeWhile_cons] at hhead
          split at hhead
          · exact hhead
          · cases hhead
      · rfl

theorem dropStart_isBlank_lineFeeds (cs : List Char) :
    dropStart isBlank (lineFeeds cs) = lineFeeds (dropStart isBlank cs) := by
  have hcut : Cut (cs.takeWhile isBlank) (dropStart isBlank cs) := by
    intro _ hhead
    have := head?_dropStart hhead
    exact absurd this (by decide)
  have hboth := takeWhile_append_dropStart isBlank (lineFeeds cs)
  rw [takeWhile_isBlank_lineFeeds] at hboth
  refine List.append_cancel_left (hboth.trans ?_)
  rw [← lineFeeds_append hcut, takeWhile_append_dropStart]

theorem dropEnd_isBlank_lineFeeds (cs : List Char) :
    dropEnd isBlank (lineFeeds cs) = lineFeeds (dropEnd isBlank cs) := by
  have hsplit := dropEnd_append_takeWhile isBlank cs
  have hblank : ∀ c ∈ (cs.reverse.takeWhile isBlank).reverse, isBlank c = true := by
    intro c hc
    exact List.mem_takeWhile_imp (List.mem_reverse.mp hc)
  have hcut : Cut (dropEnd isBlank cs) (cs.reverse.takeWhile isBlank).reverse := by
    intro hlast
    have := getLast?_dropEnd hlast
    exact absurd this (by decide)
  conv_lhs => rw [← hsplit]
  rw [lineFeeds_append hcut]
  refine dropEnd_append (all_lineFeeds hblank) ?_
  intro c hc
  rw [getLast?_lineFeeds] at hc
  exact getLast?_dropEnd hc

theorem trim_lineFeeds (cs : List Char) : trim (lineFeeds cs) = lineFeeds (trim cs) := by
  rw [trim, dropStart_isBlank_lineFeeds, dropEnd_isBlank_lineFeeds, trim]

/-! ## Lines -/

theorem splitAt_cons_of_ne {sep c : Char} (h : c ≠ sep) (cs : List Char) :
    ∃ piece pieces, splitAt sep cs = piece :: pieces ∧
      splitAt sep (c :: cs) = (c :: piece) :: pieces := by
  cases hpieces : splitAt sep cs with
  | nil => exact absurd hpieces (splitAt_ne_nil sep cs)
  | cons piece pieces =>
    refine ⟨piece, pieces, rfl, ?_⟩
    rw [splitAt, if_neg h, hpieces]

/-- The lines of a text are the same but for carriage returns at their ends. -/
theorem splitAt_lineFeeds (cs : List Char) :
    List.Forall₂ (fun l l' => l' = l ∨ l' = l ++ ['\r']) (splitAt '\n' (lineFeeds cs))
      (splitAt '\n' cs) := by
  induction cs with
  | nil => exact .cons (.inl rfl) .nil
  | cons c cs ih =>
    by_cases hpair : c = '\r' ∧ cs.head? = some '\n'
    · obtain ⟨rfl, hhead⟩ := hpair
      obtain ⟨rest, rfl⟩ := List.head?_eq_some_iff.mp hhead
      rw [lineFeeds_cons (by decide)] at ih
      have hreturn : '\r' ≠ '\n' := by decide
      obtain ⟨piece, pieces, hpieces, hcons⟩ := splitAt_cons_of_ne hreturn ('\n' :: rest)
      rw [lineFeeds_pair, hcons]
      rw [hpieces] at ih
      rw [splitAt, if_pos rfl] at ih hpieces ⊢
      obtain ⟨rfl, rfl⟩ := List.cons_eq_cons.mp hpieces
      cases ih with
      | cons _ hrest => exact .cons (.inr rfl) hrest
    · rw [lineFeeds, if_neg hpair]
      by_cases hc : c = '\n'
      · rw [splitAt, if_pos hc, splitAt, if_pos hc]
        exact .cons (.inl rfl) ih
      · obtain ⟨piece, pieces, hpieces, hcons⟩ := splitAt_cons_of_ne hc (lineFeeds cs)
        obtain ⟨piece', pieces', hpieces', hcons'⟩ := splitAt_cons_of_ne hc cs
        rw [hcons, hcons']
        rw [hpieces, hpieces'] at ih
        cases ih with
        | cons hpiece hrest =>
          refine .cons ?_ hrest
          rcases hpiece with rfl | rfl
          · exact .inl rfl
          · exact .inr rfl

theorem dropEnd_return_append (cs : List Char) :
    dropEnd (· == '\r') (cs ++ ['\r']) = dropEnd (· == '\r') cs := by
  rw [dropEnd, List.reverse_append, List.reverse_singleton, List.singleton_append,
    List.dropWhile_cons_of_pos rfl, dropEnd]

end Text

namespace Source

open Text

namespace MarkupText

/-- Lines that differ in carriage returns at their ends only. -/
def SameLine (l l' : List Char) : Prop := dropEnd (· == '\r') l = dropEnd (· == '\r') l'

theorem forall₂_zipIdx {α β : Type} {R : α → β → Prop} {as : List α} {bs : List β}
    (h : List.Forall₂ R as bs) (k : Nat) :
    List.Forall₂ (fun x y => R x.1 y.1 ∧ x.2 = y.2) (as.zipIdx k) (bs.zipIdx k) := by
  induction h generalizing k with
  | nil => exact .nil
  | cons hab _ ih => exact .cons ⟨hab, rfl⟩ (ih (k + 1))

theorem isFilled_congr {l l' : List Char} (h : SameLine l l') : isFilled l = isFilled l' := by
  unfold isFilled
  rw [h]

theorem lastFilled_congr {ls ls' : List (List Char)} (h : List.Forall₂ SameLine ls ls') :
    lastFilled ls = lastFilled ls' := by
  have hnumbers : (ls.zipIdx.filter (isFilled ·.1)).map (·.2) =
      (ls'.zipIdx.filter (isFilled ·.1)).map (·.2) := by
    have hzip := forall₂_zipIdx h 0
    generalize ls.zipIdx = zs at hzip ⊢
    generalize ls'.zipIdx = zs' at hzip ⊢
    induction hzip with
    | nil => rfl
    | @cons z z' zs zs' hz _ ih =>
      have hfilled := isFilled_congr hz.1
      cases hz' : isFilled z'.1 with
      | false =>
        rw [hz'] at hfilled
        rw [List.filter_cons_of_neg (by simp [hfilled]), List.filter_cons_of_neg (by simp [hz']), ih]
      | true =>
        rw [hz'] at hfilled
        rw [List.filter_cons_of_pos (by simp [hfilled]), List.filter_cons_of_pos (by simp [hz']),
          List.map_cons, List.map_cons, ih, hz.2]
  unfold lastFilled
  rw [← List.getLast?_map, ← List.getLast?_map]
  exact congrArg List.getLast? hnumbers

theorem cookLines_congr {ls ls' : List (List Char)} (h : List.Forall₂ SameLine ls ls') :
    cookLines ls = cookLines ls' := by
  unfold cookLines
  rw [lastFilled_congr h, h.length_eq]
  dsimp only
  have hzip := forall₂_zipIdx h 0
  generalize ls.zipIdx = zs at hzip ⊢
  generalize ls'.zipIdx = zs' at hzip ⊢
  induction hzip with
  | nil => rfl
  | @cons z z' zs zs' hz _ ih =>
    have hcook : ∀ first last, cookLine first last z.1 = cookLine first last z'.1 := by
      intro first last
      unfold cookLine
      rw [hz.1]
    rw [List.flatMap_cons, List.flatMap_cons, ih, hcook, hz.2]

/-- With line feeds for pairs, a text is shown as before. -/
theorem cooked_withLineFeeds (raw : String) (span span' : Span) :
    cooked ⟨withLineFeeds raw, span⟩ = cooked ⟨raw, span'⟩ := by
  unfold cooked
  rw [toList_withLineFeeds]
  refine congrArg String.ofList (cookLines_congr ?_)
  refine (splitAt_lineFeeds raw.toList).imp ?_
  rintro l l' (rfl | rfl)
  · rfl
  · exact (dropEnd_return_append l).symm

theorem isSignificant_withLineFeeds (raw : String) (span span' : Span) :
    isSignificant ⟨withLineFeeds raw, span⟩ = isSignificant ⟨raw, span'⟩ := by
  unfold isSignificant
  rw [toList_withLineFeeds]
  exact any_lineFeeds (by decide) _

end MarkupText

end Source

end MarkupTrace
