import MarkupTrace.Proofs.EmittedLocations
import MarkupTrace.Proofs.ReadElements

/-!
# Locations select the text they stand for

A location literal of an annotated module selects, in the source with its line endings as the options
have them, the text from which the element or the child was read; of a text it selects what is between
the blanks at both ends.
-/

namespace MarkupTrace.Annotate

open Source Text Grammar

/-- The text in which offsets are counted. -/
def folded (normalize : Bool) (cs : List Char) : List Char := if normalize then lineFeeds cs else cs

theorem folded_append {a b : List Char} (h : Cut a b) (normalize : Bool) :
    folded normalize (a ++ b) = folded normalize a ++ folded normalize b := by
  cases normalize with
  | false => rfl
  | true => exact lineFeeds_append h

theorem lineFeeds_ne_nil {cs : List Char} (h : cs ≠ []) : lineFeeds cs ≠ [] := by
  induction cs with
  | nil => exact absurd rfl h
  | cons c cs ih =>
    rw [lineFeeds]
    split
    · rename_i hpair
      cases cs with
      | nil => cases hpair.2
      | cons d cs => exact ih (List.cons_ne_nil d cs)
    · exact List.cons_ne_nil _ _

theorem folded_ne_nil {cs : List Char} (h : cs ≠ []) (normalize : Bool) : folded normalize cs ≠ [] := by
  cases normalize with
  | false => exact h
  | true => exact lineFeeds_ne_nil h

theorem byteLength_pos {cs : List Char} (h : cs ≠ []) : 0 < byteLength cs := by
  cases cs with
  | nil => exact absurd rfl h
  | cons c cs =>
    have := c.utf8Size_pos
    rw [byteLength_cons]
    omega

/-! ## Selecting -/

/-- Where a location literal stands in a source: behind these characters it selects those. -/
structure Selects (normalize : Bool) (source : List Char) (l : LocationLiteral)
    (before part : List Char) : Prop where
  /-- The part stands in the source, and no pair is split at its ends. -/
  stands : ∃ behind, source = before ++ part ++ behind ∧ Cut before (part ++ behind) ∧
    Cut (before ++ part) behind
  selected : slice (folded normalize source) ⟨l.pos, l.stop⟩ = folded normalize part
  line : l.line = before.count '\n' + 1
  pos : l.pos = byteLength (folded normalize before)
  stop : l.stop = byteLength (folded normalize (before ++ part))

namespace Selects

variable {normalize : Bool} {source before before' part part' : List Char} {l l' : LocationLiteral}

/-- Where the second of two cuts is further, there is text between them. -/
theorem lt_of_cut {a b c : List Char} (h : Cut a (b ++ c)) (hb : b ≠ []) (normalize : Bool) :
    byteLength (folded normalize a) < byteLength (folded normalize (a ++ b)) := by
  rw [folded_append h.left, byteLength_append]
  have := byteLength_pos (folded_ne_nil hb normalize)
  omega

theorem pos_lt_stop (h : Selects normalize source l before part) (hpart : part ≠ []) :
    l.pos < l.stop := by
  obtain ⟨behind, -, hcut, -⟩ := h.stands
  rw [h.pos, h.stop]
  exact lt_of_cut hcut hpart normalize

/-- A part that is further behind. -/
theorem stop_le_pos (h : Selects normalize source l before part)
    (h' : Selects normalize source l' before' part') (hle : before ++ part <+: before') :
    l.stop ≤ l'.pos := by
  obtain ⟨behind, hsource, -, hcut⟩ := h.stands
  obtain ⟨behind', hsource', -, -⟩ := h'.stands
  obtain ⟨between, rfl⟩ := hle
  rw [h.stop, h'.pos]
  by_cases hbetween : between = []
  · rw [hbetween, List.append_nil]
  · refine Nat.le_of_lt (lt_of_cut (c := part' ++ behind') ?_ hbetween normalize)
    have hsame : behind = between ++ (part' ++ behind') := by
      rw [hsource'] at hsource
      simpa using hsource.symm
    exact hsame ▸ hcut

/-- A part inside another, both ends apart. -/
theorem inside (h : Selects normalize source l before part)
    (h' : Selects normalize source l' before' part') {first last : List Char} (hfirst : first ≠ [])
    (hlast : last ≠ []) (hbefore : before' = before ++ first)
    (hpart : before ++ part = before' ++ part' ++ last) : l.pos < l'.pos ∧ l'.stop < l.stop := by
  obtain ⟨behind, hsource, hcut, -⟩ := h.stands
  obtain ⟨behind', hsource', -, hcut'⟩ := h'.stands
  rw [h.pos, h.stop, h'.pos, h'.stop]
  constructor
  · rw [hbefore]
    refine lt_of_cut (c := part' ++ behind') ?_ hfirst normalize
    have hsame : part ++ behind = first ++ (part' ++ behind') := by
      rw [hsource', hbefore] at hsource
      simpa using hsource.symm
    exact hsame ▸ hcut
  · rw [hpart]
    refine lt_of_cut (c := behind) ?_ hlast normalize
    have hsame : behind' = last ++ behind := by
      rw [hsource', hpart] at hsource
      simpa using hsource
    exact hsame ▸ hcut'

end Selects

/-- A location between two cuts. -/
theorem selects_location {source : String} {a b c : List Char} (hsource : source.toList = a ++ b ++ c)
    (hcut : Cut a (b ++ c)) (hcut' : Cut (a ++ b) c) (normalize : Bool) (names : Names) :
    Selects normalize source.toList
      (Site.location ⟨LineIndex.ofText source, normalize, names⟩
        ⟨byteLength a, byteLength (a ++ b)⟩) a b := by
  have hindex : LineIndex.ofText source = LineIndex.ofChars (a ++ (b ++ c)) := by
    rw [LineIndex.ofText, hsource, List.append_assoc]
  have hindex' : LineIndex.ofText source = LineIndex.ofChars (a ++ b ++ c) := by
    rw [LineIndex.ofText, hsource]
  have hpos : Site.offset ⟨LineIndex.ofText source, normalize, names⟩ (byteLength a) =
      byteLength (folded normalize a) := by
    cases normalize with
    | false => rfl
    | true =>
      rw [hindex]
      exact LineIndex.normalized_cut hcut
  have hstop : Site.offset ⟨LineIndex.ofText source, normalize, names⟩ (byteLength (a ++ b)) =
      byteLength (folded normalize (a ++ b)) := by
    cases normalize with
    | false => rfl
    | true =>
      rw [hindex']
      exact LineIndex.normalized_cut hcut'
  have hab := folded_append hcut.left normalize
  refine ⟨⟨c, hsource, hcut, hcut'⟩, ?_, ?_, hpos, hstop⟩
  · rw [Site.location]
    dsimp only
    rw [hpos, hstop, hsource, folded_append hcut', hab, byteLength_append]
    exact slice_middle _ _ _
  · rw [Site.location]
    dsimp only
    rw [hindex, LineIndex.lineNumber_cut]

/-- Tokens with others before and behind them. -/
theorem selects_tokens {source : String} {ts us vs : List Token}
    (h : tokenize source = ts ++ us ++ vs) (normalize : Bool) (names : Names) :
    Selects normalize source.toList
      (Site.location ⟨LineIndex.ofText source, normalize, names⟩
        ⟨byteLength (textOf ts), byteLength (textOf (ts ++ us))⟩) (textOf ts) (textOf us) := by
  have hcuts : ∀ {ts us : List Token}, tokenize source = ts ++ us →
      source.toList = textOf ts ++ textOf us ∧ Cut (textOf ts) (textOf us) := by
    intro ts us h
    obtain ⟨b, hb, hcut, hus⟩ := tokensFrom_eq_append h
    have htext := flatMap_text_tokensFrom (0 + byteLength (textOf ts)) b
    rw [hus] at htext
    rw [show textOf us = b from htext]
    exact ⟨hb, hcut⟩
  obtain ⟨hsource, hcut'⟩ := hcuts h
  rw [List.append_assoc] at h
  obtain ⟨-, hcut⟩ := hcuts h
  rw [textOf_append] at hsource hcut' hcut
  rw [textOf_append]
  exact selects_location hsource hcut hcut' normalize names

end MarkupTrace.Annotate
