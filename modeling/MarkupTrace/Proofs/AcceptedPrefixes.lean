import MarkupTrace.Proofs.TextLines
import MarkupTrace.Proofs.RefusedTexts

/-!
# Errors behind what was accepted

The statements of a module are read as long as one can be read, and then the text has to end. A module
that is refused is refused at the end of those statements or further on: of all failures met on the
way, the furthest is reported, and the missing end is one of them. So an error never points into a
statement that was accepted, and it always points at a token or at the end of the text.
-/

namespace MarkupTrace.Source

open Text

namespace Grammar

open Grammar.Parser

variable {α β : Type} {p : Parser α} {q : Parser β} {i : Input} {b : Blame}

namespace Blame

theorem furthest_left_le (a b : Blame) : (a.furthest b).left ≤ a.left := by
  unfold Blame.furthest
  split
  · exact Nat.le_refl _
  · split
    · exact Nat.le_of_lt ‹_›
    · exact Nat.le_refl _

end Blame

theorem eq_failed_of_map {f : α → β} (h : p.map f i = .failed b) : p i = .failed b := by
  unfold Parser.map at h
  split at h
  · cases h
  · cases h
    assumption

/-- When the second of two parsers is the one that fails, the failure that is told is at least as far as
its own. -/
theorem exists_failed_of_skip (hp : ∀ i, ¬ p.Fails i) (h : p.skip q i = .failed b) :
    ∃ a r c, p.Gives i a r ∧ q r = .failed c ∧ b.left ≤ c.left := by
  have hboth : p.both q i = .failed b := eq_failed_of_map h
  unfold Parser.both at hboth
  cases hout : p i with
  | failed c => exact absurd ⟨c, hout⟩ (hp i)
  | done a r alt =>
    rw [hout] at hboth
    dsimp only at hboth
    cases hout' : q r with
    | done b r' alt' =>
      rw [hout'] at hboth
      cases hboth
    | failed c =>
      rw [hout'] at hboth
      refine ⟨a, r, c, ⟨alt, hout⟩, hout', ?_⟩
      cases alt with
      | none =>
        cases hboth
        exact Nat.le_refl _
      | some earlier =>
        cases hboth
        exact Blame.furthest_left_le c earlier

theorem not_fails_many (p : Parser α) (i : Input) : ¬ p.many.Fails i := by
  obtain ⟨as, r, alt, heq, -⟩ := exists_manyAfter p none i
  exact Gives.not_fails ⟨alt, heq⟩

/-- Neither statements nor trivia are demanded, so only the end of the text can be missing. -/
theorem not_fails_body (i : Input) : ¬ (statement.many.skip trivia).Fails i := by
  obtain ⟨body, m, hbody⟩ := not_fails_iff.mp (not_fails_many statement i)
  obtain ⟨us, r, htrivia⟩ := not_fails_iff.mp (not_fails_many triviaItem m)
  exact Gives.not_fails (gives_skip.mpr ⟨m, (), hbody, gives_map.mpr ⟨us, htrivia, rfl⟩⟩)

/-- A module is refused at the end of the statements that could be read or further on. -/
theorem exists_accepted_of_failed (h : Grammar.module i = .failed b) :
    ∃ body r, statement.many.Gives i body r ∧ statement.Fails r ∧ b.left ≤ r.left := by
  obtain ⟨body, k, c, hgives, hend, hle⟩ := exists_failed_of_skip not_fails_body (eq_failed_of_map h)
  obtain ⟨r, us, hbody, htrivia⟩ := gives_skip.mp hgives
  refine ⟨body, r, hbody, (gives_many.mp hbody).fails, hle.trans ?_⟩
  have hc : c = Blame.here k := by
    unfold Parser.atEnd at hend
    split at hend
    · cases hend
    · cases hend
      rfl
  rw [hc]
  exact Leaves.left_le htrivia

end Grammar

open Grammar Grammar.Parser

namespace ParseError

/-- Where an error points when so much was accepted and that is left: behind every token of what was
accepted, at one token of what is left or at the end of the text. Its range is a part of the text, and
its position is a line that starts before it with the whole distance from there. -/
structure PointsBehind (source : String) (accepted left : List Token) (e : ParseError) : Prop where
  behind : ∀ t ∈ accepted, t.span.stop ≤ e.span.start
  range : (∃ t ∈ left, e.span = t.span) ∨ e.span = endOf source
  within : ∃ text, StandsAt source.toList e.span text
  position : ∃ start, (LineIndex.ofText source).lineStarts[e.position.line]? = some start ∧
    start + e.position.column = e.span.start ∧
    ∀ next ∈ (LineIndex.ofText source).lineStarts[e.position.line + 1]?, e.span.start < next

variable {source : String} {b : Blame} {accepted left us : List Token}

/-- Errors come from failures that are placed. -/
theorem exists_placed {α : Type} {p : Parser α} (hp : ∀ n, p.Places n) {e : ParseError}
    (h : parseWith p source = .error e) :
    ∃ b, p (Input.ofTokens (tokenize source)) = .failed b ∧ b.Placed (tokenize source) ∧
      e = ofBlame source b := by
  obtain ⟨b, hb, hpoints⟩ := exists_points hp h
  have hplaced := hp _ (Input.ofTokens (tokenize source)) (Nat.lt_succ_self _)
  rw [hb] at hplaced
  exact ⟨b, hb, hplaced, hpoints.eq⟩

theorem standsAt_endOf (source : String) : StandsAt source.toList (endOf source) [] :=
  ⟨source.toList, [], by simp, by simp [endOf]⟩

/-- No token of what was accepted ends behind a place further on. -/
theorem stop_le_offset (htokens : tokenize source = accepted ++ left) (hus : us <:+ left) {t : Token}
    (ht : t ∈ accepted) : t.span.stop ≤ offset source us := by
  obtain ⟨before, after, rfl⟩ := List.append_of_mem ht
  have hsuffix : t :: (after ++ left) <:+ tokenize source := ⟨before, by simp [htokens]⟩
  rw [span_eq_offsets hsuffix]
  exact offset_le source (hus.trans (List.suffix_append after left))

/-- It is enough to know the range and that it starts where some of what is left does. -/
theorem pointsBehind_of_range (htokens : tokenize source = accepted ++ left) (hus : us <:+ left)
    (hstart : (ofBlame source b).span.start = offset source us)
    (hrange : (∃ t ∈ left, (ofBlame source b).span = t.span) ∨ (ofBlame source b).span = endOf source)
    (hwithin : ∃ text, StandsAt source.toList (ofBlame source b).span text) :
    (ofBlame source b).PointsBehind source accepted left := by
  refine ⟨?_, hrange, hwithin, ?_⟩
  · intro t ht
    rw [hstart]
    exact stop_le_offset htokens hus ht
  · have hsize : (ofBlame source b).span.start ≤ byteLength source.toList := by
      rw [hstart]
      exact Nat.sub_le _ _
    have hposition : (ofBlame source b).position =
        (LineIndex.ofText source).position (ofBlame source b).span.start := by
      rw [← Nat.min_eq_left hsize]
      rfl
    rw [hposition]
    exact LineIndex.position_spec source.toList _

/-- The range of an error is that of the token at the place of the failure, or the empty one at the end
of the text. -/
theorem range_of_placed (h : b.Placed (tokenize source)) :
    (∃ t us, t :: us <:+ tokenize source ∧ b.left = us.length + 1 ∧
      (ofBlame source b).span = t.span) ∨ (ofBlame source b).span = endOf source := by
  obtain ⟨us, hus, hleft, hfound⟩ := h
  unfold ofBlame
  cases hb : b.found with
  | none => exact .inr rfl
  | some t =>
    -- a token is told only where it stands at the place of the failure
    rcases hfound with hfound | ⟨hnone, -⟩
    · obtain ⟨rest, rfl⟩ := List.head?_eq_some_iff.mp (hfound.symm.trans hb)
      exact .inl ⟨t, rest, hus, hleft, rfl⟩
    · rw [hb] at hnone
      cases hnone

/-- A failure that is placed, with no more tokens left than are left behind what was accepted. -/
theorem pointsBehind_of_placed (htokens : tokenize source = accepted ++ left)
    (hplaced : b.Placed (tokenize source)) (hle : b.left ≤ left.length) :
    (ofBlame source b).PointsBehind source accepted left := by
  rcases range_of_placed hplaced with ⟨t, us, hus, hlength, hspan⟩ | hspan
  · have hleft : left <:+ tokenize source := ⟨accepted, htokens.symm⟩
    have hus' : t :: us <:+ left := List.suffix_of_suffix_length_le hus hleft (hlength.symm.le.trans hle)
    have hoffsets := span_eq_offsets hus
    refine pointsBehind_of_range htokens hus' ?_ (.inl ⟨t, hus'.subset List.mem_cons_self, hspan⟩) ?_
    · rw [hspan, hoffsets]
    · rw [hspan, hoffsets]
      exact ⟨_, standsAt_offsets (show [t] ++ us <:+ tokenize source from hus)⟩
  · refine pointsBehind_of_range htokens List.nil_suffix ?_ (.inr hspan) ?_
    · rw [hspan]
      rfl
    · rw [hspan]
      exact ⟨[], standsAt_endOf source⟩

end ParseError

/-- Whenever a module is refused, its statements were read as far as possible, and the error points
behind the last token of the last one: at one of the tokens left, or at the end of the text. -/
theorem errors_point_behind_accepted {source : String} {e : ParseError}
    (h : Module.parse source = .error e) : ∃ body r accepted,
      statement.many.Gives (Input.ofTokens (tokenize source)) body r ∧ statement.Fails r ∧
      tokenize source = accepted ++ r.tokens ∧ e.PointsBehind source accepted r.tokens := by
  obtain ⟨b, hb, hplaced, rfl⟩ := ParseError.exists_placed (fun _ => module_places) h
  obtain ⟨body, r, hbody, hfails, hle⟩ := exists_accepted_of_failed hb
  obtain ⟨accepted, haccepted⟩ := Leaves.suffix hbody
  rw [r.left_eq] at hle
  refine ⟨body, r, accepted, hbody, hfails, haccepted.symm, ?_⟩
  exact ParseError.pointsBehind_of_placed haccepted.symm hplaced hle

/-- A statement, and one without its value behind it. -/
def valuelessSource : String := "const a = 1;\nconst b = ;\n"

theorem reported_valuelessSource : reported Grammar.module valuelessSource = some (2, ⟨23, 24⟩) := by
  decide +kernel

/-- How many statements can be read, and how many tokens are left behind them. -/
def readable (source : String) : Option (Nat × Nat) :=
  match statement.many (Input.ofTokens (tokenize source)) with
  | .done body r _ => some (body.length, r.left)
  | .failed _ => none

theorem readable_valuelessSource : readable valuelessSource = some (1, 9) := by decide +kernel

theorem stop_valuelessSource :
    (((tokenize valuelessSource).take 8).getLast?.map (·.span.stop), (tokenize valuelessSource).length) =
      (some 12, 17) := by
  decide +kernel

/-- The first statement ends at 12, and the error is at the mark that stands for the missing value. -/
theorem errors_point_behind_accepted_valueless : ∃ e body r accepted,
    Module.parse valuelessSource = .error e ∧
      statement.many.Gives (Input.ofTokens (tokenize valuelessSource)) body r ∧ body.length = 1 ∧
      tokenize valuelessSource = accepted ++ r.tokens ∧
      accepted.getLast?.map (·.span.stop) = some 12 ∧
      e.PointsBehind valuelessSource accepted r.tokens ∧ e.span = ⟨23, 24⟩ := by
  obtain ⟨e, he, hspan, -⟩ := exists_of_reported reported_valuelessSource
  obtain ⟨body, r, accepted, hbody, -, htokens, hpoints⟩ := errors_point_behind_accepted he
  obtain ⟨hlength, hleft⟩ : body.length = 1 ∧ r.left = 9 := by
    obtain ⟨alt, hout⟩ := hbody
    have hreadable := readable_valuelessSource
    unfold readable at hreadable
    rw [hout] at hreadable
    simpa using hreadable
  obtain ⟨hlast, hsize⟩ := Prod.mk.inj stop_valuelessSource
  have haccepted : (tokenize valuelessSource).take 8 = accepted := by
    have hsum := congrArg List.length htokens
    rw [List.length_append, ← r.left_eq, hsize, hleft] at hsum
    rw [htokens, List.take_left' (by omega)]
  rw [haccepted] at hlast
  exact ⟨e, body, r, accepted, he, hbody, hlength, htokens, hlast, hpoints, hspan⟩

end MarkupTrace.Source
