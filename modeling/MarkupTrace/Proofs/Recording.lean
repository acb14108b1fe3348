import MarkupTrace.Proofs.Derivations
import MarkupTrace.Proofs.ShownText
import MarkupTrace.Proofs.StoreTyping

/-!
# What is recorded for an element

An element that annotation gave its place carries a record of its own when it was created. What is
to be recorded against it is known from its children and what they contributed, one entry for each
child that can be recorded. The stack operations that make it so change nothing else.
-/

namespace MarkupTrace

open Source Annotate Eval

namespace Annotate.Instance

/-- What is recorded for a child that contributed a value. -/
def recordOf? (i : Instance) : Child → Option Value → Option Recorded
  | .text t, v =>
    if t.isSignificant then some ⟨v.getD .undefined, i.place t.trimmedSpan, false⟩ else none
  | .container _ span, v => some ⟨v.getD .undefined, i.place span, true⟩
  | _, _ => none

/-- The entries of an element's record: one for each child that can be recorded, in order. -/
def recordsOf (i : Instance) : List Child → List (Option Value) → List Recorded
  | c :: cs, v :: vs => (i.recordOf? c v).toList ++ i.recordsOf cs vs
  | _, _ => []

theorem isSome_recordOf? (i : Instance) (c : Child) (v : Option Value) :
    (i.recordOf? c v).isSome = c.isWrappable := by
  cases c with
  | text t => cases h : t.isSignificant <;> simp [recordOf?, Child.isWrappable, h]
  | _ => rfl

theorem recordsOf_of_not_wrappable (i : Instance) {cs : List Child}
    (h : cs.any Child.isWrappable = false) (vs : List (Option Value)) : i.recordsOf cs vs = [] := by
  induction cs generalizing vs with
  | nil => rfl
  | cons c cs ih =>
    rw [List.any_cons, Bool.or_eq_false_iff] at h
    cases vs with
    | nil => rfl
    | cons v vs =>
      have hc : i.recordOf? c v = none := by
        rw [← Option.isNone_iff_eq_none, ← Option.not_isSome, isSome_recordOf?, h.1]
        rfl
      rw [recordsOf, hc, ih h.2 vs]
      rfl

end Annotate.Instance

namespace Eval

/-- What a child contributes to its element: a text what it is shown as if that is anything, a
container some value, an element an element that was created from it. -/
def Contributes (o : Origin) (log : List Creation) : Child → Option Value → Prop
  | .text t, v => v = if t.cooked = "" then none else some (.text t.cooked)
  | .container _ _, v => ∃ w, v = some w
  | .emptyContainer _, v => v = none
  | .element e, v => ∃ c ∈ log, c.element = o.element e ∧ v = some (.element c.value)

theorem Contributes.mono {o : Origin} {log log' : List Creation} {c : Child} {v : Option Value}
    (h : Contributes o log c v) (hsub : log ⊆ log') : Contributes o log' c v := by
  cases c with
  | element e =>
    obtain ⟨c, hc, hv⟩ := h
    exact ⟨c, hsub hc, hv⟩
  | _ => exact h

/-- The `children` prop holds the contributed values: none, the one there is, or an array. -/
def Gathered (props : Fields) : List Value → Prop
  | [] => True
  | [v] => props.get? "children" = some v
  | vs => ∃ identity, props.get? "children" = some (.array identity vs)

/-- The element was created from `e` as it stands in an annotated module: it carries a record that
was new, for the place of `e`, and against which its children are recorded. -/
def Creation.Attributed (i : Instance) (e : Element) (s : Store) (c : Creation) : Prop :=
  ∃ r : RecordRef, c.value.source = some (.location r) ∧ c.before ≤ r.index ∧
    r.index < s.records.size ∧ r.place = i.place e.span ∧
    s.recorded r = i.recordsOf e.content.toList c.given

/-- How a created element goes back to the written one. -/
structure Creation.From (o : Origin) (e : Element) (s : Store) (log : List Creation)
    (c : Creation) : Prop where
  element : c.element = o.element e
  contributed : List.Forall₂ (Contributes o log) e.content.toList c.given
  gathered : Gathered c.value.props (c.given.filterMap id)
  attributed : ∀ i, o = .annotated i → e.hasAttribute sourceAttribute = false →
    c.Attributed i e s

/-- All elements that were created since there were `before` records come from known code. -/
def Accounted (Γ : Typing) (before : Nat) (s : Store) (log : List Creation) : Prop :=
  ∀ c ∈ log, before ≤ c.before ∧
    ∃ o e, s.Home Γ c.scope.index o ∧ o.Fits e.mentions ∧ c.From o e s log

end Eval

namespace Store

variable {Γ : Typing} {s s' : Store}

theorem Home.exists_typed {i : Nat} {o : Origin} (h : Home Γ s i o) : ∃ k, Γ k = some o := by
  induction h with
  | root found outermost typed => exact ⟨_, typed⟩
  | inner found inside earlier home ih => exact ih

theorem Sound.stack_lt (h : Sound Γ s) {i : Nat} {inst : Instance}
    (hi : Home Γ s i (.annotated inst)) : inst.stack.index < s.stackEntries.length := by
  obtain ⟨k, hk⟩ := hi.exists_typed
  exact h.stack k inst hk

theorem grows_newRecord (place : Location) (s : Store) : Grows none s (s.newRecord place).2 := by
  refine ⟨fun i sc hi => ⟨sc, hi, rfl⟩, ?_, ?_⟩
  · simp [newRecord]
  · intro i hi _
    have hne : i ≠ s.records.size := hi.ne
    simp [newRecord, Array.getElem?_push, hne]

theorem recorded_newRecord (place : Location) (s : Store) :
    (s.newRecord place).2.recorded (s.newRecord place).1 = [] := by
  simp [newRecord, recorded, recorded?]

theorem entries_of_getElem? {id : StackId} {es : List RecordRef}
    (h : s.stackEntries[id.index]? = some es) : s.entries id = es := by
  rw [entries, h, Option.getD_some]

@[simp] theorem scopes_record (id : StackId) (x : Recorded) (isLast : Bool) (s : Store) :
    (s.record id x isLast).scopes = s.scopes := by
  unfold record
  cases s.entries id with
  | nil => rfl
  | cons top rest => cases isLast <;> rfl

section record

variable {id : StackId} {r : RecordRef} {rest : List RecordRef}
  (htop : s.stackEntries[id.index]? = some (r :: rest)) (x : Recorded) (isLast : Bool)
include htop

theorem record_eq : s.record id x isLast =
    if isLast then (s.append r x).pop id else s.append r x := by
  rw [record, entries_of_getElem? htop]

theorem stackEntries_record : (s.record id x isLast).stackEntries =
    if isLast then s.stackEntries.modify id.index List.tail else s.stackEntries := by
  rw [record_eq htop]
  split_ifs <;> rfl

theorem records_record : (s.record id x isLast).records = (s.append r x).records := by
  rw [record_eq htop]
  split_ifs <;> rfl

theorem grows_record : Grows (some r.index) s (s.record id x isLast) := by
  refine ⟨?_, ?_, ?_⟩
  · intro i sc hi
    exact ⟨sc, by rw [scopes_record, hi], rfl⟩
  · rw [records_record htop]
    simp [append]
  · intro i hi hne
    have hne : r.index ≠ i := fun h => hne (h ▸ rfl)
    rw [records_record htop]
    simp [append, Array.getElem?_modify, hne]

theorem recorded_record (hr : r.index < s.records.size) :
    (s.record id x isLast).recorded r = s.recorded r ++ [x] := by
  unfold recorded recorded?
  rw [records_record htop]
  simp [append, Array.getElem_modify, hr]

end record

end Store

end MarkupTrace
