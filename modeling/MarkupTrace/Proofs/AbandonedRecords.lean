import MarkupTrace.Proofs.UnfinishedElements

/-!
# Records that failures abandon

The record of an element lies on the stack from its last attribute to its last recorded child. An
evaluation that fails in between abandons it there, and nothing takes it off again. So the stacks
hold what they held, below the records of those unfinished elements that had a child still to be
recorded.
-/

namespace MarkupTrace

open Source Annotate Eval Store

/-- The records that lie on one stack, the top first. -/
def StackId.own (id : StackId) (marks : List (Option (StackId × RecordRef))) : List RecordRef :=
  marks.filterMap fun mark => (mark.filter (·.1 = id)).map (·.2)

namespace StackId

variable (id : StackId)

theorem own_append (marks marks' : List (Option (StackId × RecordRef))) :
    id.own (marks ++ marks') = id.own marks ++ id.own marks' := List.filterMap_append

theorem own_none : id.own [none] = [] := rfl

theorem own_some_self (r : RecordRef) : id.own [some (id, r)] = [r] := by
  simp [own, Option.filter]

theorem own_some_of_ne {stack : StackId} (h : stack ≠ id) (r : RecordRef) :
    id.own [some (stack, r)] = [] := by
  simp [own, Option.filter, h]

theorem index_ne {id stack : StackId} (h : stack ≠ id) : stack.index ≠ id.index := by
  cases id
  cases stack
  exact fun heq => h (congrArg StackId.mk heq)

end StackId

namespace Store

variable {s s' : Store} {id stack : StackId} {r : RecordRef} {es : List RecordRef}

theorem entries_eq (h : s'.stackEntries = s.stackEntries) (id : StackId) :
    s'.entries id = s.entries id := by
  rw [entries, entries, h]

theorem entries_pop_of_ne (h : stack ≠ id) (s : Store) :
    (s.pop stack).entries id = s.entries id := by
  simp [entries, pop, StackId.index_ne h]

theorem entries_push_of_ne (h : stack ≠ id) (r : RecordRef) (s : Store) :
    (s.push stack r).entries id = s.entries id := by
  simp [entries, push, StackId.index_ne h]

theorem stackEntries_of_entries (h : s.entries id = r :: es) :
    s.stackEntries[id.index]? = some (r :: es) := by
  rw [entries] at h
  cases hget : s.stackEntries[id.index]? with
  | none =>
    rw [hget] at h
    cases h
  | some es' =>
    rw [hget] at h
    exact congrArg some h

/-- What lies on top of a stack if the last of those who need it takes it off. -/
theorem entries_of_tail {p q : Bool}
    (hentries : s.entries id = id.own [if p || q then some (stack, r) else none] ++ es)
    (hstacks : s'.stackEntries =
      if p && !q then s.stackEntries.modify stack.index List.tail else s.stackEntries) :
    s'.entries id = id.own [if q then some (stack, r) else none] ++ es := by
  cases q with
  | true =>
    rw [Bool.not_true, Bool.and_false, if_neg Bool.false_ne_true] at hstacks
    rw [entries_eq hstacks, hentries, Bool.or_true]
  | false =>
    rw [Bool.not_false, Bool.and_true] at hstacks
    rw [Bool.or_false] at hentries
    rw [if_neg Bool.false_ne_true, StackId.own_none, List.nil_append]
    cases p with
    | false =>
      rw [entries_eq hstacks, hentries]
      rfl
    | true =>
      rw [if_pos rfl] at hentries
      rw [entries_eq (s := s.pop stack) hstacks]
      by_cases hid : stack = id
      · rw [hid, entries_pop_self, hentries, hid, StackId.own_some_self]
        rfl
      · rw [entries_pop_of_ne hid, hentries, StackId.own_some_of_ne _ hid, List.nil_append]

end Store

namespace Annotate.Origin

variable {o : Origin} {e : Element} {number : Nat}

/-- Where the record of an element lies, it being the one of this number, while some of its children
are left: on the stack of its module, as long as one of them is to be recorded. -/
def mark (o : Origin) (e : Element) (number : Nat) (left : List Child) :
    Option (StackId × RecordRef) :=
  match o with
  | plain => none
  | annotated i =>
    if recordsChildren e && left.any Child.isWrappable then some (i.stack, ⟨number, i.place e.span⟩)
    else none

theorem mark_of_not_records (h : o.records e = false) (number : Nat) (left : List Child) :
    o.mark e number left = none := by
  cases o with
  | plain => rfl
  | annotated i =>
    rw [records] at h
    rw [mark, h, Bool.false_and, if_neg Bool.false_ne_true]

theorem mark_of_records {i : Instance} (h : recordsChildren e = true) (number : Nat)
    (left : List Child) : (annotated i).mark e number left =
      if left.any Child.isWrappable then some (i.stack, ⟨number, i.place e.span⟩) else none := by
  rw [mark, h, Bool.true_and]

theorem mark_eq_some {left : List Child} {p : StackId × RecordRef}
    (h : o.mark e number left = some p) : ∃ i, o = annotated i ∧ recordsChildren e = true ∧
      left.any Child.isWrappable = true ∧ p = (i.stack, ⟨number, i.place e.span⟩) := by
  cases o with
  | plain => cases h
  | annotated i =>
    rw [mark] at h
    split_ifs at h with hmark
    rw [Bool.and_eq_true] at hmark
    cases h
    exact ⟨i, rfl, hmark.1, hmark.2, rfl⟩

theorem mark_cons {c : Child} {cs : List Child} {p : StackId × RecordRef}
    (h : o.mark e number cs = some p) : o.mark e number (c :: cs) = some p := by
  obtain ⟨i, rfl, hrecords, hany, rfl⟩ := mark_eq_some h
  rw [mark_of_records hrecords, List.any_cons, hany, Bool.or_true, if_pos rfl]

/-- Where children are recorded, the module has elements and recorded ones. -/
theorem Fits.counts_of_records {i : Instance} (h : (annotated i).Fits e.mentions)
    (hrecords : recordsChildren e = true) : 0 < i.tally.annotated ∧ 0 < i.tally.wrapped := by
  have huser : e.hasAttribute sourceAttribute = false := by
    rw [recordsChildren, Bool.and_eq_true, Bool.not_eq_true'] at hrecords
    exact hrecords.1
  rw [Element.mentions_eq, huser, if_neg Bool.false_ne_true] at h
  obtain ⟨ha, hw⟩ := h.counts (recordsChildren e) (by simp)
  exact ⟨ha, hw hrecords⟩

end Annotate.Origin

namespace Eval

/-- An unfinished element is of known code. Its record, if it lies on a stack, is the one that the
element was to carry, and it is new. -/
structure Unfinished.Leaves (Γ : Typing) (s s' : Store) (u : Unfinished)
    (mark : Option (StackId × RecordRef)) : Prop where
  code : ∃ o e done left number, s'.Home Γ u.scope.index o ∧ o.Fits e.mentions ∧
    u.element = o.element e ∧ e.content.toList = done ++ left ∧
    u.left = o.children (o.records e) left ∧ mark = o.mark e number left
  fresh : ∀ p ∈ mark, u.source = some (.location p.2) ∧ s.records.size ≤ p.2.index ∧
    p.2.index < s'.records.size

/-- The stacks hold what they held, below the records that unfinished elements left there. Those of
inner elements are the newer ones. -/
structure Interrupted (Γ : Typing) (s s' : Store) (us : List Unfinished)
    (marks : List (Option (StackId × RecordRef))) : Prop where
  leaves : List.Forall₂ (Unfinished.Leaves Γ s s') us marks
  newer : marks.Pairwise fun m n => ∀ p ∈ m, ∀ q ∈ n, q.2.index < p.2.index
  entries : ∀ id : StackId, s'.entries id = id.own marks ++ s.entries id

namespace Interrupted

variable {Γ : Typing} {s s₁ s' : Store} {us : List Unfinished}
  {marks : List (Option (StackId × RecordRef))}

theorem still (h : s'.stackEntries = s.stackEntries) : Interrupted Γ s s' [] [] :=
  ⟨.nil, .nil, entries_eq h⟩

theorem fresh (h : Interrupted Γ s s' us marks) :
    ∀ m ∈ marks, ∀ p ∈ m, s.records.size ≤ p.2.index := by
  have hleaves := h.leaves
  clear h
  induction hleaves with
  | nil => nofun
  | cons hu _ ih => exact List.forall_mem_cons.mpr ⟨fun p hp => (hu.fresh p hp).2.1, ih⟩

/-- The failure came behind something that left the stacks alone. -/
theorem after (h : Interrupted Γ s₁ s' us marks) (hsize : s.records.size ≤ s₁.records.size)
    (hstacks : s₁.stackEntries = s.stackEntries) : Interrupted Γ s s' us marks where
  leaves := h.leaves.imp fun _ _ hu =>
    ⟨hu.code, fun p hp => ⟨(hu.fresh p hp).1, hsize.trans (hu.fresh p hp).2.1, (hu.fresh p hp).2.2⟩⟩
  newer := h.newer
  entries id := by rw [h.entries, entries_eq hstacks]

/-- The failure came inside one more element. -/
theorem inside {u : Unfinished} {mark : Option (StackId × RecordRef)}
    (h : Interrupted Γ s₁ s' us marks) (hsize : s.records.size ≤ s₁.records.size)
    (hu : u.Leaves Γ s s' mark) (hmark : ∀ p ∈ mark, p.2.index < s₁.records.size)
    (hstacks : ∀ id : StackId, s₁.entries id = id.own [mark] ++ s.entries id) :
    Interrupted Γ s s' (us ++ [u]) (marks ++ [mark]) where
  leaves := by
    refine List.rel_append (h.leaves.imp fun _ _ hv => ⟨hv.code, fun p hp => ?_⟩) (.cons hu .nil)
    obtain ⟨hsource, hnew, hmade⟩ := hv.fresh p hp
    exact ⟨hsource, hsize.trans hnew, hmade⟩
  newer := by
    refine List.pairwise_append.mpr ⟨h.newer, List.pairwise_singleton _ _, ?_⟩
    intro m hm n hn p hp q hq
    cases List.mem_singleton.mp hn
    exact (hmark q hq).trans_le (h.fresh m hm p hp)
  entries id := by rw [h.entries, hstacks, StackId.own_append, List.append_assoc]

end Interrupted

/-- What a failure leaves: a store that is in order and holds what it held, and that has on its
stacks, on top of what was there, what these unfinished elements left. -/
structure Abandons (Γ : Typing) (s : Store) (us : List Unfinished) (s' : Store) : Prop where
  remains : Remains Γ none s s'
  interrupted : ∃ marks, Interrupted Γ s s' us marks

namespace Abandons

variable {Γ : Typing} {s s₁ s' : Store} {us : List Unfinished}

theorem still (h : Remains Γ none s s') (hstacks : s'.stackEntries = s.stackEntries) :
    Abandons Γ s [] s' := ⟨h, [], .still hstacks⟩

theorem refl (h : s.Sound Γ) : Abandons Γ s [] s := still (.refl h) rfl

/-- The failure came behind something that left the stacks alone. -/
theorem after (h : Abandons Γ s₁ us s') (hgrows : s.Grows none s₁)
    (hstacks : s₁.stackEntries = s.stackEntries) : Abandons Γ s us s' := by
  obtain ⟨marks, hm⟩ := h.interrupted
  exact ⟨⟨h.remains.sound, hgrows.trans h.remains.grows⟩, marks, hm.after hgrows.size hstacks⟩

end Abandons

/-! ## Elements whose children are being evaluated -/

variable {Γ : Typing} {s s' : Store} {scope : ScopeId} {o : Origin}

/-- The children of `e` that are left are about to be evaluated, and its record, made behind the
store `b`, lies where it is then. -/
structure Underway (Γ : Typing) (scope : ScopeId) (o : Origin) (e : Element)
    (source : Option Value) (b : Store) (left : List Child) (s : Store) : Prop where
  sound : s.Sound Γ
  home : s.Home Γ scope.index o
  grows : b.Grows none s
  made : o.records e = true → b.records.size < s.records.size
  carried : ∀ p ∈ o.mark e b.records.size left, source = some (.location p.2)
  entries : ∀ id : StackId,
    s.entries id = id.own [o.mark e b.records.size left] ++ b.entries id

namespace Underway

variable {J : Judgement} {e : Element} {source : Option Value} {b s₁ : Store} {c : Child}
  {cs : List Child} {w : Option Value} {l : List Creation}

theorem carried_cons (h : Underway Γ scope o e source b (c :: cs) s) :
    ∀ p ∈ o.mark e b.records.size cs, source = some (.location p.2) :=
  fun p hp => h.carried p (Origin.mark_cons hp)

/-- A child that succeeds takes the record off the stack if it was the last one to be recorded. -/
theorem next (h : Underway Γ scope o e source b (c :: cs) s) (hJ : Preserves Γ J)
    (hreg : Regular J) (hrec : Records Γ J) (he : o.Fits e.mentions) (hc : o.Fits c.mentions)
    (hw : Contributed J scope (o.child (o.records e) (!cs.any Child.isWrappable) c) s w s₁ l) :
    Underway Γ scope o e source b cs s₁ := by
  cases hrecords : o.records e with
  | false =>
    rw [hrecords] at hw
    obtain ⟨k, -⟩ := Contributed.keeps hJ hreg h.sound h.home hc hw
    refine ⟨k.sound, k.home h.home, h.grows.trans k.grows, by simp [hrecords], h.carried_cons,
      fun id => ?_⟩
    rw [entries_eq k.stackEntries, h.entries, Origin.mark_of_not_records hrecords,
      Origin.mark_of_not_records hrecords]
  | true =>
    cases o with
    | plain => cases hrecords
    | annotated i =>
      have hr := h.made hrecords
      obtain ⟨hannotated, hwrapped⟩ := he.counts_of_records hrecords
      have hbefore := h.entries
      rw [Origin.mark_of_records hrecords, List.any_cons] at hbefore
      have htop : c.isWrappable = true → s.stackEntries[i.stack.index]? =
          some (⟨b.records.size, i.place e.span⟩ :: b.entries i.stack) := by
        intro hwrappable
        rw [hwrappable, Bool.true_or, if_pos rfl] at hbefore
        exact stackEntries_of_entries (by rw [hbefore, StackId.own_some_self]; rfl)
      rw [hrecords] at hw
      obtain ⟨k, -⟩ := Contributed.keepsBut hJ hreg hrec h.sound h.home hc hannotated hwrapped hr
        htop hw
      refine ⟨k.sound, h.home.grow k.grows, ?_, fun _ => hr.trans_le k.grows.size, h.carried_cons,
        fun id => ?_⟩
      · -- The only record that has changed is newer than `b`.
        exact (h.grows.weaken.trans k.grows).strengthen le_rfl
      · rw [Origin.mark_of_records hrecords]
        exact entries_of_tail (hbefore id) k.stackEntries

/-- A failure in the first of the children that are left. -/
theorem abandons {s' : Store} {us : List Unfinished} {done left : List Child}
    (h : Underway Γ scope o e source b left s) (he : o.Fits e.mentions)
    (hcontent : e.content.toList = done ++ left) (hf : Abandons Γ s us s') :
    Abandons Γ b
      (us ++ [⟨scope, o.element e, source, o.children (o.records e) left⟩]) s' := by
  obtain ⟨marks, hm⟩ := hf.interrupted
  have hgrows := hf.remains.grows
  have hmade : ∀ p ∈ o.mark e b.records.size left,
      b.records.size ≤ p.2.index ∧ p.2.index < s.records.size := by
    intro p hp
    obtain ⟨i, rfl, hrecords, -, rfl⟩ := Origin.mark_eq_some hp
    exact ⟨le_rfl, h.made hrecords⟩
  have hu : Unfinished.Leaves Γ b s'
      ⟨scope, o.element e, source, o.children (o.records e) left⟩
      (o.mark e b.records.size left) := by
    refine ⟨⟨o, e, done, left, b.records.size, h.home.grow hgrows, he, rfl, hcontent, rfl, rfl⟩, ?_⟩
    exact fun p hp => ⟨h.carried p hp, (hmade p hp).1, (hmade p hp).2.trans_le hgrows.size⟩
  exact ⟨⟨hf.remains.sound, h.grows.trans hgrows⟩, _,
    hm.inside h.grows.size hu (fun p hp => (hmade p hp).2) h.entries⟩

/-- An element whose children are not recorded. -/
theorem of_not_records (hs : s.Sound Γ) (hi : s.Home Γ scope.index o) (h : o.records e = false) :
    Underway Γ scope o e source s e.content.toList s where
  sound := hs
  home := hi
  grows := .refl s
  made := by simp [h]
  carried := by simp [Origin.mark_of_not_records h]
  entries id := by rw [Origin.mark_of_not_records h, StackId.own_none, List.nil_append]

/-- An element that has just got its record. -/
theorem of_attributed {i : Instance} (hs : s.Sound Γ) (hi : s.Home Γ scope.index (.annotated i))
    (huser : e.hasAttribute sourceAttribute = false)
    (hsource : source = some (.location ⟨s.records.size, i.place e.span⟩)) :
    Underway Γ scope (.annotated i) e source s e.content.toList
      (attributedStore i e.span (recordsChildren e) s) := by
  have hany : recordsChildren e = e.content.toList.any Child.isWrappable := by
    simp [recordsChildren, huser]
  have hnew := newRecord_keeps hs (i.place e.span)
  have hsize : s.records.size < (s.newRecord (i.place e.span)).2.records.size := by simp [newRecord]
  have hcarried : ∀ p ∈ (Origin.annotated i).mark e s.records.size e.content.toList,
      source = some (.location p.2) := by
    intro p hp
    obtain ⟨j, hj, -, -, rfl⟩ := Origin.mark_eq_some hp
    cases hj
    exact hsource
  have hmark : (Origin.annotated i).mark e s.records.size e.content.toList =
      if recordsChildren e then some (i.stack, ⟨s.records.size, i.place e.span⟩) else none := by
    rw [Origin.mark, ← hany, Bool.and_self]
  cases hrecords : recordsChildren e with
  | false =>
    refine ⟨hnew.sound, hnew.home hi, hnew.grows, fun _ => hsize, hcarried, fun id => ?_⟩
    rw [hmark, hrecords, if_neg Bool.false_ne_true]
    exact entries_eq hnew.stackEntries id
  | true =>
    refine ⟨hs.of_scopes_eq rfl (by simp [attributedStore, push, newRecord]), hi.of_scopes_eq rfl,
      ⟨hnew.grows.scopes, hnew.grows.size, hnew.grows.records⟩, fun _ => hsize, hcarried,
      fun id => ?_⟩
    rw [hmark, hrecords, if_pos rfl]
    show ((s.newRecord (i.place e.span)).2.push i.stack _).entries id = _
    by_cases hid : i.stack = id
    · rw [← hid, entries_push_self (hnew.sound.stack_lt (hnew.home hi)), StackId.own_some_self]
      rfl
    · rw [entries_push_of_ne hid, StackId.own_some_of_ne _ hid]
      rfl

end Underway

end Eval

end MarkupTrace
