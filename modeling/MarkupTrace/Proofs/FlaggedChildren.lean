import MarkupTrace.Proofs.AnnotatedNodes
import MarkupTrace.Proofs.NameUses

/-!
# Flagged children

An annotated element pushes its location if its author wrote no `__source` and one of its children can
be recorded. Exactly one of its children is flagged then, the one in the place of the last that can be
recorded. Elsewhere no child is.
-/

namespace MarkupTrace.Source

open Annotate

/-- The element pushes its location onto the stack. -/
def Element.Pushes (names : Names) (e : Element) : Prop :=
  ∃ l, .value sourceAttribute (.call (.name names.recordParent) [.location l]) ∈ e.attributes

/-- The child is recorded, as the last one. -/
def Child.FlaggedLast (names : Names) (c : Child) : Prop :=
  ∃ l value isExpression span, c = .container (.call (.name names.recordExpression)
    [.location l, value, .bool isExpression, .bool true]) span

/-- Of the second children, the one in the place of the last that can be recorded is flagged, and no
other. -/
def FlagsLast (names : Names) (cs cs' : List Child) : Prop :=
  ∃ before c after before' c' after', cs = before ++ c :: after ∧ cs' = before' ++ c' :: after' ∧
    before'.length = before.length ∧ after'.length = after.length ∧ c.isWrappable = true ∧
    (∀ x ∈ after, x.isWrappable = false) ∧ c'.FlaggedLast names ∧
    ∀ x ∈ before' ++ after', ¬ x.FlaggedLast names

/-- The second element pushes its location if the first one has children to record and no `__source`,
and then one of its children is flagged. -/
structure Element.FlagsExactly (names : Names) (e e' : Element) : Prop where
  pushes : e'.Pushes names ↔
    e.hasAttribute sourceAttribute = false ∧ ∃ c ∈ e.content.toList, c.isWrappable = true
  last : e'.Pushes names → FlagsLast names e.content.toList e'.content.toList
  unflagged : ¬ e'.Pushes names → ∀ c ∈ e'.content.toList, ¬ c.FlaggedLast names

end MarkupTrace.Source

namespace MarkupTrace.Annotate

open Source

/-! ## Helper calls -/

/-- A helper call holds a location. -/
theorem generated_of_isHelperCall {callee : Expr} {arguments : List Expr}
    (h : isHelperCall callee arguments = true) :
    ∃ x ∈ (Expr.call callee arguments).nodes, x.isGenerated = true := by
  unfold isHelperCall at h
  split at h
  · rename_i n l rest
    refine ⟨.expr (.location l), ?_, rfl⟩
    simp [Expr.nodes, nodesOfItems]
  · cases h

/-- No expression of an author's becomes a helper call. -/
theorem expr_ne_helperCall {s : Site} {e : Expr} (h : ∀ x ∈ e.nodes, x.isGenerated = false)
    (f : String) (l : LocationLiteral) (rest : List Expr) :
    expr s e ≠ .call (.name f) (.location l :: rest) := by
  intro heq
  cases e with
  | call callee arguments =>
    rw [expr] at heq
    injection heq with hcallee harguments
    have hcall := isHelperCall_annotated s callee arguments
    rw [hcallee, harguments] at hcall
    obtain ⟨x, hx, hgenerated⟩ := generated_of_isHelperCall hcall.symm
    rw [h x hx] at hgenerated
    cases hgenerated
  | _ =>
    rw [expr] at heq
    cases heq

/-! ## Children -/

theorem flaggedLast_record {s : Site} {span span' : Text.Span} {value : Expr}
    {isExpression isLast : Bool} :
    (Child.container (s.record span value isExpression isLast) span').FlaggedLast s.names ↔
      isLast = true := by
  simp [Child.FlaggedLast, Site.record]

/-- A child of an author's is flagged if it can be recorded, is recorded, and is the last one. -/
theorem flaggedLast_child {s : Site} {c : Child} (h : ∀ x ∈ c.nodes, x.isGenerated = false)
    (records isLast : Bool) : (child s records isLast c).FlaggedLast s.names ↔
      records = true ∧ isLast = true ∧ c.isWrappable = true := by
  cases c with
  | text t =>
    rw [child, Child.isWrappable]
    split_ifs with hrecords
    · rw [Bool.and_eq_true] at hrecords
      rw [flaggedLast_record, hrecords.1, hrecords.2]
      simp
    · rw [Bool.and_eq_true] at hrecords
      refine iff_of_false (by simp [Child.FlaggedLast]) ?_
      rintro ⟨hrecord, -, hshown⟩
      exact hrecords ⟨hrecord, hshown⟩
  | container value span =>
    have hvalue : ∀ x ∈ value.nodes, x.isGenerated = false := by
      rw [Child.nodes] at h
      exact fun x hx => h x (List.mem_cons_of_mem _ hx)
    rw [child, Child.isWrappable]
    split_ifs with hrecords
    · rw [flaggedLast_record, hrecords]
      simp
    · refine iff_of_false ?_ fun hall => hrecords hall.1
      rintro ⟨l, value', isExpression, span', heq⟩
      injection heq with heq
      exact expr_ne_helperCall hvalue _ _ _ heq
  | emptyContainer span =>
    rw [child]
    simp [Child.FlaggedLast, Child.isWrappable]
  | element e =>
    rw [child]
    simp [Child.FlaggedLast, Child.isWrappable]

theorem length_children (s : Site) (records : Bool) (cs : List Child) :
    (children s records cs).length = cs.length := by
  induction cs with
  | nil => rw [children]
  | cons c cs ih => rw [children, List.length_cons, ih, List.length_cons]

theorem unflagged_children {s : Site} {records : Bool} {cs : List Child}
    (hauthored : ∀ c ∈ cs, ∀ x ∈ c.nodes, x.isGenerated = false)
    (h : ∀ c ∈ cs, records = true → c.isWrappable = false) :
    ∀ c ∈ children s records cs, ¬ c.FlaggedLast s.names := by
  induction cs with
  | nil =>
    rw [children]
    nofun
  | cons c cs ih =>
    rw [List.forall_mem_cons] at hauthored h
    rw [children, List.forall_mem_cons, flaggedLast_child hauthored.1]
    refine ⟨?_, ih hauthored.2 h.2⟩
    rintro ⟨hrecords, -, hwrappable⟩
    rw [h.1 hrecords] at hwrappable
    cases hwrappable

/-- By induction on the children: the last one that can be recorded is the first one, or else it is
among the rest. -/
theorem flagsLast_children {s : Site} {cs : List Child}
    (hauthored : ∀ c ∈ cs, ∀ x ∈ c.nodes, x.isGenerated = false)
    (hany : cs.any Child.isWrappable = true) : FlagsLast s.names cs (children s true cs) := by
  induction cs with
  | nil => cases hany
  | cons c cs ih =>
    rw [List.forall_mem_cons] at hauthored
    rw [children]
    cases hrest : cs.any Child.isWrappable with
    | true =>
      obtain ⟨before, d, after, before', d', after', hcs, hcs', hbefore, hafter, hd, hunwrappable,
        hflagged, hothers⟩ := ih hauthored.2 hrest
      refine ⟨c :: before, d, after, child s true false c :: before', d', after', ?_, ?_, ?_, hafter,
        hd, hunwrappable, hflagged, ?_⟩
      · rw [hcs, List.cons_append]
      · rw [hcs', Bool.not_true, List.cons_append]
      · rw [List.length_cons, hbefore, List.length_cons]
      · rw [List.cons_append, List.forall_mem_cons, flaggedLast_child hauthored.1]
        exact ⟨nofun, hothers⟩
    | false =>
      rw [List.any_cons, hrest, Bool.or_false] at hany
      have hunwrappable : ∀ x ∈ cs, x.isWrappable = false := by
        simpa only [List.any_eq_false, Bool.not_eq_true] using hrest
      refine ⟨[], c, cs, [], child s true true c, children s true cs, rfl, ?_, rfl,
        length_children s true cs, hany, hunwrappable, ?_, ?_⟩
      · rw [Bool.not_false, List.nil_append]
      · exact (flaggedLast_child hauthored.1 true true).mpr ⟨rfl, rfl, hany⟩
      · exact unflagged_children hauthored.2 fun x hx _ => hunwrappable x hx

/-! ## Elements -/

theorem recordsChildren_iff {e : Element} : recordsChildren e = true ↔
    e.hasAttribute sourceAttribute = false ∧ ∃ c ∈ e.content.toList, c.isWrappable = true := by
  rw [recordsChildren, Bool.and_eq_true, Bool.not_eq_true', List.any_eq_true]

theorem toList_content_element (s : Site) (e : Element) :
    (element s e).content.toList = children s (recordsChildren e) e.content.toList := by
  obtain ⟨name, as, c, span⟩ := e
  rw [element]
  cases c with
  | selfClosing =>
    rw [Element.content, content, Element.content, Content.toList, children]
  | children cs =>
    rw [Element.content, content, Element.content, Content.toList, Content.toList]

theorem attributes_element (s : Site) (e : Element) :
    (element s e).attributes = attrs s e.attributes ++ addedAttributes s e := by
  obtain ⟨name, as, c, span⟩ := e
  rw [element]
  rfl

/-- No attribute of an author's becomes one that pushes. -/
theorem pushing_not_mem_attrs {s : Site} {as : List Attribute}
    (h : ∀ a ∈ as, ∀ x ∈ a.nodes, x.isGenerated = false) (name f : String) (l : LocationLiteral) :
    .value name (.call (.name f) [.location l]) ∉ attrs s as := by
  induction as with
  | nil =>
    rw [attrs]
    nofun
  | cons a as ih =>
    rw [List.forall_mem_cons] at h
    rw [attrs, List.mem_cons, not_or]
    refine ⟨?_, ih h.2⟩
    intro heq
    cases a with
    | value name value =>
      rw [attr] at heq
      injection heq with hname hvalue
      refine expr_ne_helperCall (fun x hx => h.1 x ?_) _ _ _ hvalue.symm
      rw [Attribute.nodes]
      exact List.mem_cons_of_mem _ hx
    | _ =>
      rw [attr] at heq
      cases heq

theorem pushes_element {s : Site} {e : Element} (h : ∀ x ∈ e.nodes, x.isGenerated = false) :
    (element s e).Pushes s.names ↔ recordsChildren e = true := by
  have hattributes : ∀ a ∈ e.attributes, ∀ x ∈ a.nodes, x.isGenerated = false :=
    fun a ha x hx => h x (Element.nodes_subset_of_attribute ha hx)
  unfold Element.Pushes
  simp only [attributes_element, List.mem_append, pushing_not_mem_attrs hattributes, false_or,
    addedAttributes, Site.source]
  constructor
  · rintro ⟨l, hl | hl⟩
    · split_ifs at hl
      · cases hl
      · injection List.mem_singleton.mp hl with _ hvalue
        cases hvalue
    · split_ifs at hl with hsource hrecords
      · cases hl
      · exact hrecords
      · injection List.mem_singleton.mp hl with _ hvalue
        cases hvalue
  · intro hrecords
    refine ⟨s.location e.span, .inr ?_⟩
    rw [source_of_recordsChildren hrecords, hrecords]
    exact List.mem_cons_self

/-- Of the elements of an author's, those that push flag the last child that can be recorded. -/
theorem flagsExactly_element {s : Site} {e : Element} (h : ∀ x ∈ e.nodes, x.isGenerated = false) :
    e.FlagsExactly s.names (element s e) := by
  have hchildren : ∀ c ∈ e.content.toList, ∀ x ∈ c.nodes, x.isGenerated = false :=
    fun c hc x hx => h x (Element.nodes_subset_of_child hc hx)
  refine ⟨(pushes_element h).trans recordsChildren_iff, ?_, ?_⟩
  · intro hpushes
    have hrecords := (pushes_element h).mp hpushes
    rw [toList_content_element, hrecords]
    exact flagsLast_children hchildren (List.any_eq_true.mpr (recordsChildren_iff.mp hrecords).2)
  · intro hpushes
    have hrecords : recordsChildren e ≠ true := fun h' => hpushes ((pushes_element h).mpr h')
    rw [toList_content_element]
    exact unflagged_children hchildren fun c _ h' => absurd h' hrecords

end MarkupTrace.Annotate
