import MarkupTrace.Proofs.AnnotatedNodes

/-!
# The location literals of an annotated module

Annotation puts in a location for each element without a `__source` of the author's, and one for each
child that it records, and no others.
-/

namespace MarkupTrace.Annotate

open Source

/-- The location that a child is recorded with. -/
def Site.recorded? (s : Site) : Child → Option LocationLiteral
  | .text t => if t.isSignificant then some (s.location t.trimmedSpan) else none
  | .container _ span => some (s.location span)
  | .emptyContainer _ | .element _ => none

/-- The locations put in for an element and its children. -/
def Site.emitted (s : Site) (e : Element) : List LocationLiteral :=
  (if e.hasAttribute sourceAttribute then [] else [s.location e.span]) ++
    if recordsChildren e then e.content.toList.filterMap s.recorded? else []

section

variable {s : Site} {l : LocationLiteral}

theorem location_mem_recordNodes {span : Text.Span} {value : Expr} {isExpression isLast : Bool} :
    .expr (.location l) ∈ s.recordNodes span value isExpression isLast ↔
      l = s.location span := by
  simp [Site.recordNodes, Site.record]

theorem location_mem_recordingNodes {isLast : Bool} {c : Child} :
    .expr (.location l) ∈ s.recordingNodes isLast c ↔ s.recorded? c = some l := by
  cases c with
  | text t =>
    rw [Site.recordingNodes, Site.recorded?]
    split_ifs
    · simp [location_mem_recordNodes, eq_comm]
    · simp
  | container value span =>
    rw [Site.recordingNodes, Site.recorded?, location_mem_recordNodes, Option.some_inj, eq_comm]
  | emptyContainer span => simp [Site.recordingNodes, Site.recorded?]
  | element e => simp [Site.recordingNodes, Site.recorded?]

theorem location_mem_childrenNodes {records : Bool} {cs : List Child} :
    .expr (.location l) ∈ s.childrenNodes records cs ↔
      l ∈ if records then cs.filterMap s.recorded? else [] := by
  induction cs with
  | nil => cases records <;> simp [Site.childrenNodes]
  | cons c cs ih =>
    rw [Site.childrenNodes, List.mem_append, ih, Site.childNodes]
    cases records with
    | false => simp
    | true =>
      rw [if_pos rfl, if_pos rfl, if_pos rfl, List.filterMap_cons, List.mem_cons,
        location_mem_recordingNodes]
      cases s.recorded? c <;> simp [eq_comm]

theorem location_mem_addedAttributes {e : Element} :
    .expr (.location l) ∈ nodesOfAttributes (addedAttributes s e) ↔
      l ∈ if e.hasAttribute sourceAttribute then [] else [s.location e.span] := by
  have hself : .expr (.location l) ∉ nodesOfAttributes
      (if e.hasAttribute selfAttribute then [] else [.value selfAttribute .this]) := by
    split_ifs <;> simp [nodesOfAttributes, Attribute.nodes, Expr.nodes]
  rw [addedAttributes, nodesOfAttributes_append, List.mem_append, or_iff_right hself]
  split_ifs
  · simp [nodesOfAttributes]
  · cases recordsChildren e <;>
      simp [Site.source, nodesOfAttributes, Attribute.nodes, Expr.nodes, nodesOfItems]

theorem location_mem_broughtNodes {e : Element} :
    .expr (.location l) ∈ s.broughtNodes e ↔ l ∈ s.emitted e := by
  rw [Site.broughtNodes, Site.emitted, List.mem_append, List.mem_append,
    location_mem_addedAttributes, Site.contentNodes, List.mem_cons, location_mem_childrenNodes]
  simp

/-- A location stays, and an element leads to those that are put in for it. -/
theorem location_mem_outcome {x : Node} : .expr (.location l) ∈ s.outcome x ↔
    x = .expr (.location l) ∨ ∃ e, x = .element e ∧ l ∈ s.emitted e := by
  rcases x with e | b | p | e | a | c | c | st
  · cases e <;> simp [Site.outcome, expr, eq_comm]
  all_goals simp [Site.outcome, location_mem_broughtNodes]

end

/-- Of a module that was read, the annotated one has the locations of its elements and their recorded
children. -/
theorem location_mem_annotate_iff {source : String} {m : Module} (h : Module.parse source = .ok m)
    (fileName : String) (o : Options) (l : LocationLiteral) :
    .location l ∈ (annotate m source fileName o).module.parts ↔ ∃ e, .element e ∈ m.parts ∧
      l ∈ Site.emitted ⟨Text.LineIndex.ofText source, o.normalizeLineEndings, Names.ofModule m o⟩ e := by
  have hread := Module.allRead_of_parse h
  rw [Module.mem_parts]
  refine (mem_nodes_annotate m source fileName o _).trans ?_
  constructor
  · rintro (hl | ⟨x, hx, hl⟩)
    · cases inserted_of_mem hl
    · rcases location_mem_outcome.mp hl with rfl | ⟨e, rfl, hemitted⟩
      · exact (hread (.location l) (Module.mem_parts.mpr hx)).elim
      · exact ⟨e, Module.mem_parts.mpr hx, hemitted⟩
  · rintro ⟨e, he, hl⟩
    exact .inr ⟨.element e, Module.mem_parts.mp he, location_mem_outcome.mpr (.inr ⟨e, rfl, hl⟩)⟩

end MarkupTrace.Annotate
