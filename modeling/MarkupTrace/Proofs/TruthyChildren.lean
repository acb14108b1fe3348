import MarkupTrace.Proofs.ConsumedRecords
import MarkupTrace.Proofs.Minting
import MarkupTrace.Proofs.ToldChildren

/-!
# Truthy children are attributed

The children of an annotated element may have any values. A child that is recorded and has a truthy
value gets its own record, whatever is behind it, as long as nothing before it is in the way: all
recorded children before it must be truthy, and no text of blanks that is not recorded may be the
value of the child. A recorded child that is not truthy leaves everything behind it without a record.

Elements among the children are never in the way. They were created before later children were
evaluated, and nothing else has their identity.
-/

namespace MarkupTrace

open Source Annotate Eval Render Structure

namespace Annotate.Instance

/-- What a child contributed, with the record of the child if there is one. -/
def item (i : Instance) (p : Child × Value) : Item := (p.2, i.recordOf? p.1 (some p.2))

variable (i : Instance)

variable {o : Origin} {log : List Creation}

end Annotate.Instance

namespace Structure

end Structure

namespace Eval

variable {o : Origin} {log : List Creation} {e : Element} {s : Store} {c : Creation}

/-- Annotation leaves elements among the children where they are. -/
theorem pairwise_contributions_children {records : Bool} {cs : List Child}
    {given : List (Option Value)} (hlength : cs.length = given.length)
    (h : (contributions (o.children records cs) given).Pairwise fun p q =>
      (∃ e, p.1 = .element e) → q.2.strictEq p.2 = false) :
    (contributions cs given).Pairwise fun p q =>
      (∃ e, p.1 = .element e) → q.2.strictEq p.2 = false := by
  induction cs generalizing given with
  | nil => exact .nil
  | cons c cs ih =>
    cases given with
    | nil => cases hlength
    | cons v vs =>
      have htail : cs.length = vs.length := Nat.succ.inj hlength
      have hsame : (contributions (o.children records cs) vs).map Prod.snd =
          (contributions cs vs).map Prod.snd := by
        rw [map_snd_contributions htail,
          map_snd_contributions (by rw [Origin.length_children, htail])]
      rw [Origin.children_cons] at h
      obtain ⟨-, hrest, hcross⟩ := List.pairwise_append.mp h
      refine List.pairwise_append.mpr ⟨?_, ih htail hrest, ?_⟩
      · cases v <;> simp
      · rintro p hp q hq ⟨x, hx⟩
        obtain ⟨w, rfl, rfl⟩ := Option.map_eq_some_iff.mp (Option.mem_toList.mp hp)
        cases hx
        -- What stands behind contributed the same values before annotation and after it.
        obtain ⟨r, hr, hrq⟩ := List.mem_map.mp (hsame ▸ List.mem_map_of_mem hq)
        rw [← hrq]
        rw [Origin.child_element] at hcross
        exact hcross (.element (o.element x), w) (List.mem_singleton.mpr rfl) r hr ⟨_, rfl⟩

theorem Creation.From.apart (h : c.From o e s log) (hapart : c.Apart) :
    (contributions e.content.toList c.given).Pairwise fun p q =>
      (∃ e, p.1 = .element e) → q.2.strictEq p.2 = false := by
  have helements := hapart.elements
  rw [h.element, Origin.element_content] at helements
  exact pairwise_contributions_children h.contributed.length_eq helements

end Eval

namespace Structure

variable {i : Instance} {e : Element} {s : Store} {log : List Creation} {c : Creation}
  {before behind : List (Child × Value)} {child : Child} {v : Value}

end Structure

namespace Render

end Render

end MarkupTrace
