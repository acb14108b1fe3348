import MarkupTrace.Annotate.Names
import Mathlib.Data.Fintype.Card
import Mathlib.Tactic.SplitIfs

/-!
# Generated names are fresh

The names that annotation declares are none of the module's, and no two of them are alike. Each is
its base, or else the base with the first number that makes it free. Numbered names differ, so of one
more than there are taken names one is free, and the search for that number ends.
-/

namespace MarkupTrace.Annotate

open Source

theorem numbered_injective (base : String) : Function.Injective (numbered base) := by
  intro a b h
  have hrepr : Nat.repr a = Nat.repr b := (String.append_right_inj (base ++ "_")).mp h
  have hdigits : Nat.toDigits 10 a = Nat.toDigits 10 b := by
    rw [← Nat.toList_repr, hrepr, Nat.toList_repr]
  simpa using congrArg (Nat.ofDigitChars 10 · 0) hdigits

/-- More candidates than taken names: one of them is not taken. -/
theorem exists_free {candidates taken : List String} (hnodup : candidates.Nodup)
    (hlength : taken.length < candidates.length) : ∃ c ∈ candidates, c ∉ taken := by
  by_contra h
  push Not at h
  have := (List.subperm_of_subset hnodup h).length_le
  omega

/-- What is picked for a base: the base itself if it is free, and else the base with the least number
from one on that is free. That number is found with one more try than there are taken names. -/
inductive Picked (base : String) (taken : List String) : String → Prop
  | base (h : base ∉ taken) : Picked base taken base
  | numbered {n : Nat} (h : base ∈ taken) (hfirst : 1 ≤ n) (hends : n ≤ taken.length + 1)
    (hfree : numbered base n ∉ taken) (hleast : ∀ k, 1 ≤ k → k < n → numbered base k ∈ taken) :
    Picked base taken (numbered base n)

/-- One of the first numbers is free. -/
theorem exists_free_number (base : String) (taken : List String) :
    ∃ n ≤ taken.length, numbered base (n + 1) ∉ taken := by
  have hnodup : ((List.range (taken.length + 1)).map fun n => numbered base (n + 1)).Nodup := by
    refine List.nodup_range.map ?_
    intro a b h
    exact Nat.succ_injective (numbered_injective base h)
  obtain ⟨c, hc, hfree⟩ : ∃ c ∈ _, c ∉ taken := exists_free hnodup (by simp)
  obtain ⟨n, hn, rfl⟩ := List.mem_map.mp hc
  exact ⟨n, Nat.lt_succ_iff.mp (List.mem_range.mp hn), hfree⟩

theorem picked_uniqueName (base : String) (taken : List String) :
    Picked base taken (uniqueName base taken) := by
  unfold uniqueName
  split_ifs with hbase
  · obtain ⟨m, hm, hfree⟩ := exists_free_number base taken
    rw [List.find?_map]
    cases hfind : (List.range (taken.length + 1)).find?
        ((fun candidate => !taken.contains candidate) ∘ fun n => numbered base (n + 1)) with
    | none =>
      have := List.find?_eq_none.mp hfind m (List.mem_range.mpr (Nat.lt_succ_iff.mpr hm))
      simp [hfree] at this
    | some n =>
      obtain ⟨hn, hrange, hbefore⟩ := List.find?_range_eq_some.mp hfind
      refine .numbered (by simpa using hbase) (Nat.le_add_left 1 n) ?_ (by simpa using hn) ?_
      · exact Nat.succ_le_of_lt (List.mem_range.mp hrange)
      · intro k hk hlt
        obtain ⟨k, rfl⟩ := Nat.exists_eq_add_of_le' hk
        simpa using hbefore k (Nat.lt_of_succ_lt_succ hlt)
  · exact .base (by simpa using hbase)

theorem Picked.not_mem {base n : String} {taken : List String} (h : Picked base taken n) :
    n ∉ taken := by
  cases h with
  | base h => exact h
  | numbered _ _ _ hfree _ => exact hfree

theorem uniqueName_not_mem (base : String) (taken : List String) :
    uniqueName base taken ∉ taken := (picked_uniqueName base taken).not_mem

namespace Names

theorem avoiding_not_mem (taken : List String) (o : Options) :
    ∀ n ∈ (avoiding taken o).toList, n ∉ taken := by
  intro n hn hmem
  simp only [toList, avoiding, List.mem_cons, List.not_mem_nil, or_false] at hn
  rcases hn with rfl | rfl | rfl | rfl
  · exact uniqueName_not_mem _ _ hmem
  · exact uniqueName_not_mem _ _ (List.mem_cons_of_mem _ hmem)
  · exact uniqueName_not_mem _ _ (List.mem_cons_of_mem _ (List.mem_cons_of_mem _ hmem))
  · exact uniqueName_not_mem _ _
      (List.mem_cons_of_mem _ (List.mem_cons_of_mem _ (List.mem_cons_of_mem _ hmem)))

theorem avoiding_nodup (taken : List String) (o : Options) : (avoiding taken o).toList.Nodup := by
  have hstack := uniqueName_not_mem o.stack (uniqueName o.fileName taken :: taken)
  have hparent := uniqueName_not_mem o.recordParent
    (uniqueName o.stack (uniqueName o.fileName taken :: taken) :: uniqueName o.fileName taken ::
      taken)
  have hexpression := uniqueName_not_mem o.recordExpression
    (uniqueName o.recordParent
      (uniqueName o.stack (uniqueName o.fileName taken :: taken) :: uniqueName o.fileName taken ::
        taken) ::
      uniqueName o.stack (uniqueName o.fileName taken :: taken) :: uniqueName o.fileName taken ::
        taken)
  simp only [List.mem_cons, not_or] at hstack hparent hexpression
  simp only [toList, avoiding, List.nodup_cons, List.mem_cons, List.not_mem_nil, or_false, not_or]
  refine ⟨⟨?_, ?_, ?_⟩, ⟨?_, ?_⟩, ?_, not_false, List.nodup_nil⟩
  · exact Ne.symm hstack.1
  · exact Ne.symm hparent.2.1
  · exact Ne.symm hexpression.2.2.1
  · exact Ne.symm hparent.1
  · exact Ne.symm hexpression.2.1
  · exact Ne.symm hexpression.1

/-- No name of the module is a generated one. -/
theorem ofModule_not_mem (m : Module) (o : Options) {n : String} (h : n ∈ m.names) :
    n ∉ (ofModule m o).toList := fun hn => avoiding_not_mem m.names o n hn h

end Names

end MarkupTrace.Annotate
