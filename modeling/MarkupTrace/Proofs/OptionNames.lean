import MarkupTrace.Proofs.FreshNames
import MarkupTrace.Proofs.TreeNodes

/-!
# Names from options

A generated name is the one that an option sets, or that one with a number. So if the options
validate, it can be bound, and it is one of the few names with a meaning elsewhere only if an option
says so.
-/

namespace MarkupTrace.Annotate

open Source

theorem uniqueName_eq (base : String) (taken : List String) :
    uniqueName base taken = base ∨ ∃ n, uniqueName base taken = numbered base n := by
  unfold uniqueName
  split_ifs
  · cases hfind : List.find? (fun c => !taken.contains c)
        ((List.range (taken.length + 1)).map fun n => numbered base (n + 1)) with
    | none => exact .inl rfl
    | some c =>
      obtain ⟨n, -, rfl⟩ := List.mem_map.mp (List.mem_of_find?_eq_some hfind)
      exact .inr ⟨n + 1, rfl⟩
  · exact .inl rfl

theorem toList_numbered (base : String) (n : Nat) :
    (numbered base n).toList = base.toList ++ '_' :: Nat.toDigits 10 n := by
  have hdigits : (toString n).toList = Nat.toDigits 10 n := Nat.toList_repr
  rw [numbered, String.toList_append, String.toList_append, hdigits, List.append_assoc]
  rfl

/-- A name without an underscore is not numbered. -/
theorem eq_of_uniqueName {base name : String} {taken : List String}
    (h : uniqueName base taken = name) (hname : '_' ∉ name.toList) : base = name := by
  rcases uniqueName_eq base taken with heq | ⟨n, heq⟩
  · exact heq.symm.trans h
  · rw [← h, heq, toList_numbered] at hname
    exact absurd (List.mem_append_right _ List.mem_cons_self) hname

theorem isReserved_numbered (base : String) (n : Nat) : isReserved (numbered base n) = false := by
  have hwords : ∀ w ∈ reservedWords, '_' ∉ w.toList := by decide
  rw [isReserved, List.contains_eq_mem, decide_eq_false_iff_not]
  intro hmem
  refine hwords _ hmem ?_
  rw [toList_numbered]
  exact List.mem_append_right _ List.mem_cons_self

theorem isName_numbered {base : String} (h : IsName base) (n : Nat) : IsName (numbered base n) := by
  obtain ⟨⟨c, cs, hlist, hc, hcs⟩, -⟩ := h
  refine ⟨⟨c, cs ++ '_' :: Nat.toDigits 10 n, ?_, hc, ?_⟩, isReserved_numbered base n⟩
  · rw [toList_numbered, hlist, List.cons_append]
  · intro x hx
    rcases List.mem_append.mp hx with hx | hx
    · exact hcs x hx
    · rcases List.mem_cons.mp hx with rfl | hx
      · rfl
      · rw [isIdentifierPart, Nat.isDigit_of_mem_toDigits (by decide : 0 < 10) (by decide) hx, Bool.or_true]

theorem isName_uniqueName {base : String} (h : IsName base) (taken : List String) :
    IsName (uniqueName base taken) := by
  rcases uniqueName_eq base taken with heq | ⟨n, heq⟩
  · rwa [heq]
  · rw [heq]
    exact isName_numbered h n

theorem isName_of_isBindable {s : String} (h : isBindable s = true) : IsName s := by
  rw [isBindable, Bool.and_eq_true, Bool.not_eq_true'] at h
  refine ⟨?_, h.2⟩
  have hid := h.1
  unfold isIdentifier at hid
  split at hid
  · cases hid
  · rename_i c cs hlist
    rw [Bool.and_eq_true, List.all_eq_true] at hid
    exact ⟨c, cs, hlist, hid⟩

/-- Options that validate give names that can be bound. -/
theorem isName_of_validate {o : Options} (h : o.validate = .ok ()) : ∀ e ∈ o.names, IsName e.2 := by
  intro e he
  refine isName_of_isBindable ?_
  unfold Options.validate Options.problem? at h
  cases hfind : o.names.find? fun e => !isBindable e.2 with
  | some e' =>
    rw [hfind] at h
    cases h
  | none => simpa using List.find?_eq_none.mp hfind e he

/-- Each generated name comes from an option. -/
theorem Names.exists_option {taken : List String} {o : Options} {n : String}
    (h : n ∈ (Names.avoiding taken o).toList) :
    ∃ e ∈ o.names, ∃ others, uniqueName e.2 others = n := by
  simp only [Names.toList, Names.avoiding, List.mem_cons, List.not_mem_nil, or_false] at h
  simp only [Options.names, List.exists_mem_cons_iff]
  rcases h with rfl | rfl | rfl | rfl
  · exact .inl ⟨_, rfl⟩
  · exact .inr (.inl ⟨_, rfl⟩)
  · exact .inr (.inr (.inl ⟨_, rfl⟩))
  · exact .inr (.inr (.inr (.inl ⟨_, rfl⟩)))

/-- A name without an underscore is not generated unless an option says so. -/
theorem Names.not_mem_of_options {o : Options} {n : String} (h : ∀ e ∈ o.names, e.2 ≠ n)
    (hn : '_' ∉ n.toList) (taken : List String) : n ∉ (Names.avoiding taken o).toList := by
  intro hmem
  obtain ⟨e, he, others, heq⟩ := Names.exists_option hmem
  exact h e he (eq_of_uniqueName heq hn)

end MarkupTrace.Annotate
