import MarkupTrace.Proofs.Identities
import MarkupTrace.Proofs.RenderedAttribution

/-!
# Running code mints identities

Evaluating, loading and rendering hand out identities and give none away: what comes out has the
identities that went in and new ones. In a store where all identities were handed out, every element
is therefore created with its children apart, and this stays so for all that may happen to a module
from its loading on.
-/

namespace MarkupTrace

open Source Annotate Eval Render

namespace Eval

/-! ## Along derivations -/

/-- Values lack what is unused, and what comes of markup is a new element, which is nowhere in the
store. -/
structure Distinguishes (J : Judgement) : Prop where
  mints : ∀ {scope e s v s' l}, J scope e s v s' l →
    Mints (fun _ => True) s s' l ∧ ∀ m, Unused m s s' → v.Lacks m
  markup : ∀ {scope e s v s' l}, J scope (.markup e) s v s' l → s.Issued →
    ∃ c, v = .element c ∧ c.identity < s'.next ∧ s'.Lacks c.identity

section

variable {J : Judgement} (hJ : Distinguishes J) {scope : ScopeId} {s s' : Store} {v : Value}
  {l : List Creation}
include hJ

theorem Items.mints {es : List Expr} {vs : List Value} (h : Items J scope es s vs s' l) :
    Mints (fun _ => True) s s' l ∧ ∀ m, Unused m s s' → ∀ w ∈ vs, w.Lacks m := by
  induction h with
  | nil => exact ⟨.refl _, fun _ _ => nofun⟩
  | cons head tail ih =>
    obtain ⟨hmints, hv⟩ := hJ.mints head
    refine ⟨hmints.andThen ih.1, fun m hm => List.forall_mem_cons.mpr ⟨?_, ?_⟩⟩
    · exact hv m (hm.front ih.1.next_le)
    · exact ih.2 m (hm.back trivial hmints ih.1.next_le)

theorem Named.mints {name : String} {e : Expr} (h : Named J name scope e s v s' l) :
    Mints (fun _ => True) s s' l ∧ ∀ m, Unused m s s' → v.Lacks m := by
  cases h with
  | arrow made => exact closure_mints made
  | other unnamed evaluated => exact hJ.mints evaluated

theorem Block.mints {ss : List Statement} (h : Block J scope ss s v s' l) :
    Mints (fun _ => True) s s' l ∧ ∀ m, Unused m s s' → v.Lacks m := by
  induction h with
  | nil => exact ⟨.refl _, fun _ _ => .undefined⟩
  | @const _ name _ _ _ _ _ _ _ _ _ bound further ih =>
    obtain ⟨hmints, hv⟩ := bound.mints hJ
    have hbound := hmints.declare (fun m _ => hv m) scope name
    exact ⟨hbound.andThen ih.1, fun m hm => ih.2 m (hm.back trivial hbound ih.1.next_le)⟩
  | expr evaluated further ih =>
    obtain ⟨hmints, -⟩ := hJ.mints evaluated
    exact ⟨hmints.andThen ih.1, fun m hm => ih.2 m (hm.back trivial hmints ih.1.next_le)⟩
  | returns evaluated => exact hJ.mints evaluated
  | returnsNothing => exact ⟨.refl _, fun _ _ => .undefined⟩

theorem Returned.mints {b : Body} (h : Returned J scope b s v s' l) :
    Mints (fun _ => True) s s' l ∧ ∀ m, Unused m s s' → v.Lacks m := by
  cases h with
  | result evaluated => exact hJ.mints evaluated
  | block ran => exact ran.mints hJ

theorem Called.mints {callee : Value} {arguments : List Value}
    (h : Called J callee arguments s v s' l) :
    Mints (fun m => ∀ w ∈ arguments, w.Lacks m) s s' l ∧
      ∀ m, (∀ w ∈ arguments, w.Lacks m) → Unused m s s' → v.Lacks m := by
  cases h with
  | builtin done =>
    obtain ⟨hmints, hv⟩ := callBuiltin_mints done
    exact ⟨hmints, fun m hm _ => hv m hm⟩
  | function bound ran =>
    obtain ⟨hmints, hv⟩ := ran.mints hJ
    have hopened := (Mints.newScope _ _ s).trans (bindParams_mints bound) fun _ hm _ => hm
    refine ⟨hopened.andThen hmints, fun m harguments hm => hv m ?_⟩
    exact hm.back harguments hopened hmints.next_le

theorem FieldsOf.mints {fields fields' : Fields} {ps : List Property}
    (h : FieldsOf J scope fields ps s fields' s' l) :
    Mints (fun _ => True) s s' l ∧
      ∀ m, Unused m s s' → (∀ e ∈ fields, e.2.Lacks m) → ∀ e ∈ fields', e.2.Lacks m := by
  induction h with
  | nil => exact ⟨.refl _, fun _ _ hfields => hfields⟩
  | entry evaluated further ih =>
    obtain ⟨hmints, hv⟩ := hJ.mints evaluated
    refine ⟨hmints.andThen ih.1, fun m hm hfields => ?_⟩
    refine ih.2 m (hm.back trivial hmints ih.1.next_le) ?_
    exact Keyed.forall_mem_insert hfields (hv m (hm.front ih.1.next_le)) _
  | shorthand found further ih =>
    refine ⟨ih.1, fun m hm hfields => ih.2 m hm ?_⟩
    exact Keyed.forall_mem_insert hfields (nameValue_lacks hm.absent found) _
  | spread evaluated taken further ih =>
    obtain ⟨hmints, hv⟩ := hJ.mints evaluated
    refine ⟨hmints.andThen ih.1, fun m hm hfields => ?_⟩
    refine ih.2 m (hm.back trivial hmints ih.1.next_le) ?_
    exact (hv m (hm.front ih.1.next_le)).spread hfields taken

/-- Nothing that attributes gave has this identity. -/
structure Given.Lacks (m : Nat) (g : Given) : Prop where
  props : ∀ e ∈ g.props, e.2.Lacks m
  owner : ∀ v, g.owner = some v → v.Lacks m
  source : ∀ v, g.source = some v → v.Lacks m

omit hJ in
theorem Given.Lacks.take {m : Nat} {g : Given} (hg : g.Lacks m) (hv : v.Lacks m) (name : String) :
    (g.take name v).Lacks m := by
  unfold Given.take
  split_ifs
  · exact ⟨hg.props, fun w hw => by cases hw; exact hv, hg.source⟩
  · exact ⟨hg.props, hg.owner, fun w hw => by cases hw; exact hv⟩
  · exact ⟨Keyed.forall_mem_insert hg.props hv name, hg.owner, hg.source⟩

theorem Attributes.mints {g g' : Given} {as : List Attribute}
    (h : Attributes J scope g as s g' s' l) :
    Mints (fun _ => True) s s' l ∧ ∀ m, Unused m s s' → g.Lacks m → g'.Lacks m := by
  induction h with
  | nil => exact ⟨.refl _, fun _ _ hg => hg⟩
  | bare further ih => exact ⟨ih.1, fun m hm hg => ih.2 m hm (hg.take (.bool true) _)⟩
  | text further ih => exact ⟨ih.1, fun m hm hg => ih.2 m hm (hg.take (.text _) _)⟩
  | value evaluated further ih =>
    obtain ⟨hmints, hv⟩ := hJ.mints evaluated
    refine ⟨hmints.andThen ih.1, fun m hm hg => ?_⟩
    refine ih.2 m (hm.back trivial hmints ih.1.next_le) ?_
    exact hg.take (hv m (hm.front ih.1.next_le)) _
  | spread evaluated taken further ih =>
    obtain ⟨hmints, hv⟩ := hJ.mints evaluated
    refine ⟨hmints.andThen ih.1, fun m hm hg => ?_⟩
    refine ih.2 m (hm.back trivial hmints ih.1.next_le) ⟨?_, hg.owner, hg.source⟩
    exact (hv m (hm.front ih.1.next_le)).spread hg.props taken

theorem Contributed.mints {c : Child} {given : Option Value}
    (h : Contributed J scope c s given s' l) :
    Mints (fun _ => True) s s' l ∧ ∀ m, Unused m s s' → ∀ w, given = some w → w.Lacks m := by
  cases h with
  | hidden empty => exact ⟨.refl _, fun _ _ => nofun⟩
  | text shown =>
    refine ⟨.refl _, fun m _ w hw => ?_⟩
    cases hw
    exact .text _
  | emptyContainer => exact ⟨.refl _, fun _ _ => nofun⟩
  | container evaluated =>
    obtain ⟨hmints, hv⟩ := hJ.mints evaluated
    refine ⟨hmints, fun m hm w hw => ?_⟩
    cases hw
    exact hv m hm
  | element evaluated =>
    obtain ⟨hmints, hv⟩ := hJ.mints evaluated
    refine ⟨hmints, fun m hm w hw => ?_⟩
    cases hw
    exact hv m hm

theorem Children.mints {cs : List Child} {given : List (Option Value)}
    (h : Children J scope cs s given s' l) :
    Mints (fun _ => True) s s' l ∧ ∀ m, Unused m s s' → ∀ w, some w ∈ given → w.Lacks m := by
  induction h with
  | nil => exact ⟨.refl _, fun _ _ _ => nofun⟩
  | cons head tail ih =>
    obtain ⟨hmints, hv⟩ := head.mints hJ
    refine ⟨hmints.andThen ih.1, fun m hm w hw => ?_⟩
    rcases List.mem_cons.mp hw with hw | hw
    · exact hv m (hm.front ih.1.next_le) w hw.symm
    · exact ih.2 m (hm.back trivial hmints ih.1.next_le) w hw

omit hJ in
theorem some_mem_of_mem_contributions {cs : List Child} {given : List (Option Value)}
    {p : Child × Value} (h : p ∈ contributions cs given) : some p.2 ∈ given := by
  induction cs generalizing given with
  | nil => cases h
  | cons c cs ih =>
    cases given with
    | nil => cases h
    | cons v vs =>
      rcases List.mem_append.mp h with h | h
      · obtain ⟨w, rfl, rfl⟩ := Option.map_eq_some_iff.mp (Option.mem_toList.mp h)
        exact List.mem_cons_self
      · exact List.mem_cons_of_mem _ (ih h)

/-- What comes of a child element is none of the values of the children behind it: it is nowhere in
the store in which they are evaluated. -/
theorem Children.apart {cs : List Child} {given : List (Option Value)}
    (h : Children J scope cs s given s' l) (hs : s.Issued) :
    (contributions cs given).Pairwise fun p q =>
      (∃ e, p.1 = .element e) → q.2.strictEq p.2 = false := by
  induction h with
  | nil => exact .nil
  | cons head tail ih =>
    refine List.pairwise_append.mpr ⟨?_, ih ((head.mints hJ).1.issued (fun _ _ => trivial) hs), ?_⟩
    · cases head <;> simp
    · rintro p hp q hq ⟨e, he⟩
      obtain ⟨w, rfl, rfl⟩ := Option.map_eq_some_iff.mp (Option.mem_toList.mp hp)
      cases he
      cases head with
      | element evaluated =>
        obtain ⟨c, rfl, hlt, hlacks⟩ := hJ.markup evaluated hs
        have hq := (tail.mints hJ).2 c.identity ⟨hlacks, .inl hlt⟩ _
          (some_mem_of_mem_contributions hq)
        exact hq.strictEq_element

omit hJ in
/-- Several children get an array with an identity of its own. -/
theorem withChildren_mints {P : Nat → Prop} {props props' : Fields} {vs : List Value}
    (h : withChildren props vs s = (.ok props', s')) :
    Mints P s s' [] ∧
      (∀ m, Unused m s s' → (∀ e ∈ props, e.2.Lacks m) → (∀ w ∈ vs, w.Lacks m) →
        ∀ e ∈ props', e.2.Lacks m) ∧
      (2 ≤ vs.length → ∃ identity, s.next ≤ identity ∧
        props'.get? "children" = some (.array identity vs)) := by
  match vs, h with
  | [], h =>
    cases h
    exact ⟨.refl _, fun _ _ hprops _ => hprops, fun hlength => by simp at hlength⟩
  | [v], h =>
    cases h
    refine ⟨.refl _, fun _ _ hprops hvs => ?_, fun hlength => by simp at hlength⟩
    exact Keyed.forall_mem_insert hprops (hvs v List.mem_cons_self) _
  | v :: w :: vs, h =>
    obtain ⟨x, s₁, hx, h⟩ := Attempt.bind_eq_ok.mp h
    cases h
    obtain ⟨hmints, hlacks⟩ := array_mints hx
    refine ⟨hmints, fun m hm hprops hvs => ?_, fun _ => ?_⟩
    · exact Keyed.forall_mem_insert hprops (hlacks m hm hvs) _
    · cases hx
      exact ⟨s.next, le_rfl, Keyed.get?_insert_self _ _ _⟩

theorem Created.mints {e : Element} {c : CreatedElement Value}
    (h : Created J scope e s c s' l) :
    Mints (fun _ => True) s s' l ∧ (∀ m, Unused m s s' → (Value.element c).Lacks m) ∧
      (s.Issued → c.identity < s'.next ∧ s'.Lacks c.identity) := by
  cases h with
  | mk found attributes children gathered made =>
    rename_i s₁ s₂ s₃ type g given props l₁ l₂
    obtain ⟨h₁, hg⟩ := attributes.mints hJ
    obtain ⟨h₂, hgiven⟩ := children.mints hJ
    obtain ⟨h₃, hprops, harray⟩ := withChildren_mints (P := fun _ => True) gathered
    have h₁₃ : Mints (fun _ => True) s s₃ (l₁ ++ l₂) := by
      simpa using (h₁.andThen h₂).andThen h₃
    have hvalues : ∀ m, Unused m s₁ s₂ → ∀ w ∈ given.filterMap id, w.Lacks m := by
      intro m hm w hw
      obtain ⟨o, ho, rfl⟩ := List.mem_filterMap.mp hw
      exact hgiven m hm w ho
    cases made
    -- Both identities of the element are new, and nothing is bound while they are handed out.
    have h₁₄ := h₁₃.andThen ((Mints.identity s₃).andThen (.identity _))
    refine ⟨⟨h₁₄.next_le, h₁₄.lacks, ?_⟩, ?_, ?_⟩
    · intro _ hs
      have hs₁ := h₁.issued (fun _ _ => trivial) hs
      refine List.forall_mem_append.mpr ⟨h₁₃.apart (fun _ _ => trivial) hs, ?_⟩
      rw [List.forall_mem_singleton]
      refine ⟨children.apart hJ hs₁, ?_⟩
      intro hlength identity items hget v hv
      obtain ⟨identity', hle, hget'⟩ := harray hlength
      cases hget'.symm.trans hget
      exact (hvalues _ (hs₁.unused h₂.next_le hle) v hv).strictEq_array
    · intro m hm
      have hlast : s₃.next ≠ m ∧ s₃.next + 1 ≠ m := by
        have hpassed : m < s.next ∨ s₃.next + 1 + 1 ≤ m := hm.passed
        have := h₁₃.next_le
        omega
      have hm₃ := hm.front (Nat.le_add_right s₃.next 2)
      have hm₂ := hm₃.front h₃.next_le
      have hg := hg m (hm₂.front h₂.next_le) ⟨nofun, nofun, nofun⟩
      refine .element hlast.2 (elementType_lacks hm.absent found) hlast.1 ?_ hg.owner hg.source
      refine hprops m (hm₃.back trivial (h₁.andThen h₂) h₃.next_le) hg.props ?_
      exact hvalues m (hm₂.back trivial h₁ h₂.next_le)
    · intro hs
      have hs₃ := h₁₃.issued (fun _ _ => trivial) hs
      exact ⟨Nat.lt_succ_self _, (hs₃ (s₃.next + 1) (Nat.le_succ _)).of_scopes_eq rfl⟩

theorem Steps.distinguishes : Distinguishes (Steps J) where
  mints h := by
    cases h with
    | text => exact ⟨.refl _, fun _ _ => .text _⟩
    | number => exact ⟨.refl _, fun _ _ => .number _⟩
    | bool => exact ⟨.refl _, fun _ _ => .bool _⟩
    | null => exact ⟨.refl _, fun _ _ => .null⟩
    | this => exact ⟨.refl _, fun _ _ => .undefined⟩
    | name found => exact ⟨.refl _, fun _ hm => nameValue_lacks hm.absent found⟩
    | member evaluated read =>
      obtain ⟨hmints, hv⟩ := hJ.mints evaluated
      exact ⟨hmints, fun m hm => (hv m hm).get? read⟩
    | call evaluated passed called =>
      obtain ⟨h₁, -⟩ := hJ.mints evaluated
      obtain ⟨h₂, hvs⟩ := passed.mints hJ
      obtain ⟨h₃, hv⟩ := called.mints hJ
      refine ⟨(h₁.andThen h₂).trans h₃ fun m _ hm => ?_, fun m hm => hv m ?_ ?_⟩
      · exact hvs m (hm.back trivial h₁ h₂.next_le)
      · exact hvs m ((hm.front h₃.next_le).back trivial h₁ h₂.next_le)
      · exact hm.back trivial (h₁.andThen h₂) h₃.next_le
    | arrow made => exact closure_mints made
    | object evaluated made =>
      obtain ⟨h₁, hfields⟩ := evaluated.mints hJ
      obtain ⟨h₂, hv⟩ := object_mints (P := fun _ => True) made
      refine ⟨by simpa using h₁.andThen h₂, fun m hm => hv m (hm.back trivial h₁ h₂.next_le) ?_⟩
      exact hfields m (hm.front h₂.next_le) nofun
    | array evaluated made =>
      obtain ⟨h₁, hitems⟩ := evaluated.mints hJ
      obtain ⟨h₂, hv⟩ := array_mints (P := fun _ => True) made
      refine ⟨by simpa using h₁.andThen h₂, fun m hm => hv m (hm.back trivial h₁ h₂.next_le) ?_⟩
      exact hitems m (hm.front h₂.next_le)
    | paren evaluated => exact hJ.mints evaluated
    | markup created =>
      obtain ⟨hmints, hv, -⟩ := created.mints hJ
      exact ⟨hmints, hv⟩
    | location made =>
      cases made
      exact ⟨.of_eq rfl le_rfl, fun _ _ => .location _⟩
    | helper made =>
      obtain ⟨hmints, hv⟩ := helper_mints made
      exact ⟨hmints, fun m _ => hv m⟩
  markup h := by
    cases h with
    | markup created => exact fun hs => ⟨_, rfl, (created.mints hJ).2.2 hs⟩

end

theorem distinguishes_derives (n : Nat) : Distinguishes (Derives n) := by
  induction n with
  | zero => exact ⟨fun h => h.elim, fun h => h.elim⟩
  | succ n ih => exact Steps.distinguishes ih

/-! ## Loading -/

section

variable {modules : Importable} {scope : ScopeId} {s s' : Store} {exports exports' : Fields}
  {l : List Creation}

theorem importedValue_mints {found : Option Fields} {imported : Imported} {v : Value}
    (h : importedValue found imported s = (.ok v, s')) :
    Mints (fun m => ∀ fields, found = some fields → ∀ e ∈ fields, e.2.Lacks m) s s' [] ∧
      ∀ m, (∀ fields, found = some fields → ∀ e ∈ fields, e.2.Lacks m) → Unused m s s' →
        v.Lacks m := by
  have hget : ∀ m, (∀ fields, found = some fields → ∀ e ∈ fields, e.2.Lacks m) → ∀ key,
      ((found.bind (Keyed.get? key)).getD .undefined).Lacks m := by
    intro m hm key
    cases found with
    | none => exact .undefined
    | some fields => exact Value.Lacks.keyed (hm fields rfl) key
  cases imported with
  | default =>
    cases h
    exact ⟨.refl _, fun m hm _ => hget m hm "default"⟩
  | named n =>
    cases h
    exact ⟨.refl _, fun m hm _ => hget m hm n⟩
  | everything =>
    cases found with
    | none =>
      cases h
      exact ⟨.refl _, fun _ _ _ => .undefined⟩
    | some fields =>
      obtain ⟨hmints, hv⟩ := object_mints h
      exact ⟨hmints, fun m hm hunused => hv m hunused (hm fields rfl)⟩

theorem bindImports_mints {found : Option Fields} {bs : List Binding}
    (h : bindImports scope found bs s = (.ok (), s')) :
    Mints (fun m => ∀ fields, found = some fields → ∀ e ∈ fields, e.2.Lacks m) s s' [] := by
  induction bs generalizing s with
  | nil =>
    cases h
    exact .refl _
  | cons b bs ih =>
    obtain ⟨v, s₁, hv, hrest⟩ := Attempt.bind_eq_ok.mp h
    obtain ⟨u, s₂, hu, hrest⟩ := Attempt.bind_eq_ok.mp hrest
    cases hu
    obtain ⟨hmints, hlacks⟩ := importedValue_mints hv
    exact (hmints.declare hlacks scope b.name).trans (ih hrest) fun _ hm _ => hm

/-- The importable modules lack an identity. -/
def Importable.Lacks (m : Nat) (modules : Importable) : Prop :=
  ∀ entry ∈ modules, ∀ e ∈ entry.2, e.2.Lacks m

/-- All identities in the importable modules were handed out. -/
def Importable.Issued (s : Store) (modules : Importable) : Prop :=
  ∀ entry ∈ modules, ∀ e ∈ entry.2, e.2.Issued s

theorem Importable.Lacks.find {m : Nat} (h : modules.Lacks m) (specifier : String)
    {fields : Fields}
    (hf : (modules.find? fun entry => entry.1 == specifier).map (·.2) = some fields) :
    ∀ e ∈ fields, e.2.Lacks m := by
  obtain ⟨entry, hentry, rfl⟩ := Option.map_eq_some_iff.mp hf
  exact h entry (List.mem_of_find?_eq_some hentry)

theorem TopLevel.mints {J : Judgement} (hJ : Distinguishes J) {ss : List Statement}
    (h : TopLevel J modules scope exports ss s exports' s' l) :
    Mints modules.Lacks s s' l ∧ ∀ m, modules.Lacks m → Unused m s s' →
      (∀ e ∈ exports, e.2.Lacks m) → ∀ e ∈ exports', e.2.Lacks m := by
  induction h with
  | nil => exact ⟨.refl _, fun _ _ _ hexports => hexports⟩
  | imports bound further ih =>
    have hbound := (bindImports_mints bound).weaken (P := modules.Lacks)
      fun m hm fields hf => hm.find _ hf
    refine ⟨hbound.trans ih.1 fun _ hm _ => hm, fun m hm hunused => ih.2 m hm ?_⟩
    exact hunused.back hm hbound ih.1.next_le
  | @const _ _ exported name _ _ _ _ _ _ _ _ bound further ih =>
    obtain ⟨hmints, hv⟩ := bound.mints hJ
    have hbound := (hmints.declare (fun m _ => hv m) scope name).weaken (P := modules.Lacks)
      fun _ _ => trivial
    refine ⟨hbound.trans ih.1 fun _ hm _ => hm, fun m hm hunused hexports => ?_⟩
    refine ih.2 m hm (hunused.back hm hbound ih.1.next_le) ?_
    have hv : (_ : Value).Lacks m := hv m ⟨hunused.absent, (hunused.front ih.1.next_le).passed⟩
    split_ifs
    · exact Keyed.forall_mem_insert hexports hv name
    · exact hexports
  | expr evaluated further ih =>
    obtain ⟨hmints, -⟩ := hJ.mints evaluated
    have hbound := hmints.weaken (P := modules.Lacks) fun _ _ => trivial
    refine ⟨hbound.trans ih.1 fun _ hm _ => hm, fun m hm hunused => ih.2 m hm ?_⟩
    exact hunused.back hm hbound ih.1.next_le

/-- Loading a module hands out identities as evaluation does. -/
theorem Loads.mints {m : Module} {stack : StackId} {n : Nat}
    (h : Loads n modules stack m s exports s' l) (hs : s.Issued) (hmodules : modules.Issued s) :
    s'.Issued ∧ (∀ e ∈ exports, e.2.Issued s') ∧ s.next ≤ s'.next ∧ ∀ c ∈ l, c.Apart := by
  obtain ⟨hmints, hexports⟩ := TopLevel.mints (distinguishes_derives n) h
  have hopened := Mints.newScope (P := modules.Lacks) none stack s
  have hopened' := hopened.issued (fun m hm entry hentry e he => hmodules entry hentry e he m hm) hs
  have hlacks : ∀ m, s.next ≤ m → modules.Lacks m :=
    fun m hm entry hentry e he => hmodules entry hentry e he m hm
  refine ⟨hmints.issued hlacks hopened', ?_, hmints.next_le, hmints.apart hlacks hopened'⟩
  intro e he m hm
  exact hexports m (hlacks m (hmints.next_le.trans hm)) (hopened'.unused hmints.next_le hm) nofun e he

end

end Eval

namespace Render

/-! ## Rendering -/

theorem sourceRecord_mints {P : Nat → Prop} (source : Option Value) (s : Store) :
    Mints P s (sourceRecord source s).2 [] := by
  unfold sourceRecord
  split
  · exact .refl s
  · split
    · exact .of_eq rfl le_rfl
    · exact .refl s
  · exact .refl s

/-- Mounting a value hands out identities as evaluation does. -/
def MintsAll (J : Planting) : Prop :=
  ∀ v parent m x m' l, J v parent m x m' l → Mints (fun k => v.Lacks k) m.store m'.store l

section

variable {J : Planting} (hJ : MintsAll J) {parent : NodeId} {m m' : Mounting} {l : List Creation}
include hJ

theorem ItemPlanted.mints {v : Value} {x : Forest} (h : ItemPlanted J parent v m x m' l) :
    Mints (fun k => v.Lacks k) m.store m'.store l := by
  cases h with
  | nested mounted =>
    have hmints := hJ _ _ (m.plant _) _ _ _ mounted
    exact hmints
  | other single mounted => exact hJ _ _ _ _ _ _ mounted

theorem ItemsPlanted.mints {vs : List Value} {xs : List Forest}
    (h : ItemsPlanted J parent vs m xs m' l) :
    Mints (fun k => ∀ v ∈ vs, v.Lacks k) m.store m'.store l := by
  induction h with
  | nil => exact .refl _
  | @cons v vs _ _ _ _ _ _ _ head tail ih =>
    have hhead := (head.mints hJ).weaken (P := fun k => ∀ w ∈ v :: vs, w.Lacks k)
      fun k hk => hk v List.mem_cons_self
    exact hhead.trans ih fun k hk _ => (List.forall_mem_cons.mp hk).2

theorem ContentPlanted.mints {fiber : FiberId} {v : Option Value} {x : Forest}
    (h : ContentPlanted J fiber parent v m x m' l) :
    Mints (fun k => ∀ w, v = some w → w.Lacks k) m.store m'.store l := by
  cases h with
  | absent => exact .refl _
  | empty hidden => exact .refl _
  | shown shown filled => exact .of_eq rfl le_rfl
  | other composed mounted =>
    have hmints := hJ _ _ _ _ _ _ mounted
    exact hmints.weaken fun k hk => hk _ rfl

theorem Planted.mints (depth : Nat) : MintsAll (Planted J depth) := by
  intro v parent m x m' l h
  cases h with
  | absent nothing => exact .refl _
  | text shown filled => exact .of_eq rfl le_rfl
  | array mounted =>
    refine (mounted.mints hJ).weaken fun k hk => ?_
    cases hk with
    | array other hitems => exact hitems
  | @host e tag parent m m' x l type content =>
    have hsource : Mints (fun k => (Value.element e).Lacks k) m.store (m.host e tag parent).store [] :=
      sourceRecord_mints e.source m.store
    refine hsource.trans (content.mints hJ) fun k hk _ w hw => ?_
    cases hk with
    | element _ _ _ hprops _ _ => exact hprops _ (Keyed.mem_of_get? hw)
  | @component e f parent m m' s v x l₁ l₂ type called mounted =>
    have hsource : Mints (fun k => (Value.element e).Lacks k) m.store (m.component e).store [] :=
      sourceRecord_mints e.source m.store
    have hprops : ∀ k, (Value.element e).Lacks k → ∀ w ∈ [Value.props e], w.Lacks k := by
      intro k hk
      rw [List.forall_mem_singleton]
      cases hk with
      | element _ _ hother hprops _ _ => exact .object hother hprops
    obtain ⟨hcalled, hresult⟩ := called.mints (distinguishes_derives depth)
    have hmints := hsource.trans hcalled fun k hk _ => hprops k hk
    refine hmints.trans (hJ _ _ _ _ _ _ mounted) fun k hk hunused => ?_
    exact hresult k (hprops k hk) (hunused.back hk hsource hcalled.next_le)

end

theorem Plants.mints (depth n : Nat) : MintsAll (Plants depth n) := by
  induction n with
  | zero => exact fun _ _ _ _ _ _ h => h.elim
  | succ n ih => exact Planted.mints ih depth

theorem Rendered.mints {depth : Nat} {container : NodeId} {v : Value} {s s' : Store}
    {d d' : Document} {x : Forest} {tree : FiberTree} {l : List Creation}
    (h : Rendered depth container v s d x tree s' d' l) : Mints (fun k => v.Lacks k) s s' l := by
  obtain ⟨t, hplants, -⟩ := h.planted
  exact Plants.mints depth depth _ _ _ _ _ _ hplants

/-! ## Between loading and rendering -/

/-- As `Uses`, where moreover all identities in what is used were handed out. -/
inductive IssuedUses (Γ : Typing) (s : Store) : Store → List Creation → Prop
  | start : IssuedUses Γ s s []
  | identity {s₁ : Store} {l : List Creation} (before : IssuedUses Γ s s₁ l) :
      IssuedUses Γ s s₁.identity.2 l
  | call {depth : Nat} {callee v : Value} {arguments : List Value} {s₁ s₂ : Store}
      {l₁ l₂ : List Creation} (before : IssuedUses Γ s s₁ l₁)
      (callee_clean : callee.Clean (s₁.Home Γ))
      (arguments_clean : ∀ v ∈ arguments, v.Clean (s₁.Home Γ))
      (arguments_issued : ∀ v ∈ arguments, v.Issued s₁)
      (called : Called (Derives depth) callee arguments s₁ v s₂ l₂) :
      IssuedUses Γ s s₂ (l₁ ++ l₂)
  | render {depth : Nat} {container : NodeId} {v : Value} {d d' : Document} {x : Forest}
      {tree : FiberTree} {s₁ s₂ : Store} {l₁ l₂ : List Creation} (before : IssuedUses Γ s s₁ l₁)
      (clean : v.Clean (s₁.Home Γ)) (issued : v.Issued s₁)
      (rendered : Rendered depth container v s₁ d x tree s₂ d' l₂) :
      IssuedUses Γ s s₂ (l₁ ++ l₂)

namespace IssuedUses

variable {Γ : Typing} {s s' : Store} {l : List Creation}

theorem uses (h : IssuedUses Γ s s' l) : Uses Γ s s' l := by
  induction h with
  | start => exact .start
  | identity before ih => exact .identity ih
  | call before hcallee harguments hissued called ih => exact .call ih hcallee harguments called
  | render before hv hissued rendered ih => exact .render ih hv rendered

/-- All elements that are created in between have their children apart. -/
theorem apart (h : IssuedUses Γ s s' l) (hs : s.Issued) : s'.Issued ∧ ∀ c ∈ l, c.Apart := by
  induction h with
  | start => exact ⟨hs, nofun⟩
  | identity before ih => exact ⟨(Mints.identity _).issued (fun _ _ => trivial) ih.1, ih.2⟩
  | @call depth _ _ arguments s₁ _ _ _ before hcallee harguments hissued called ih =>
    obtain ⟨hmints, -⟩ := called.mints (distinguishes_derives depth)
    have hlacks : ∀ m, s₁.next ≤ m → ∀ v ∈ arguments, v.Lacks m := fun m hm v hv => hissued v hv m hm
    exact ⟨hmints.issued hlacks ih.1, List.forall_mem_append.mpr ⟨ih.2, hmints.apart hlacks ih.1⟩⟩
  | render before hv hissued rendered ih =>
    have hmints := rendered.mints
    exact ⟨hmints.issued hissued ih.1,
      List.forall_mem_append.mpr ⟨ih.2, hmints.apart hissued ih.1⟩⟩

end IssuedUses

end Render

end MarkupTrace
