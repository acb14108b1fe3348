import MarkupTrace.Inspect
import MarkupTrace.Proofs.SimulatedElements

/-!
# Rendering in two runs

Similar values are mounted into the same document. The fibers may carry different sources, but no
node of the document depends on them.
-/

namespace MarkupTrace

open Source Annotate Store Render

/-- Alike stores and the same document. -/
structure SameDocument (C : Comparison) (m m' : Mounting) : Prop where
  alike : Alike C m.store m'.store
  document : m.document = m'.document

/-- Mounting went on alike on both sides. -/
structure Draws (C : Comparison) (m m' m₁ m₁' : Mounting) : Prop where
  onward : Onward C m.store m'.store m₁.store m₁'.store
  document : m₁.document = m₁'.document

namespace Draws

variable {C : Comparison} {m m' m₁ m₁' m₂ m₂' : Mounting}

theorem same (h : Draws C m m' m₁ m₁') : SameDocument C m₁ m₁' := ⟨h.onward.alike, h.document⟩

theorem trans (h : Draws C m m' m₁ m₁') (h' : Draws C m₁ m₁' m₂ m₂') : Draws C m m' m₂ m₂' :=
  ⟨h.onward.trans h'.onward, h'.document⟩

theorem after {α β : Type} {x : Except (Stop RenderError) α × Mounting}
    {y : Except (Stop RenderError) β × Mounting} (h : Draws C m m' m₁ m₁')
    (hxy : Matches (fun _ _ => Draws C m₁ m₁') x y) : Matches (fun _ _ => Draws C m m') x y :=
  hxy.imp fun _ _ _ _ h' => h.trans h'

end Draws

theorem SameDocument.refl {C : Comparison} {m m' : Mounting} (h : SameDocument C m m') :
    Draws C m m' m m' := ⟨h.alike.refl, h.document⟩

namespace Render

variable {C : Comparison} {m m' m₁ m₁' : Mounting} {v w : Value}

/-! ## Steps -/

theorem ofDocument_matches {α : Type} (h : SameDocument C m m') (f : Document → α × Document) :
    Matches (fun a b m₁ m₁' => a = b ∧ Draws C m m' m₁ m₁') (Mount.ofDocument f m)
      (Mount.ofDocument f m') := by
  obtain ⟨s, d, tr⟩ := m
  obtain ⟨t, d', tr'⟩ := m'
  obtain ⟨ha, rfl⟩ := h
  exact .ok ⟨rfl, ha.refl, rfl⟩

theorem changeDocument_matches (h : SameDocument C m m') (f : Document → Document) :
    Matches (fun _ _ => Draws C m m') (Mount.changeDocument f m) (Mount.changeDocument f m') := by
  obtain ⟨s, d, tr⟩ := m
  obtain ⟨t, d', tr'⟩ := m'
  obtain ⟨ha, rfl⟩ := h
  exact .ok ⟨ha.refl, rfl⟩

theorem addFiber_matches (h : SameDocument C m m') (f f' : Fiber) :
    Matches (fun _ _ => Draws C m m') (Mount.addFiber f m) (Mount.addFiber f' m') :=
  .ok ⟨h.alike.refl, h.document⟩

theorem link_matches (h : SameDocument C m m') (parent parent' : FiberId)
    (children children' : List FiberId) : Matches (fun _ _ => Draws C m m')
      (Mount.link parent children m) (Mount.link parent' children' m') :=
  .ok ⟨h.alike.refl, h.document⟩

/-- A source that is not shared gets a record, which makes no difference. -/
theorem aside_sourceRecord {bound : Nat} {s : Store} (hbound : bound ≤ s.records.size)
    (source : Option Value) : s.Aside bound (sourceRecord source s).2 := by
  unfold sourceRecord
  split
  · exact .refl s
  · split
    · rename_i place _
      exact .newRecord hbound place
    · exact .refl s
  · exact .refl s

theorem source_matches (h : SameDocument C m m') (source source' : Option Value) :
    Matches (fun _ _ => Draws C m m') (Mount.source source m) (Mount.source source' m') := by
  have ho := h.alike.aside (aside_sourceRecord h.alike.holds₁.size source)
    (aside_sourceRecord h.alike.holds₂.size source')
  exact .ok ⟨ho, h.document⟩

theorem ofRun_matches {α β : Type} {R : Store → Store → α → β → Prop} {x : Run α} {y : Run β}
    (h : SameDocument C m m')
    (hxy : Matches (Ends C R m.store m'.store) (x m.store) (y m'.store)) :
    Matches (fun a b m₁ m₁' => R m₁.store m₁'.store a b ∧ Draws C m m' m₁ m₁')
      (Mount.ofRun x m) (Mount.ofRun y m') := by
  unfold Mount.ofRun Attempt.within
  generalize x m.store = p at hxy
  generalize y m'.store = q at hxy
  cases hxy with
  | exhausted s q => exact .exhausted _ _
  | error e s t => exact .error _ _ _
  | ok hend => exact .ok ⟨hend.2, hend.1, h.document⟩

theorem appendText_matches (h : SameDocument C m m') (parent : NodeId) (content : String) :
    Matches (fun _ _ => Draws C m m') (Mount.appendText parent content m)
      (Mount.appendText parent content m') := by
  refine (ofDocument_matches h _).bind ?_
  rintro node _ m₁ m₁' ⟨rfl, h₁⟩ - -
  refine (changeDocument_matches h₁.same _).bind ?_
  rintro - - m₂ m₂' h₂ - -
  exact .ok ⟨h₁.onward.trans h₂.onward, h₂.document⟩

theorem mountText_matches (h : SameDocument C m m') (v w : Value) (content : String)
    (parent : NodeId) : Matches (fun _ _ => Draws C m m') (mountText v content parent m)
      (mountText w content parent m') := by
  refine (appendText_matches h parent content).bind ?_
  rintro node node' m₁ m₁' h₁ - -
  refine (addFiber_matches h₁.same _ _).bind ?_
  rintro f f' m₂ m₂' h₂ - -
  exact .ok (h₁.trans h₂)

theorem appendElement_matches (h : SameDocument C m m') (parent : NodeId) (tag : String)
    (attributes : Keyed String) :
    Matches (fun a b m₁ m₁' => a = b ∧ Draws C m m' m₁ m₁')
      (Mount.appendElement parent tag attributes m)
      (Mount.appendElement parent tag attributes m') := by
  refine (ofDocument_matches h _).bind ?_
  rintro node _ m₁ m₁' ⟨rfl, h₁⟩ - -
  refine (changeDocument_matches h₁.same _).bind ?_
  rintro - - m₂ m₂' h₂ - -
  refine (changeDocument_matches h₂.same _).bind ?_
  rintro - - m₃ m₃' h₃ - -
  exact .ok ⟨rfl, (h₁.onward.trans h₂.onward).trans h₃.onward, h₃.document⟩

theorem attributesOf_eq {s t : Store} {fs gs : Fields} (h : C.SimilarFields s t fs gs) :
    attributesOf fs = attributesOf gs := by
  induction h with
  | nil => rfl
  | @cons x y _ _ hxy _ ih =>
    obtain ⟨k, v⟩ := x
    obtain ⟨l, w⟩ := y
    obtain ⟨rfl, hvw⟩ := hxy
    have hshown : v.shown? = w.shown? := Value.Similar.shown?_eq hvw
    unfold attributesOf at ih ⊢
    rw [List.filterMap_cons, List.filterMap_cons, ih]
    simp only [hshown]

/-! ## Mounting -/

/-- Similar values are mounted alike. -/
def Follows (C : Comparison) (mounter mounter' : Mounter) : Prop :=
  ∀ (v w : Value) (parent : NodeId) (m m' : Mounting), SameDocument C m m' →
    C.Similar m.store m'.store v w →
      Matches (fun _ _ => Draws C m m') (mounter v parent m) (mounter' w parent m')

namespace Follows

variable {mounter mounter' : Mounter} (hmounter : Follows C mounter mounter')
include hmounter

theorem mountItem (h : SameDocument C m m') (hv : C.Similar m.store m'.store v w)
    (parent : NodeId) : Matches (fun _ _ => Draws C m m') (mountItem mounter v parent m)
      (mountItem mounter' w parent m') := by
  have hplain := hmounter v w parent m m' h hv
  have hlater := fun m₁ m₁' (h₁ : Draws C m m' m₁ m₁') =>
    hmounter v w parent m₁ m₁' h₁.same (hv.onward h₁.onward)
  cases hv with
  | array identity length items =>
    refine (addFiber_matches h _ _).bind ?_
    rintro f f' m₁ m₁' h₁ - -
    refine (hlater m₁ m₁' h₁).bind ?_
    rintro fs fs' m₂ m₂' h₂ - -
    refine (link_matches h₂.same f f' fs fs').bind ?_
    rintro - - m₃ m₃' h₃ - -
    exact .ok (h₁.trans (h₂.trans h₃))
  | _ => exact hplain

theorem mountItems {vs ws : List Value} (h : SameDocument C m m')
    (hvs : C.SimilarItems m.store m'.store vs ws) (parent : NodeId) :
    Matches (fun _ _ => Draws C m m') (mountItems mounter parent vs m)
      (mountItems mounter' parent ws m') := by
  induction vs generalizing ws m m' with
  | nil =>
    cases hvs
    exact .ok h.refl
  | cons v vs ih =>
    cases hvs with
    | cons hv hvs =>
      refine (hmounter.mountItem h hv parent).bind ?_
      rintro fs fs' m₁ m₁' h₁ - -
      refine (ih h₁.same (h₁.onward.items hvs)).bind ?_
      rintro gs gs' m₂ m₂' h₂ - -
      exact .ok (h₁.trans h₂)

theorem mountContent {x y : Option Value} (h : SameDocument C m m')
    (hxy : Option.Rel (C.Similar m.store m'.store) x y) (fiber fiber' : FiberId) (node : NodeId) :
    Matches (fun _ _ => Draws C m m') (mountContent mounter fiber node x m)
      (mountContent mounter' fiber' node y m') := by
  cases hxy with
  | none => exact .ok h.refl
  | @some v w hv =>
    unfold Render.mountContent
    simp only [Value.Similar.shown?_eq hv]
    cases w.shown? with
    | none =>
      refine (hmounter v w node m m' h hv).bind ?_
      rintro fs fs' m₁ m₁' h₁ - -
      exact h₁.after (link_matches h₁.same _ _ _ _)
    | some shown =>
      dsimp only
      split_ifs
      · exact .ok h.refl
      · refine (appendText_matches h node shown).bind ?_
        rintro - - m₁ m₁' h₁ - -
        exact .ok h₁

theorem mountHost {c d : CreatedElement Value} (h : SameDocument C m m')
    (hprops : C.SimilarFields m.store m'.store c.props d.props) (tag : String) (parent : NodeId) :
    Matches (fun _ _ => Draws C m m') (mountHost mounter c tag parent m)
      (mountHost mounter' d tag parent m') := by
  unfold Render.mountHost
  rw [attributesOf_eq hprops]
  refine (appendElement_matches h parent tag _).bind ?_
  rintro node _ m₁ m₁' ⟨rfl, h₁⟩ - -
  refine (source_matches h₁.same c.source d.source).bind ?_
  rintro r r' m₂ m₂' h₂ - -
  refine (addFiber_matches h₂.same _ _).bind ?_
  rintro f f' m₃ m₃' h₃ - -
  have h₁₃ := h₁.trans (h₂.trans h₃)
  have hchildren := (h₁₃.onward.fields hprops).get? "children"
  refine (hmounter.mountContent h₃.same hchildren f f' node).bind ?_
  rintro - - m₄ m₄' h₄ - -
  exact .ok (h₁₃.trans h₄)

theorem mountComponent {c d : CreatedElement Value} {f g : Function} {n k : Nat}
    (hev : Eval.Follows C (Eval.eval n) (Eval.eval k)) (h : SameDocument C m m')
    (hf : f.Similar (m.store.Home C.left) (m'.store.Home C.right) g)
    (hprops : C.Similar m.store m'.store (Value.props c) (Value.props d)) (parent : NodeId) :
    Matches (fun _ _ => Draws C m m') (mountComponent mounter n c f parent m)
      (mountComponent mounter' k d g parent m') := by
  unfold Render.mountComponent
  refine (source_matches h c.source d.source).bind ?_
  rintro r r' m₁ m₁' h₁ - -
  refine (addFiber_matches h₁.same _ _).bind ?_
  rintro fiber fiber' m₂ m₂' h₂ - -
  have h₁₂ := h₁.trans h₂
  have hcallee := Comparison.Similar.onward (.function hf) h₁₂.onward
  have hcalled := hev.callWith h₂.onward.alike hcallee (.cons (hprops.onward h₁₂.onward) .nil)
  refine (ofRun_matches h₂.same hcalled).bind ?_
  rintro x y m₃ m₃' ⟨hxy, h₃⟩ - -
  refine (hmounter x y parent m₃ m₃' h₃.same hxy).bind ?_
  rintro fs fs' m₄ m₄' h₄ - -
  refine (link_matches h₄.same fiber fiber' fs fs').bind ?_
  rintro - - m₅ m₅' h₅ - -
  exact .ok (h₁₂.trans (h₃.trans (h₄.trans h₅)))

theorem mountStep {n k : Nat} (hev : Eval.Follows C (Eval.eval n) (Eval.eval k)) :
    Follows C (mountStep mounter n) (mountStep mounter' k) := by
  intro v w parent m m' h hv
  cases hv with
  | undefined => exact .ok h.refl
  | null => exact .ok h.refl
  | bool b => exact .ok h.refl
  | number x => exact mountText_matches h _ _ _ parent
  | text s =>
    unfold Render.mountStep
    dsimp only
    split_ifs
    · exact .ok h.refl
    · exact mountText_matches h _ _ _ parent
  | array identity length items =>
    have hitems := List.forall₂_iff_zip.mpr ⟨length, fun {a b} hab => items a b hab⟩
    exact hmounter.mountItems h hitems parent
  | @element c d identity type propsIdentity length keys values =>
    have hfields : C.SimilarFields m.store m'.store c.props d.props :=
      Keyed.related_iff_zip.mpr ⟨length, keys, values⟩
    unfold Render.mountStep
    dsimp only
    cases hc : c.type with
    | host tag =>
      rw [hc] at type
      generalize hd : d.type = b at type
      cases type
      exact hmounter.mountHost h hfields tag parent
    | component f =>
      rw [hc] at type
      generalize hd : d.type = b at type
      cases type with
      | component hf =>
        have hprops : C.Similar m.store m'.store (Value.props c) (Value.props d) := by
          rw [Value.props, Value.props, propsIdentity]
          exact .object _ length keys values
        exact hmounter.mountComponent hev h hf hprops parent
  | _ => exact .error _ _ _

end Follows

theorem mount_matches {n k : Nat} (hev : Eval.Follows C (Eval.eval n) (Eval.eval k)) {i j : Nat}
    (hij : i ≤ j) : Follows C (mount n i) (mount k j) := by
  induction i generalizing j with
  | zero =>
    intro v w parent m m' h hv
    exact .exhausted _ _
  | succ i ih =>
    obtain ⟨j, rfl⟩ : ∃ l, j = l + 1 := ⟨j - 1, by omega⟩
    exact (ih (by omega)).mountStep hev

/-- Rendering a value that is similar gives the same document, or the same error. -/
theorem renderInto_matches {s t : Store} (h : Alike C s t) (hv : C.Similar s t v w)
    (container : NodeId) (d : Document) {n k : Nat} (hk : 2 * n < k) :
    Matches (fun _ _ (p q : Store × Document) => Onward C s t p.1 q.1 ∧ p.2 = q.2)
      (renderInto n container v s d) (renderInto k container w t d) := by
  have hmount := mount_matches (Eval.followsTo C n n le_rfl k hk) (show n ≤ k by omega)
  have hroot : Matches (fun _ _ => Draws C ⟨s, d.clearChildren container, .empty⟩
      ⟨t, d.clearChildren container, .empty⟩)
      (mountRoot n container v ⟨s, d.clearChildren container, .empty⟩)
      (mountRoot k container w ⟨t, d.clearChildren container, .empty⟩) := by
    have hstart : SameDocument C ⟨s, d.clearChildren container, .empty⟩
        ⟨t, d.clearChildren container, .empty⟩ := ⟨h, rfl⟩
    refine (addFiber_matches hstart _ _).bind ?_
    rintro root root' m₁ m₁' h₁ - -
    refine (hmount v w container m₁ m₁' h₁.same (hv.onward h₁.onward)).bind ?_
    rintro fs fs' m₂ m₂' h₂ - -
    exact (h₁.trans h₂).after (link_matches h₂.same _ _ _ _)
  unfold renderInto
  generalize mountRoot n container v _ = p at hroot
  generalize mountRoot k container w _ = q at hroot
  cases hroot with
  | exhausted m q => exact .exhausted _ _
  | error e m m' => exact .error _ _ _
  | ok hdraws => exact .ok ⟨hdraws.onward, hdraws.document⟩

theorem elementFor_matches {s t : Store} {props props' : Value} (h : Alike C s t)
    (hv : C.Similar s t v w) (hprops : C.Similar s t props props') :
    Matches (Ends C C.Similar s t) (elementFor v props s) (elementFor w props' t) := by
  have hok := Matches.ok (P := Ends C C.Similar s t) (ε := EvalError) ⟨h.refl, hv⟩
  cases hv with
  | function hf =>
    have helement : ∀ fs gs, C.SimilarFields s t fs gs → Matches (Ends C C.Similar s t)
        (Run.element (.component _) fs none none s) (Run.element (.component _) gs none none t) :=
      fun fs gs hfs => Eval.element_matches h (.component hf) hfs
        (show Eval.Given.Clean _ ⟨[], none, none⟩ from ⟨by simp, nofun, nofun⟩)
        (show Eval.Given.Clean _ ⟨[], none, none⟩ from ⟨by simp, nofun, nofun⟩)
    cases hprops with
    | object identity length keys values =>
      exact helement _ _ (Keyed.related_iff_zip.mpr ⟨length, keys, values⟩)
    | _ => exact helement _ _ .nil
  | _ => exact hok

end Render

end MarkupTrace
