import MarkupTrace.Proofs.Mirroring

/-!
# What a mounting did when it stopped

A mounting may fail at any depth, and by then it has changed the document. However it ends, all that
it did was to append new nodes one after the other, each to the node that it mounts into or to an
element that it made itself.
-/

namespace MarkupTrace.Render

/-- A node that may be appended to: a given one, or an element that was made since the document had
this size. -/
def Opens (base : NodeId) (least : Nat) (d : Document) (node : NodeId) : Prop :=
  node = base ∨ least ≤ node.index ∧ ∃ n, d.get? node = some n ∧ n.kind = .element

/-- The document changes by new nodes that are appended where this may be done. -/
inductive Appends (base : NodeId) (least : Nat) : Document → Document → Prop
  | done {d : Document} : Appends base least d d
  | text {m : Mounting} {parent : NodeId} {d : Document} (content : String)
      (opens : Opens base least m.document parent)
      (rest : Appends base least (m.appendText parent content).document d) :
      Appends base least m.document d
  | element {m : Mounting} {parent : NodeId} {d : Document} (tag : String)
      (attributes : Keyed String) (opens : Opens base least m.document parent)
      (rest : Appends base least (m.appendElement parent tag attributes).document d) :
      Appends base least m.document d

namespace Appends

variable {base : NodeId} {least : Nat} {d d₁ d₂ : Document}

theorem trans (h : Appends base least d d₁) (h' : Appends base least d₁ d₂) :
    Appends base least d d₂ := by
  induction h with
  | done => exact h'
  | text content opens _ ih => exact .text content opens (ih h')
  | element tag attributes opens _ ih => exact .element tag attributes opens (ih h')

theorem size_le (h : Appends base least d d₁) : d.size ≤ d₁.size := by
  induction h with
  | done => exact Nat.le_refl _
  | @text m parent d content opens rest ih =>
    have := @Mounting.size_appendText m parent content
    omega
  | @element m parent d tag attributes opens rest ih =>
    have := @Mounting.size_appendElement m parent tag attributes
    omega

/-- A node keeps all but that it gets further children, new ones, and this only if it may be appended
to. -/
def Extended (base : NodeId) (least : Nat) (d d₁ : Document) (id : NodeId) : Prop :=
  ∃ added, d₁.get? id = (d.get? id).map (fun n => { n with children := n.children ++ added }) ∧
    (∀ c ∈ added, d.size ≤ c.index) ∧ (id.index < least → id ≠ base → added = [])

/-- One node is appended, and then others. -/
theorem Extended.step {id parent : NodeId} (h : Extended base least d₁ d₂ id)
    (hopens : Opens base least d parent) (hsize : d₁.size = d.size + 1)
    (hget : d₁.get? id = if parent = id then
      (d.get? id).map fun n => { n with children := n.children ++ [⟨d.size⟩] } else d.get? id) :
    Extended base least d d₂ id := by
  obtain ⟨added, hadded, hnew, hclosed⟩ := h
  have hnew : ∀ c ∈ added, d.size ≤ c.index := fun c hc => by have := hnew c hc; omega
  unfold Extended
  rw [hadded, hget]
  split
  · rename_i heq
    subst heq
    refine ⟨⟨d.size⟩ :: added, ?_, List.forall_mem_cons.mpr ⟨Nat.le_refl _, hnew⟩, ?_⟩
    · rw [Option.map_map]
      congr 1
      funext n
      simp
    · intro hlt hne
      rcases hopens with rfl | ⟨hle, -⟩
      · exact absurd rfl hne
      · exact absurd hlt (Nat.not_lt_of_le hle)
  · exact ⟨added, rfl, hnew, hclosed⟩

theorem extended (h : Appends base least d d₁) {id : NodeId} (hid : id.index < d.size) :
    Extended base least d d₁ id := by
  induction h with
  | done => exact ⟨[], by simp, fun _ hc => absurd hc List.not_mem_nil, fun _ _ => rfl⟩
  | @text m parent d content opens rest ih =>
    have hsize := @Mounting.size_appendText m parent content
    exact (ih (by omega)).step opens hsize (Mounting.get?_appendText hid content)
  | @element m parent d tag attributes opens rest ih =>
    have hsize := @Mounting.size_appendElement m parent tag attributes
    exact (ih (by omega)).step opens hsize (Mounting.get?_appendElement hid tag attributes)

/-- What may be appended to stays so. -/
theorem opens (h : Appends base least d d₁) {node : NodeId} (hnode : Opens base least d node) :
    Opens base least d₁ node := by
  rcases hnode with rfl | ⟨hle, n, hn, hkind⟩
  · exact .inl rfl
  · obtain ⟨added, hadded, -⟩ := h.extended (Array.getElem?_eq_some_iff.mp hn).1
    rw [hn] at hadded
    exact .inr ⟨hle, _, hadded, hkind⟩

end Appends

/-! ## Mounting -/

theorem Mounting.exists_appendElement {m : Mounting} {parent : NodeId} (tag : String)
    (attributes : Keyed String) : ∃ n,
      (m.appendElement parent tag attributes).document.get? ⟨m.document.size⟩ = some n ∧
        n.kind = .element := by
  have hnew : (m.document.createElement tag).2.get? ⟨m.document.size⟩ =
      some (.new .element tag) := Document.get?_add_self (.new .element tag) m.document
  obtain ⟨n, hn, hkind, -⟩ := Document.get?_setAttributes ⟨m.document.size⟩ attributes hnew
  rw [Mounting.appendElement, Document.get?_appendChild, Document.get?_modify, if_pos rfl, hn]
  split
  · exact ⟨_, rfl, hkind⟩
  · exact ⟨_, rfl, hkind⟩

/-- However it ends, given that a node may be appended to. -/
def Mount.Drafts {α : Type} (base : NodeId) (least : Nat) (node : NodeId) (x : Mount α) : Prop :=
  ∀ m, least ≤ m.document.size → Opens base least m.document node →
    Appends base least m.document (x m).2.document

namespace Mount.Drafts

variable {α β : Type} {base : NodeId} {least : Nat} {node : NodeId}

theorem pure (a : α) : Drafts base least node (Pure.pure a) := fun _ _ _ => .done

theorem fail (e : Stop RenderError) : Drafts (α := α) base least node (Attempt.fail e) :=
  fun _ _ _ => .done

theorem bind {x : Mount α} {f : α → Mount β} (hx : Drafts base least node x)
    (hf : ∀ a, Drafts base least node (f a)) : Drafts base least node (x >>= f) := by
  intro m hsize hopens
  rw [Attempt.bind_apply]
  have hfirst := hx m hsize hopens
  generalize x m = result at hfirst ⊢
  rcases result with ⟨e | a, m₁⟩
  · exact hfirst
  · exact hfirst.trans (hf a m₁ (Nat.le_trans hsize hfirst.size_le) (hfirst.opens hopens))

theorem addFiber (f : Fiber) : Drafts base least node (Mount.addFiber f) := fun _ _ _ => .done

theorem link (parent : FiberId) (ids : List FiberId) :
    Drafts base least node (Mount.link parent ids) := fun _ _ _ => .done

theorem source (v : Option Value) : Drafts base least node (Mount.source v) := fun _ _ _ => .done

theorem ofRun (run : Run α) : Drafts base least node (Mount.ofRun run) := by
  intro m _ _
  unfold Mount.ofRun Attempt.within
  rcases run m.store with ⟨e | a, s⟩ <;> exact .done

theorem appendText (content : String) : Drafts base least node (Mount.appendText node content) :=
  fun m _ hopens => .text (m := m) content hopens .done

/-- A new element may be appended to. -/
theorem appendElement {f : NodeId → Mount β} (tag : String) (attributes : Keyed String)
    (hf : ∀ new, Drafts base least new (f new)) :
    Drafts base least node (Mount.appendElement node tag attributes >>= f) := by
  intro m hsize hopens
  obtain ⟨n, hn, hkind⟩ := @Mounting.exists_appendElement m node tag attributes
  have hnew : Opens base least (m.appendElement node tag attributes).document ⟨m.document.size⟩ :=
    .inr ⟨hsize, n, hn, hkind⟩
  have hgrown := @Mounting.size_appendElement m node tag attributes
  exact .element (m := m) tag attributes hopens
    (hf ⟨m.document.size⟩ (m.appendElement node tag attributes) (by omega) hnew)

variable {mounter : Mounter} (hm : ∀ v node, Drafts base least node (mounter v node))
include hm

theorem item (v : Value) : Drafts base least node (mountItem mounter v node) := by
  unfold mountItem
  split
  · exact (addFiber _).bind fun _ => (hm _ _).bind fun _ => (link _ _).bind fun _ => .pure _
  · exact hm _ _

theorem items (vs : List Value) : Drafts base least node (mountItems mounter node vs) := by
  induction vs with
  | nil => exact .pure _
  | cons v vs ih => exact (item hm v).bind fun _ => ih.bind fun _ => .pure _

theorem content (fiber : FiberId) (v : Option Value) :
    Drafts base least node (mountContent mounter fiber node v) := by
  unfold mountContent
  split
  · exact .pure _
  · split
    · split
      · exact .pure _
      · exact (appendText _).bind fun _ => .pure _
    · exact (hm _ _).bind fun _ => link _ _

theorem host (e : CreatedElement Value) (tag : String) :
    Drafts base least node (mountHost mounter e tag node) :=
  appendElement _ _ fun _ => (source _).bind fun _ => (addFiber _).bind fun _ =>
    (content hm _ _).bind fun _ => .pure _

theorem component (depth : Nat) (e : CreatedElement Value) (f : Function) :
    Drafts base least node (mountComponent mounter depth e f node) :=
  (source _).bind fun _ => (addFiber _).bind fun _ => (ofRun _).bind fun _ =>
    (hm _ _).bind fun _ => (link _ _).bind fun _ => .pure _

theorem step (depth : Nat) (v : Value) : Drafts base least node (mountStep mounter depth v node) := by
  unfold mountStep
  split
  · exact .pure _
  · exact .pure _
  · exact .pure _
  · split
    · exact .pure _
    · exact (appendText _).bind fun _ => (addFiber _).bind fun _ => .pure _
  · exact (appendText _).bind fun _ => (addFiber _).bind fun _ => .pure _
  · exact items hm _
  · split
    · exact host hm _ _
    · exact component hm _ _ _
  · exact .fail _

end Mount.Drafts

theorem mount_drafts (base : NodeId) (least depth n : Nat) (v : Value) (node : NodeId) :
    Mount.Drafts base least node (mount depth n v node) := by
  induction n generalizing v node with
  | zero => exact .fail _
  | succ n ih => exact .step ih depth v

/-- However a rendering ends, it appended nodes to the container and below. -/
theorem renderInto_appends (depth : Nat) (container : NodeId) (v : Value) (s : Store)
    (d : Document) : Appends container d.size (d.clearChildren container)
      (renderInto depth container v s d).2.2 := by
  have hdrafts : Mount.Drafts container d.size container (mountRoot depth container v) :=
    (Mount.Drafts.addFiber _).bind fun _ =>
      (mount_drafts container d.size depth depth v container).bind fun _ => .link _ _
  exact hdrafts ⟨s, d.clearChildren container, .empty⟩
    (Nat.le_of_eq (Document.size_clearChildren container d).symm) (.inl rfl)

theorem size_renderInto (depth : Nat) (container : NodeId) (v : Value) (s : Store) (d : Document) :
    d.size ≤ (renderInto depth container v s d).2.2.size := by
  have hsize := (renderInto_appends depth container v s d).size_le
  rwa [Document.size_clearChildren] at hsize

end MarkupTrace.Render
