import MarkupTrace.Proofs.Containers
import MarkupTrace.Proofs.FailedLoading
import MarkupTrace.Proofs.RenderedAttribution

/-!
# What a tree rests on

The structure of a fiber tree depends on the tree itself, on what the nodes behind its fibers have for
children, and on what was recorded for their sources. All of this was there when the tree was
mounted. What is mounted or evaluated later, and however that ends, gives no record that is there
anything more, and of the nodes that are there only containers get or lose children; and behind a
fiber there is never a container. So the structure of a tree stays what it was.
-/

namespace MarkupTrace.Render

open Eval Store Structure

/-! ## Documents -/

namespace Document

theorem isVisual_eq_true {id : NodeId} {d : Document} :
    d.isVisual id = true ↔ ∃ n, d.get? id = some n ∧ n.kind ≠ .container := by
  unfold isVisual
  cases d.get? id with
  | none => simp
  | some n => simp [Node.isVisual]

theorem KeepsKinds.trans {d d₁ d₂ : Document} (h₁ : d.KeepsKinds d₁) (h₂ : d₁.KeepsKinds d₂) :
    d.KeepsKinds d₂ := by
  intro id n hn
  obtain ⟨n₁, hn₁, hkind₁⟩ := h₁ id n hn
  obtain ⟨n₂, hn₂, hkind₂⟩ := h₂ id n₁ hn₁
  exact ⟨n₂, hn₂, hkind₂.trans hkind₁⟩

theorem KeepsKinds.isVisual {d d' : Document} (h : d.KeepsKinds d') {id : NodeId}
    (hid : d.isVisual id = true) : d'.isVisual id = true := by
  obtain ⟨n, hn, hkind⟩ := isVisual_eq_true.mp hid
  obtain ⟨n', hn', hkind'⟩ := h id n hn
  exact isVisual_eq_true.mpr ⟨n', hn', hkind' ▸ hkind⟩

/-- Elements and texts stay what they are and keep their children. -/
def Lasts (d d' : Document) : Prop :=
  ∀ id, d.isVisual id = true → d'.isVisual id = true ∧ d'.children id = d.children id

theorem Lasts.refl (d : Document) : d.Lasts d := fun _ hid => ⟨hid, rfl⟩

theorem Lasts.trans {d d₁ d₂ : Document} (h₁ : d.Lasts d₁) (h₂ : d₁.Lasts d₂) : d.Lasts d₂ := by
  intro id hid
  obtain ⟨hid₁, hchildren₁⟩ := h₁ id hid
  obtain ⟨hid₂, hchildren₂⟩ := h₂ id hid₁
  exact ⟨hid₂, hchildren₂.trans hchildren₁⟩

theorem lasts_createContainer (d : Document) : d.Lasts d.createContainer.2 := by
  intro id hid
  refine ⟨d.keepsKinds_createContainer.isVisual hid, ?_⟩
  obtain ⟨n, hn, -⟩ := isVisual_eq_true.mp hid
  rw [createContainer, children, get?_add_of_lt (Array.getElem?_eq_some_iff.mp hn).1, children]

/-- However a rendering into a container ends. -/
theorem lasts_renderInto (depth : Nat) {container : NodeId} (v : Value) (s : Store) {d : Document}
    (hcontainer : ∃ n, d.get? container = some n ∧ n.kind = .container) :
    d.Lasts (renderInto depth container v s d).2.2 := by
  intro id hid
  refine ⟨(keepsKinds_renderInto depth container v s d).isVisual hid, ?_⟩
  obtain ⟨n, hn, hkind⟩ := isVisual_eq_true.mp hid
  obtain ⟨c, hc, hkind'⟩ := hcontainer
  have hspared := Live.Session.spared_renderInto depth v s (Array.getElem?_eq_some_iff.mp hc).1
  have hne : id ≠ container := by
    rintro rfl
    rw [hc] at hn
    cases hn
    exact hkind hkind'
  have hget := hspared.others id (Array.getElem?_eq_some_iff.mp hn).1 hne
  rw [children, hget, Option.map_map, children]
  rfl

end Document

/-! ## Trees -/

/-- The node behind a fiber is there and is no container, and the record of its source is there. -/
structure Fiber.Backed (s : Store) (d : Document) (f : Fiber) : Prop where
  node : ∀ id, f.node = some id → d.isVisual id = true
  source : ∀ r, f.source = some r → r.index < s.records.size

theorem Fiber.backed_new {s : Store} {d : Document} {kind : FiberKind} {node : Option NodeId}
    {props : Value} (hnode : ∀ id, node = some id → d.isVisual id = true) :
    (Fiber.new kind node props).Backed s d := by
  refine ⟨hnode, ?_⟩
  intro r hr
  cases hr

theorem Fiber.backed_virtual (s : Store) (d : Document) (kind : FiberKind) (props : Value) :
    (Fiber.new kind none props).Backed s d := backed_new nofun

theorem Fiber.Backed.mono {s s' : Store} {d d' : Document} {f : Fiber} (h : f.Backed s d)
    (hs : s.records.size ≤ s'.records.size) (hd : d.KeepsKinds d') : f.Backed s' d' :=
  ⟨fun id hid => hd.isVisual (h.node id hid), fun r hr => (h.source r hr).trans_le hs⟩

namespace FiberTree

/-- So it is with all fibers of a tree. -/
def Backed (s : Store) (d : Document) (t : FiberTree) : Prop :=
  ∀ id f, t.get? id = some f → f.Backed s d

variable {s s' : Store} {d d' : Document} {t : FiberTree}

theorem Backed.mono (h : t.Backed s d) (hs : s.records.size ≤ s'.records.size)
    (hd : d.KeepsKinds d') : t.Backed s' d' := fun id f hf => (h id f hf).mono hs hd

theorem backed_empty (s : Store) (d : Document) : empty.Backed s d := by
  intro id f hf
  simp [empty, get?] at hf

theorem Backed.add (h : t.Backed s d) {f : Fiber} (hf : f.Backed s d) : (t.add f).2.Backed s d := by
  intro id g hg
  rw [FiberTree.add, get?, Array.getElem?_push] at hg
  split_ifs at hg
  · cases hg
    exact hf
  · exact h id g hg

theorem Backed.modify (h : t.Backed s d) (id : FiberId) {g : Fiber → Fiber}
    (hnode : ∀ f, (g f).node = f.node) (hsource : ∀ f, (g f).source = f.source) :
    (t.modify id g).Backed s d := by
  intro other f hf
  rw [get?_modify] at hf
  split_ifs at hf
  · obtain ⟨f', hf', rfl⟩ := Option.map_eq_some_iff.mp hf
    have hbacked := h other f' hf'
    exact ⟨fun n hn => hbacked.node n (hnode f' ▸ hn), fun r hr => hbacked.source r (hsource f' ▸ hr)⟩
  · exact h other f hf

theorem Backed.linkSiblings (h : t.Backed s d) (parent : FiberId) (ids : List FiberId) :
    (t.linkSiblings parent ids).Backed s d := by
  induction ids generalizing t with
  | nil => exact h
  | cons id ids ih => exact ih (h.modify id (fun _ => rfl) fun _ => rfl)

theorem Backed.link (h : t.Backed s d) (parent : FiberId) (ids : List FiberId) :
    (t.link parent ids).Backed s d :=
  (h.linkSiblings parent ids).modify parent (fun _ => rfl) fun _ => rfl

end FiberTree

section

variable {s s' : Store} {d d' : Document} {t : FiberTree} (ht : t.Backed s d)
  (hs : s.Grows none s') (hd : d.Lasts d')
include ht hs hd

/-- By induction on the depth. Only the children of nodes and what was recorded come from outside of the
tree. -/
theorem walkTo_of_backed (depth : Nat) (id : FiberId) (map : ExpressionMap) :
    walkTo s' d' t depth id map = walkTo s d t depth id map := by
  induction depth generalizing id map with
  | zero => rfl
  | succ depth ih =>
    have hbelow : ∀ map, ((t.children id).flatMap fun child => walkTo s' d' t depth child map) =
        (t.children id).flatMap fun child => walkTo s d t depth child map := by
      intro map
      congr 1
      funext child
      exact ih child map
    rw [walkTo, walkTo]
    cases hf : t.get? id with
    | none => rfl
    | some f =>
      have hbacked := ht id f hf
      have hrecorded : recordedFor s' f = recordedFor s f := by
        unfold recordedFor
        cases hsource : f.source with
        | none => rfl
        | some r => exact hs.recorded (hbacked.source r hsource) (by simp)
      dsimp only
      rw [hrecorded, hbelow, hbelow]
      cases hnode : f.node with
      | none => rfl
      | some node =>
        dsimp only
        rw [visualEntry, hrecorded, (hd node (hbacked.node node hnode)).2, visualEntry]

theorem ofTree?_of_backed : ofTree? s' d' t = ofTree? s d t := by
  unfold ofTree? walk
  simp only [walkTo_of_backed ht hs hd]

end

/-- There is a structure unless nothing was rendered. -/
theorem ofTree?_eq (s : Store) (d : Document) (t : FiberTree) : ofTree? s d t =
    if t.children FiberTree.rootId = [] then none
    else some (walk s d t FiberTree.rootId .empty) := by
  unfold ofTree? FiberTree.root?
  cases hsize : t.fibers.size with
  | zero =>
    have hempty : t.fibers.isEmpty = true := by simpa [Array.isEmpty] using hsize
    have hnone : t.children FiberTree.rootId = [] := by
      rw [FiberTree.children, FiberTree.size, hsize, FiberTree.chainTo]
    rw [if_pos hempty, if_pos hnone]
    rfl
  | succ n =>
    have hempty : t.fibers.isEmpty = false := by simp [Array.isEmpty, hsize]
    rw [FiberTree.children, FiberTree.size, hsize]
    simp only [hempty, Bool.false_eq_true, if_false, Option.bind_eq_bind, Option.bind_some]
    cases t.get? FiberTree.rootId with
    | none => simp [FiberTree.chainTo]
    | some f => cases hchild : f.child <;> simp [hchild, FiberTree.chainTo]

/-! ## Values inside values -/

end MarkupTrace.Render

namespace MarkupTrace.Value.Usable

variable {Γ : Typing} {s : Store}

theorem items {identity : Nat} {vs : List Value} (h : (Value.array identity vs).Usable Γ s) :
    ∀ v ∈ vs, v.Usable Γ s := by
  obtain ⟨hclean, hground⟩ := h
  cases hclean with
  | array _ hclean =>
    cases hground with
    | array _ hground => exact fun v hv => ⟨hclean v hv, hground v hv⟩

theorem object {identity : Nat} {fields : Fields} (h : ∀ x ∈ fields, x.2.Usable Γ s) :
    (Value.object identity fields).Usable Γ s :=
  ⟨.object identity fun x hx => (h x hx).clean, .object identity fun x hx => (h x hx).grounded⟩

theorem parts {e : CreatedElement Value} (h : (Value.element e).Usable Γ s) :
    (∀ x ∈ e.props, x.2.Usable Γ s) ∧ ∀ v, e.source = some v → v.Usable Γ s := by
  obtain ⟨hclean, hground⟩ := h
  cases hclean with
  | element _ hprops _ hsource =>
    cases hground with
    | element hprops' _ hsource' =>
      exact ⟨fun x hx => ⟨hprops x hx, hprops' x hx⟩, fun v hv => ⟨hsource v hv, hsource' v hv⟩⟩

theorem callee {e : CreatedElement Value} (h : (Value.element e).Usable Γ s) {f : Function}
    (hf : e.type = .component f) : (Value.function f).Clean (s.Home Γ) := by
  cases h.clean with
  | element type _ _ _ => exact .function (type f hf)

end MarkupTrace.Value.Usable

namespace MarkupTrace.Render

open Eval Store Structure

/-! ## States of a mounting -/

/-- A record that is a source is shared, or else it is new. -/
theorem sourceRecord_cases (v : Option Value) (s : Store) :
    (sourceRecord v s).2 = s ∧ (∀ r, (sourceRecord v s).1 = some r → v = some (.location r)) ∨
      ∃ place, sourceRecord v s = (some (s.newRecord place).1, (s.newRecord place).2) := by
  unfold sourceRecord
  split
  · refine .inl ⟨rfl, ?_⟩
    intro r hr
    cases hr
    rfl
  · split
    · exact .inr ⟨_, rfl⟩
    · exact .inl ⟨rfl, nofun⟩
  · exact .inl ⟨rfl, nofun⟩

namespace Mounting

variable {Γ : Typing} {m m₁ m₂ : Mounting}

theorem exists_appendText {parent : NodeId} (content : String) : ∃ n,
    (m.appendText parent content).document.get? ⟨m.document.size⟩ = some n ∧ n.kind = .text := by
  have hnew : (m.document.createText content).2.get? ⟨m.document.size⟩ =
      some (.new .text content) := Document.get?_add_self _ _
  rw [Mounting.appendText, Document.get?_appendChild, Document.get?_modify, if_pos rfl, hnew]
  split <;> exact ⟨_, rfl, rfl⟩

/-- The store is in order, and the fibers made so far have what they rest on. -/
structure Good (Γ : Typing) (m : Mounting) : Prop where
  sound : m.store.Sound Γ
  grounded : m.store.Grounded
  backed : m.tree.Backed m.store m.document

/-- A good state that holds what another one held. -/
structure Advances (Γ : Typing) (m m' : Mounting) : Prop where
  store : Settles Γ m.store m'.store
  kinds : m.document.KeepsKinds m'.document
  backed : m'.tree.Backed m'.store m'.document

namespace Advances

theorem good (h : m.Advances Γ m₁) : m₁.Good Γ := ⟨h.store.sound, h.store.grounded, h.backed⟩

theorem refl (h : m.Good Γ) : m.Advances Γ m :=
  ⟨.refl h.sound h.grounded, .refl m.document, h.backed⟩

theorem trans (h₁ : m.Advances Γ m₁) (h₂ : m₁.Advances Γ m₂) : m.Advances Γ m₂ :=
  ⟨h₁.store.trans h₂.store, h₁.kinds.trans h₂.kinds, h₂.backed⟩

theorem usable (h : m.Advances Γ m₁) {v : Value} (hv : v.Usable Γ m.store) :
    v.Usable Γ m₁.store := hv.grow h.store.grows

/-- Only the store changed. -/
theorem of_settles {s : Store} (h : m.Good Γ) (hs : Settles Γ m.store s) :
    m.Advances Γ { m with store := s } :=
  ⟨hs, .refl m.document, h.backed.mono hs.grows.size (.refl m.document)⟩

/-- A node was appended. -/
theorem of_appends {base : NodeId} {least : Nat} {d : Document} (h : m.Good Γ)
    (hd : Appends base least m.document d) : m.Advances Γ { m with document := d } := by
  have hkinds : m.document.KeepsKinds d := by
    intro id n hn
    obtain ⟨added, hadded, -⟩ := hd.extended (Array.getElem?_eq_some_iff.mp hn).1
    rw [hn] at hadded
    exact ⟨_, hadded, rfl⟩
  exact ⟨.refl h.sound h.grounded, hkinds, h.backed.mono le_rfl hkinds⟩

end Advances

end Mounting

/-! ## However it ends -/

/-- A mounting from this state advances, and what it gives fulfils `Q` in the state that it leaves. -/
def Mount.Sustains {α : Type} (Γ : Typing) (m : Mounting) (Q : Mounting → α → Prop) (x : Mount α) :
    Prop :=
  m.Advances Γ (x m).2 ∧ ∀ a, (x m).1 = .ok a → Q (x m).2 a

namespace Mount.Sustains

variable {α β : Type} {Γ : Typing} {m : Mounting} {P : Mounting → α → Prop}
  {Q : Mounting → β → Prop}

theorem pure (h : m.Good Γ) {a : α} (ha : P m a) : Sustains Γ m P (Pure.pure a) := by
  refine ⟨.refl h, ?_⟩
  intro b hb
  cases hb
  exact ha

theorem fail (h : m.Good Γ) (e : Stop RenderError) : Sustains Γ m P (Attempt.fail e) :=
  ⟨.refl h, nofun⟩

theorem bind {x : Mount α} {f : α → Mount β} (hx : Sustains Γ m P x)
    (hf : ∀ a m₁, m.Advances Γ m₁ → P m₁ a → Sustains Γ m₁ Q (f a)) :
    Sustains Γ m Q (x >>= f) := by
  obtain ⟨hadvances, hgiven⟩ := hx
  unfold Sustains
  rw [Attempt.bind_apply]
  generalize x m = result at hadvances hgiven ⊢
  rcases result with ⟨e | a, m₁⟩
  · exact ⟨hadvances, nofun⟩
  · obtain ⟨hadvances', hgiven'⟩ := hf a m₁ hadvances (hgiven a rfl)
    exact ⟨hadvances.trans hadvances', hgiven'⟩

/-! ### Steps of a mounting -/

theorem addFiber (h : m.Good Γ) {f : Fiber} (hf : f.Backed m.store m.document) :
    Sustains Γ m (fun _ _ => True) (Mount.addFiber f) :=
  ⟨⟨.refl h.sound h.grounded, .refl m.document, h.backed.add hf⟩, fun _ _ => trivial⟩

theorem link (h : m.Good Γ) (parent : FiberId) (ids : List FiberId) :
    Sustains Γ m (fun _ _ => True) (Mount.link parent ids) :=
  ⟨⟨.refl h.sound h.grounded, .refl m.document, h.backed.link parent ids⟩, fun _ _ => trivial⟩

theorem source (h : m.Good Γ) {v : Option Value} (hv : ∀ w, v = some w → w.Usable Γ m.store) :
    Sustains Γ m (fun m o => ∀ r, o = some r → r.index < m.store.records.size)
      (Mount.source v) := by
  have hsettles : Settles Γ m.store (sourceRecord v m.store).2 ∧
      ∀ r, (sourceRecord v m.store).1 = some r →
        r.index < (sourceRecord v m.store).2.records.size := by
    rcases sourceRecord_cases v m.store with ⟨hstore, hshared⟩ | ⟨place, hnew⟩
    · rw [hstore]
      refine ⟨.refl h.sound h.grounded, ?_⟩
      intro r hr
      cases (hv _ (hshared r hr)).grounded with
      | location made => exact made
    · have hkeeps := newRecord_keeps h.sound place
      rw [hnew]
      refine ⟨⟨hkeeps.sound, h.grounded.newRecord place, hkeeps.grows, rfl⟩, ?_⟩
      intro r hr
      cases hr
      simp [newRecord]
  exact ⟨.of_settles h hsettles.1, fun o ho r hr => hsettles.2 r ((Except.ok.inj ho).trans hr)⟩

theorem call (h : m.Good Γ) (depth : Nat) {callee : Value} {arguments : List Value}
    (hcallee : callee.Clean (m.store.Home Γ)) (harguments : ∀ v ∈ arguments, v.Usable Γ m.store) :
    Sustains Γ m (fun m v => v.Usable Γ m.store)
      (Mount.ofRun (Eval.call depth callee arguments)) := by
  obtain ⟨hsettles, hresult⟩ := call_settles depth h.sound h.grounded hcallee harguments
  unfold Sustains Mount.ofRun Attempt.within
  generalize Eval.call depth callee arguments m.store = result at hsettles hresult ⊢
  rcases result with ⟨e | v, s⟩
  · exact ⟨.of_settles h hsettles, nofun⟩
  · refine ⟨.of_settles h hsettles, ?_⟩
    intro w hw
    cases hw
    exact hresult v rfl

theorem appendText (h : m.Good Γ) (parent : NodeId) (content : String) :
    Sustains Γ m (fun m node => m.document.isVisual node = true)
      (Mount.appendText parent content) := by
  have happends : Appends parent 0 m.document (m.appendText parent content).document :=
    .text (m := m) content (.inl rfl) .done
  refine ⟨.of_appends h happends, ?_⟩
  intro node hnode
  cases hnode
  obtain ⟨n, hn, hkind⟩ := @Mounting.exists_appendText m parent content
  exact Document.isVisual_eq_true.mpr ⟨n, hn, by rw [hkind]; decide⟩

theorem appendElement (h : m.Good Γ) (parent : NodeId) (tag : String) (attributes : Keyed String) :
    Sustains Γ m (fun m node => m.document.isVisual node = true)
      (Mount.appendElement parent tag attributes) := by
  have happends : Appends parent 0 m.document (m.appendElement parent tag attributes).document :=
    .element (m := m) tag attributes (.inl rfl) .done
  refine ⟨.of_appends h happends, ?_⟩
  intro node hnode
  cases hnode
  obtain ⟨n, hn, hkind⟩ := @Mounting.exists_appendElement m parent tag attributes
  exact Document.isVisual_eq_true.mpr ⟨n, hn, by rw [hkind]; decide⟩

theorem text (h : m.Good Γ) (v : Value) (content : String) (parent : NodeId) :
    Sustains Γ m (fun _ _ => True) (mountText v content parent) :=
  (appendText h parent content).bind fun node m₁ hm hnode =>
    (addFiber hm.good (Fiber.backed_new fun id hid => by cases hid; exact hnode)).bind
      fun _ _ hm' _ => pure hm'.good trivial

/-! ### Mounting values -/

section

variable {mounter : Mounter} (hm : ∀ v node m, m.Good Γ → v.Usable Γ m.store →
  Sustains Γ m (fun _ _ => True) (mounter v node))
include hm

theorem item (h : m.Good Γ) {v : Value} (hv : v.Usable Γ m.store) (parent : NodeId) :
    Sustains Γ m (fun _ _ => True) (mountItem mounter v parent) := by
  unfold mountItem
  split
  · refine (addFiber h (Fiber.backed_virtual _ _ _ _)).bind fun fragment m₁ h₁ _ => ?_
    refine (hm _ parent m₁ h₁.good (h₁.usable hv)).bind fun ids m₂ h₂ _ => ?_
    exact (link h₂.good _ _).bind fun _ _ h₃ _ => pure h₃.good trivial
  · exact hm v parent m h hv

theorem items (h : m.Good Γ) {vs : List Value} (hvs : ∀ v ∈ vs, v.Usable Γ m.store)
    (parent : NodeId) : Sustains Γ m (fun _ _ => True) (mountItems mounter parent vs) := by
  induction vs generalizing m with
  | nil => exact pure h trivial
  | cons v vs ih =>
    rw [List.forall_mem_cons] at hvs
    refine (item hm h hvs.1 parent).bind fun _ m₁ h₁ _ => ?_
    refine (ih h₁.good fun w hw => h₁.usable (hvs.2 w hw)).bind fun _ _ h₂ _ => ?_
    exact pure h₂.good trivial

theorem content (h : m.Good Γ) (fiber : FiberId) (node : NodeId) {v : Option Value}
    (hv : ∀ w, v = some w → w.Usable Γ m.store) :
    Sustains Γ m (fun _ _ => True) (mountContent mounter fiber node v) := by
  unfold mountContent
  split
  · exact pure h trivial
  · split
    · split_ifs
      · exact pure h trivial
      · exact (appendText h _ _).bind fun _ _ h₁ _ => pure h₁.good trivial
    · exact (hm _ _ m h (hv _ rfl)).bind fun _ _ h₁ _ => link h₁.good _ _

theorem host (h : m.Good Γ) {e : CreatedElement Value} (he : (Value.element e).Usable Γ m.store)
    (tag : String) (parent : NodeId) :
    Sustains Γ m (fun _ _ => True) (mountHost mounter e tag parent) := by
  obtain ⟨hprops, hsource⟩ := he.parts
  refine (appendElement h parent tag _).bind fun node m₁ h₁ hnode => ?_
  refine (source h₁.good fun w hw => h₁.usable (hsource w hw)).bind fun o m₂ h₂ ho => ?_
  -- The new element is behind the fiber, and its source was made or shared just before.
  have hfiber : Fiber.Backed m₂.store m₂.document
      { Fiber.new .element (some node) (Value.props e) with type := some e.type, source := o } := by
    refine ⟨?_, ho⟩
    intro id hid
    cases hid
    exact h₂.kinds.isVisual hnode
  refine (addFiber h₂.good hfiber).bind fun fiber m₃ h₃ _ => ?_
  refine (content hm h₃.good fiber node fun w hw => ?_).bind fun _ _ h₄ _ => pure h₄.good trivial
  exact h₃.usable (h₂.usable (h₁.usable (hprops _ (Keyed.mem_of_get? hw))))

theorem component (h : m.Good Γ) (depth : Nat) {e : CreatedElement Value} {f : Function}
    (he : (Value.element e).Usable Γ m.store) (hf : e.type = .component f) (parent : NodeId) :
    Sustains Γ m (fun _ _ => True) (mountComponent mounter depth e f parent) := by
  obtain ⟨hprops, hsource⟩ := he.parts
  refine (source h hsource).bind fun o m₁ h₁ ho => ?_
  refine (addFiber h₁.good ⟨fun id hid => (by cases hid), ho⟩).bind fun fiber m₂ h₂ _ => ?_
  have hadvances := h₁.trans h₂
  have hcallee : (Value.function f).Clean (m₂.store.Home Γ) :=
    (he.callee hf).mono fun _ _ hi => hi.grow hadvances.store.grows
  have hargument : ∀ v ∈ [Value.props e], v.Usable Γ m₂.store := by
    intro v hv
    cases List.mem_singleton.mp hv
    exact hadvances.usable (.object hprops)
  refine (call h₂.good depth hcallee hargument).bind fun rendered m₃ h₃ hrendered => ?_
  refine (hm rendered parent m₃ h₃.good hrendered).bind fun _ _ h₄ _ => ?_
  exact (link h₄.good _ _).bind fun _ _ h₅ _ => pure h₅.good trivial

theorem step (depth : Nat) (h : m.Good Γ) {v : Value} (hv : v.Usable Γ m.store) (parent : NodeId) :
    Sustains Γ m (fun _ _ => True) (mountStep mounter depth v parent) := by
  unfold mountStep
  split
  · exact pure h trivial
  · exact pure h trivial
  · exact pure h trivial
  · split_ifs
    · exact pure h trivial
    · exact text h _ _ _
  · exact text h _ _ _
  · exact items hm h hv.items parent
  · split
    · exact host hm h hv _ parent
    · rename_i f hf
      exact component hm h depth hv hf parent
  · exact fail h _

end

end Mount.Sustains

theorem mount_sustains (Γ : Typing) (depth n : Nat) (v : Value) (node : NodeId) (m : Mounting)
    (h : m.Good Γ) (hv : v.Usable Γ m.store) :
    Mount.Sustains Γ m (fun _ _ => True) (mount depth n v node) := by
  induction n generalizing v node m with
  | zero => exact .fail h _
  | succ n ih => exact .step ih depth h hv node

/-- However rendering a value ends, the store settles, and a tree that it gives has what it rests
on. -/
theorem renderInto_settles {Γ : Typing} (depth : Nat) (container : NodeId) {v : Value} {s : Store}
    (d : Document) (hs : s.Sound Γ) (hground : s.Grounded) (hv : v.Usable Γ s) :
    Settles Γ s (renderInto depth container v s d).2.1 ∧
      ∀ t, (renderInto depth container v s d).1 = .ok t →
        t.Backed (renderInto depth container v s d).2.1 (renderInto depth container v s d).2.2 := by
  have hstart : Mounting.Good Γ ⟨s, d.clearChildren container, .empty⟩ :=
    ⟨hs, hground, FiberTree.backed_empty _ _⟩
  have hmount : Mount.Sustains Γ ⟨s, d.clearChildren container, .empty⟩ (fun _ _ => True)
      (mountRoot depth container v) := by
    refine (Mount.Sustains.addFiber hstart (Fiber.backed_virtual _ _ _ _)).bind fun root m₁ h₁ _ => ?_
    exact (mount_sustains Γ depth depth v container m₁ h₁.good (h₁.usable hv)).bind
      fun _ _ h₂ _ => .link h₂.good _ _
  obtain ⟨hadvances, -⟩ := hmount
  unfold renderInto
  generalize mountRoot depth container v ⟨s, d.clearChildren container, .empty⟩ = result
    at hadvances ⊢
  rcases result with ⟨e | u, m⟩
  · exact ⟨hadvances.store, nofun⟩
  · refine ⟨hadvances.store, ?_⟩
    intro t ht
    cases ht
    exact hadvances.backed

end MarkupTrace.Render
