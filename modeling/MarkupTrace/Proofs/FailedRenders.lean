import MarkupTrace.Proofs.Histories

/-!
# Renders that fail

A render that fails leaves the committed trees, the commits and the bridges of a session as they are.
Of the documents only that of the renderer changes, and there only what stands in the container: it
is emptied before anything is mounted, and what was mounted before the failure stays in it.
-/

namespace MarkupTrace

open Render

namespace Render.Document

theorem get?_detach (ids : List NodeId) (id : NodeId) (d : Document) :
    (ids.foldl (fun d child => d.modify child fun n => { n with parent := none }) d).get? id =
      (d.get? id).map fun n => { n with parent := if id ∈ ids then none else n.parent } := by
  induction ids generalizing d with
  | nil => simp
  | cons child ids ih =>
    rw [List.foldl_cons, ih, get?_modify]
    by_cases hchild : child = id
    · subst hchild
      cases d.get? child <;> simp
    · simp [hchild, Ne.symm hchild]

/-- Clearing a node detaches its children and changes nothing else. -/
theorem get?_clearChildren (container id : NodeId) (d : Document) :
    (d.clearChildren container).get? id = (d.get? id).map fun n =>
      { n with
        parent := if id ∈ d.children container then none else n.parent
        children := if id = container then [] else n.children } := by
  rw [clearChildren, get?_detach, get?_modify]
  by_cases hid : container = id
  · subst hid
    cases d.get? container <;> simp
  · simp [hid, Ne.symm hid]

end Render.Document

namespace Live.Session

/-- What a failed render leaves of a document: nothing that was there is changed but that the children
of the container are detached. What the container holds then is new. -/
structure Spared (container : NodeId) (d d' : Document) : Prop where
  size : d.size ≤ d'.size
  others : ∀ id : NodeId, id.index < d.size → id ≠ container → d'.get? id = (d.get? id).map fun n =>
    { n with parent := if id ∈ d.children container then none else n.parent }
  container : ∃ added : List NodeId, (∀ c ∈ added, d.size ≤ c.index) ∧
    d'.get? container = (d.get? container).map fun n => { n with
      parent := if container ∈ d.children container then none else n.parent
      children := added }

theorem spared_renderInto (depth : Nat) {container : NodeId} (v : Value) (store : Store)
    {d : Document} (hcontainer : container.index < d.size) :
    Spared container d (renderInto depth container v store d).2.2 := by
  have happends := renderInto_appends depth container v store d
  have hsize := Document.size_clearChildren container d
  refine ⟨size_renderInto depth container v store d, ?_, ?_⟩
  · intro id hid hne
    obtain ⟨added, hadded, -, hclosed⟩ := happends.extended (Nat.lt_of_lt_of_eq hid hsize.symm)
    rw [hadded, hclosed hid hne, Document.get?_clearChildren]
    cases d.get? id <;> simp [hne]
  · obtain ⟨added, hadded, hnew, -⟩ := happends.extended (Nat.lt_of_lt_of_eq hcontainer hsize.symm)
    rw [hsize] at hnew
    refine ⟨added, hnew, ?_⟩
    rw [hadded, Document.get?_clearChildren]
    cases d.get? container <;> simp

/-- What a changed document leaves of a session. -/
theorem withDocument_eq (id : RendererId) (d : Document) (store : Store) (s : Session) :
    (s.withDocument id d store).commits = s.commits ∧
      (s.withDocument id d store).bridges = s.bridges ∧
      (s.withDocument id d store).calls = s.calls ∧
      (s.withDocument id d store).stack = s.stack := by
  unfold withDocument modifyRenderer
  split <;> exact ⟨rfl, rfl, rfl, rfl⟩

theorem renderer?_withDocument (id other : RendererId) (d : Document) (store : Store) (s : Session) :
    (s.withDocument id d store).renderer? other =
      if id = other then (s.renderer? other).map (fun r => { r with document := d })
      else s.renderer? other :=
  renderer?_modifyRenderer id other _ s

/-- A render that fails, after whatever history and whatever it had mounted by then, changes no
committed tree, no commit, no bridge and no other renderer. If it is that of the root's own renderer,
then of its document only what stood in the container is lost. -/
theorem failed_render_spares_the_rest {s s' : Session} (h : s.Reached) {root : RootId} {r : Root}
    (hroot : s.root? root = some r) {depth : Nat} {id : RendererId} {v : Value}
    {e : Stop RenderError} (hrender : s.render depth id root v = (.error e, s')) :
    s'.roots = s.roots ∧ s'.commits = s.commits ∧ s'.bridges = s.bridges ∧ s'.calls = s.calls ∧
      s'.stack = s.stack ∧
      (∀ other, (s'.renderer? other).map (·.watcher) = (s.renderer? other).map (·.watcher)) ∧
      (∀ other, other ≠ id → s'.document other = s.document other) ∧
      (id = r.owner → Spared r.container (s.document id) (s'.document id)) := by
  obtain ⟨result, store, d, hinto, hresult⟩ := render_of_root? hroot depth id v
  rcases hresult with ⟨e', -, herror⟩ | ⟨tree, -, hok⟩
  · rw [hrender] at herror
    cases herror
    obtain ⟨hcommits, hbridges, hcalls, hstack⟩ := withDocument_eq id d store s
    refine ⟨roots_modifyRenderer id _ s, hcommits, hbridges, hcalls, hstack, ?_, ?_, ?_⟩
    · intro other
      rw [renderer?_withDocument]
      split
      · rw [Option.map_map]
        rfl
      · rfl
    · intro other hother
      rw [document, renderer?_withDocument, if_neg (Ne.symm hother), document]
    · rintro rfl
      have hcontainer := h.hasContainers r (List.mem_of_getElem? hroot)
      have hspared := spared_renderInto depth v s.store hcontainer
      rw [hinto] at hspared
      cases hrenderer : s.renderer? r.owner with
      | none =>
        rw [document, hrenderer] at hcontainer
        exact absurd hcontainer (Nat.not_lt_zero _)
      | some renderer =>
        rw [document_withDocument hrenderer]
        exact hspared
  · rw [hrender] at hok
    cases hok

/-- A session in which an element was rendered into a root. -/
def oneRendered : Session := (oneRoot.render 4 ⟨1⟩ ⟨0⟩ nestedElement).2

/-- An element with a text and an object in it, the latter of which cannot be rendered. -/
def brokenElement : Value :=
  .element ⟨5, .host "i", 6, [("children", .array 7 [.text "y", .object 8 []])], none, none⟩

theorem oneRendered_reached : oneRendered.Reached := by
  have hrenderer : (ofStore .empty).addRenderer.2.renderer? ⟨1⟩ = some ⟨.empty, none⟩ := rfl
  exact ((Reached.start .empty).addRenderer.createRoot hrenderer).render 4 ⟨1⟩ ⟨0⟩ nestedElement

/-- The tree of the first rendering stays where a second one fails. -/
theorem failed_render_spares_the_rest_second : ∃ r e s', oneRendered.Reached ∧
    oneRendered.root? ⟨0⟩ = some r ∧ r.owner = ⟨1⟩ ∧
    oneRendered.render 4 ⟨1⟩ ⟨0⟩ brokenElement = (.error e, s') ∧ s'.roots = oneRendered.roots ∧
    Spared r.container (oneRendered.document ⟨1⟩) (s'.document ⟨1⟩) := by
  obtain ⟨r, hroot, howner⟩ : ∃ r, oneRendered.root? ⟨0⟩ = some r ∧ r.owner = ⟨1⟩ := ⟨_, rfl, rfl⟩
  obtain ⟨e, s', hrender⟩ : ∃ e s',
      oneRendered.render 4 ⟨1⟩ ⟨0⟩ brokenElement = (.error e, s') := ⟨_, _, rfl⟩
  obtain ⟨hroots, -, -, -, -, -, -, hspared⟩ :=
    failed_render_spares_the_rest oneRendered_reached hroot hrender
  exact ⟨r, e, s', oneRendered_reached, hroot, howner, hrender, hroots, hspared howner.symm⟩

/-- The container does not hold any more what it held before the render that failed. -/
theorem failed_render_empties_container : ∃ r tree e s', oneRendered.Reached ∧
    oneRendered.root? ⟨0⟩ = some r ∧ r.tree = some tree ∧
    oneRendered.render 4 ⟨1⟩ ⟨0⟩ brokenElement = (.error e, s') ∧ s'.root? ⟨0⟩ = some r ∧
    (s'.document ⟨1⟩).children r.container ≠ (oneRendered.document ⟨1⟩).children r.container ∧
    oneRendered.html ⟨0⟩ = "<p>a<b>c</b></p>" ∧ s'.html ⟨0⟩ = "<i>y</i>" := by
  refine ⟨_, _, _, _, oneRendered_reached, rfl, rfl, rfl, rfl, ?_, ?_, ?_⟩
  · decide
  · decide
  · decide

end Live.Session

end MarkupTrace
