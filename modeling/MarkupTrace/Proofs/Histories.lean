import MarkupTrace.Proofs.MirroredStructure
import MarkupTrace.Proofs.PartialMounts

/-!
# Structures after any history

In a session, whatever was rendered before and whether it succeeded, a root has a container in the
document of its renderer. So what a root's renderer renders into it is mirrored by the structure
that a bridge finds right after.
-/

namespace MarkupTrace

open Render Structure

/-! ## Histories -/

namespace Live.Session

/-- The sessions that come about. Rendering may fail, and it may be any renderer's into any root.
Between two changes anything may be evaluated. -/
inductive Reached : Session → Prop
  | start (store : Store) : Reached (.ofStore store)
  | evaluate {s : Session} (h : Reached s) (store : Store) : Reached { s with store }
  | addRenderer {s : Session} (h : Reached s) : Reached s.addRenderer.2
  | createRoot {s : Session} {id : RendererId} {r : Renderer} (h : Reached s)
      (found : s.renderer? id = some r) : Reached (s.createRoot id).2
  | render {s : Session} (h : Reached s) (depth : Nat) (id : RendererId) (root : RootId) (v : Value) :
      Reached (s.render depth id root v).2
  | attach {s : Session} (h : Reached s) : Reached s.attach.2
  | modifyBridge {s : Session} (h : Reached s) (id : BridgeId) (f : Bridge → Bridge) :
      Reached (s.modifyBridge id f)
  | finish {s : Session} (h : Reached s) (id : BridgeId) : Reached (finish id s).2

/-- The containers of all roots are in the documents of their renderers. -/
def HasContainers (s : Session) : Prop :=
  ∀ r ∈ s.roots, r.container.index < (s.document r.owner).size

theorem renderer?_modifyRenderer (id other : RendererId) (f : Renderer → Renderer) (s : Session) :
    (s.modifyRenderer id f).renderer? other =
      if id = other then (s.renderer? other).map f else s.renderer? other := by
  obtain ⟨i⟩ := id
  obtain ⟨j⟩ := other
  unfold modifyRenderer renderer?
  by_cases hi : i = 0
  · subst hi
    by_cases hj : 0 = j
    · subst hj
      simp
    · simp [hj]
  · by_cases hj : j = 0
    · simp [hi, hj]
    · have heq : i - 1 = j - 1 ↔ i = j := by omega
      by_cases hij : i = j <;> simp [hi, hj, heq, hij]

/-- The documents of a session are no smaller than those of an earlier one. -/
def NoSmaller (s s' : Session) : Prop := ∀ id, (s.document id).size ≤ (s'.document id).size

theorem noSmaller_modifyRenderer {s : Session} {id : RendererId} {f : Renderer → Renderer}
    (hf : ∀ r, s.renderer? id = some r → r.document.size ≤ (f r).document.size) :
    NoSmaller s (s.modifyRenderer id f) := by
  intro other
  rw [document, document, renderer?_modifyRenderer]
  split
  · rename_i heq
    subst heq
    cases hr : s.renderer? id with
    | none => exact Nat.le_refl _
    | some r => exact hf r hr
  · exact Nat.le_refl _

theorem document_of_renderer? {s : Session} {id : RendererId} {r : Renderer}
    (h : s.renderer? id = some r) : s.document id = r.document := by
  rw [document, h]
  rfl

theorem document_congr {s s' : Session} (h : s'.renderers = s.renderers) (id : RendererId) :
    s'.document id = s.document id := by
  rw [document, document, renderer?, renderer?, h]

@[simp] theorem roots_modifyRenderer (id : RendererId) (f : Renderer → Renderer) (s : Session) :
    (s.modifyRenderer id f).roots = s.roots := by
  unfold modifyRenderer
  split <;> rfl

/-- What rendering leaves of the store and the document of a renderer. -/
def withDocument (id : RendererId) (d : Document) (store : Store) (s : Session) : Session :=
  { s.modifyRenderer id fun r => { r with document := d } with store }

theorem document_withDocument {s : Session} {id : RendererId} {r : Renderer}
    (h : s.renderer? id = some r) (d : Document) (store : Store) :
    (s.withDocument id d store).document id = d := by
  have hmodified : (s.modifyRenderer id fun r => { r with document := d }).renderer? id =
      some { r with document := d } := by
    rw [renderer?_modifyRenderer, if_pos rfl, h]
    rfl
  exact document_of_renderer? hmodified

theorem noSmaller_withDocument {s : Session} {id : RendererId} {d : Document}
    (h : (s.document id).size ≤ d.size) (store : Store) :
    NoSmaller s (s.withDocument id d store) := by
  refine noSmaller_modifyRenderer fun r hr => ?_
  rw [← document_of_renderer? hr]
  exact h

/-- Rendering a value into a root, spelled out. -/
theorem render_of_root? {s : Session} {root : RootId} {r : Root} (h : s.root? root = some r)
    (depth : Nat) (id : RendererId) (v : Value) : ∃ result store d,
      renderInto depth r.container v s.store (s.document id) = (result, store, d) ∧
        ((∃ e, result = .error e ∧ s.render depth id root v = (.error e, s.withDocument id d store)) ∨
          ∃ tree, result = .ok tree ∧ s.render depth id root v =
            (.ok (), (s.withDocument id d store).commit id root tree)) := by
  obtain ⟨result, store, d, hinto⟩ : ∃ result store d,
      renderInto depth r.container v s.store (s.document id) = (result, store, d) := ⟨_, _, _, rfl⟩
  refine ⟨result, store, d, hinto, ?_⟩
  unfold render
  rw [h]
  dsimp only
  rw [hinto]
  cases result with
  | error e => exact .inl ⟨e, rfl, rfl⟩
  | ok tree => exact .inr ⟨tree, rfl, rfl⟩

/-- What a commit leaves as it is. -/
theorem commit_eq (id : RendererId) (root : RootId) (tree : FiberTree) (s : Session) :
    (s.commit id root tree).roots = s.roots.modify root.index (fun r => { r with tree := some tree }) ∧
      (s.commit id root tree).renderers = s.renderers ∧ (s.commit id root tree).store = s.store := by
  unfold commit
  dsimp only
  split <;> exact ⟨rfl, rfl, rfl⟩

theorem root?_commit (id : RendererId) (root : RootId) (tree : FiberTree) (s : Session)
    (other : RootId) : (s.commit id root tree).root? other =
      (s.root? other).map fun r => if root = other then { r with tree := some tree } else r := by
  rw [root?, root?, (commit_eq id root tree s).1, List.getElem?_modify]
  obtain ⟨i⟩ := root
  obtain ⟨j⟩ := other
  by_cases hij : i = j <;> simp [hij]

/-- Roots keep their containers and renderers when documents get no smaller. -/
theorem HasContainers.of_noSmaller {s s' : Session} (h : s.HasContainers)
    (hroots : ∀ r ∈ s'.roots, ∃ r' ∈ s.roots, r.container = r'.container ∧ r.owner = r'.owner)
    (hsize : NoSmaller s s') : s'.HasContainers := by
  intro r hr
  obtain ⟨r', hr', hcontainer, howner⟩ := hroots r hr
  rw [hcontainer, howner]
  exact Nat.lt_of_lt_of_le (h r' hr') (hsize _)

theorem HasContainers.addRenderer {s : Session} (h : s.HasContainers) :
    s.addRenderer.2.HasContainers := by
  refine h.of_noSmaller (fun r hr => ⟨r, hr, rfl, rfl⟩) ?_
  intro id
  have hold : ∀ r, s.renderer? id = some r → s.addRenderer.2.renderer? id = some r := by
    intro r hr
    unfold renderer? at hr ⊢
    split at hr
    · cases hr
    · rename_i hid
      rw [if_neg hid]
      exact List.getElem?_append_left (List.getElem?_eq_some_iff.mp hr).1 ▸ hr
  unfold document
  cases hr : s.renderer? id with
  | none => exact Nat.zero_le _
  | some r =>
    exact Nat.le_of_eq (by rw [hold r hr])

theorem HasContainers.createRoot {s : Session} {id : RendererId} {r : Renderer}
    (h : s.HasContainers) (hr : s.renderer? id = some r) : (s.createRoot id).2.HasContainers := by
  have hdocument : ∀ other, (s.createRoot id).2.document other =
      if id = other then (s.document id).createContainer.2 else s.document other := by
    intro other
    change (s.modifyRenderer id _).document other = _
    rw [document, renderer?_modifyRenderer]
    split
    · rename_i heq
      subst heq
      rw [hr]
      rfl
    · rfl
  have hsize : NoSmaller s (s.createRoot id).2 := by
    intro other
    rw [hdocument]
    split
    · rename_i heq
      subst heq
      simp [Document.createContainer]
    · exact Nat.le_refl _
  intro root hroot
  have hroots : (s.createRoot id).2.roots =
      s.roots ++ [⟨id, (s.document id).createContainer.1, none⟩] := by
    rw [← roots_modifyRenderer id _ s]
    rfl
  rw [hroots] at hroot
  rcases List.mem_append.mp hroot with hroot | hroot
  · exact Nat.lt_of_lt_of_le (h root hroot) (hsize _)
  · rw [List.mem_singleton.mp hroot, hdocument, if_pos rfl]
    simp [Document.createContainer, Document.add, Document.size]

theorem HasContainers.withDocument {s : Session} (h : s.HasContainers) {id : RendererId}
    {d : Document} (hsize : (s.document id).size ≤ d.size) (store : Store) :
    (s.withDocument id d store).HasContainers := by
  refine h.of_noSmaller ?_ (noSmaller_withDocument hsize store)
  intro r hr
  rw [Session.withDocument, roots_modifyRenderer] at hr
  exact ⟨r, hr, rfl, rfl⟩

theorem HasContainers.commit {s : Session} (h : s.HasContainers) (id : RendererId) (root : RootId)
    (tree : FiberTree) : (s.commit id root tree).HasContainers := by
  obtain ⟨hroots, hrenderers, -⟩ := commit_eq id root tree s
  refine h.of_noSmaller ?_ ?_
  · intro r hr
    rw [hroots] at hr
    obtain ⟨i, hi⟩ := List.mem_iff_getElem?.mp hr
    rw [List.getElem?_modify] at hi
    obtain ⟨r', hr', rfl⟩ := Option.map_eq_some_iff.mp hi
    refine ⟨r', List.mem_of_getElem? hr', ?_⟩
    split <;> exact ⟨rfl, rfl⟩
  · intro other
    exact Nat.le_of_eq (congrArg Document.size (document_congr hrenderers other)).symm

theorem HasContainers.render {s : Session} (h : s.HasContainers) (depth : Nat) (id : RendererId)
    (root : RootId) (v : Value) : (s.render depth id root v).2.HasContainers := by
  cases hroot : s.root? root with
  | none =>
    unfold Session.render
    rw [hroot]
    exact h
  | some r =>
    obtain ⟨result, store, d, hinto, hrender⟩ := render_of_root? hroot depth id v
    have hsize := size_renderInto depth r.container v s.store (s.document id)
    rw [hinto] at hsize
    have hplaced := h.withDocument hsize store
    rcases hrender with ⟨e, -, hrender⟩ | ⟨tree, -, hrender⟩
    · rw [hrender]
      exact hplaced
    · rw [hrender]
      exact hplaced.commit id root tree

/-- Calling listeners changes neither roots nor renderers. -/
theorem callListeners_eq (id : BridgeId) (ls : List Listener) (s : Session) :
    (callListeners id ls s).2.roots = s.roots ∧
      (callListeners id ls s).2.renderers = s.renderers := by
  induction ls generalizing s with
  | nil => exact ⟨rfl, rfl⟩
  | cons l ls ih =>
    unfold callListeners
    rw [Attempt.bind_apply, Attempt.modify]
    dsimp only
    split
    · exact ⟨rfl, rfl⟩
    · exact ih _

theorem HasContainers.watch {s : Session} (h : s.HasContainers) (id : RendererId)
    (watcher : Option BridgeId) :
    (s.modifyRenderer id fun r => { r with watcher }).HasContainers := by
  refine h.of_noSmaller ?_ (noSmaller_modifyRenderer fun r _ => Nat.le_refl _)
  intro r hr
  rw [roots_modifyRenderer] at hr
  exact ⟨r, hr, rfl, rfl⟩

theorem HasContainers.accept {s : Session} (h : s.HasContainers) (id : BridgeId) (e : Event) :
    (s.accept id e).HasContainers := by
  have hbridge : (s.modifyBridge id fun b => { b with taken := none }).HasContainers := h
  cases e with
  | committed => exact hbridge
  | registered renderer => exact hbridge.watch renderer (some id)

theorem HasContainers.finish {s : Session} (h : s.HasContainers) (id : BridgeId) :
    (Session.finish id s).2.HasContainers := by
  unfold Session.finish
  split
  · exact h
  · rename_i b _
    split
    · exact h
    · rename_i e _
      obtain ⟨hroots, hrenderers⟩ := callListeners_eq id b.listeners (s.accept id e)
      refine (h.accept id e).of_noSmaller ?_ ?_
      · intro r hr
        rw [hroots] at hr
        exact ⟨r, hr, rfl, rfl⟩
      · intro other
        exact Nat.le_of_eq (congrArg Document.size (document_congr hrenderers other)).symm

theorem Reached.hasContainers {s : Session} (h : s.Reached) : s.HasContainers := by
  induction h with
  | start store => exact nofun
  | evaluate h store ih => exact ih
  | addRenderer h ih => exact ih.addRenderer
  | createRoot h found ih => exact ih.createRoot found
  | render h depth id root v ih => exact ih.render depth id root v
  | attach h ih => exact ih
  | modifyBridge h id f ih => exact ih
  | finish h id ih => exact ih.finish id

/-- After any history, a value that the renderer of a root renders into it is mirrored by the
structure that is found right after, if that is of this root. -/
theorem structure_mirrors_document {s s' : Session} (h : s.Reached) {root : RootId} {r : Root}
    (hroot : s.root? root = some r) {depth : Nat} {v : Value}
    (hrender : s.render depth r.owner root v = (.ok (), s')) :
    ∃ tree, s'.root? root = some { r with tree := some tree } ∧
      (∀ bridge position, s'.selected? bridge position = s'.root? root →
        s'.structure? bridge position = ofTree? s'.store (s'.document r.owner) tree) ∧
      MirrorsDocument s'.store (s'.document r.owner) tree r.container (s.document r.owner).size
        ((ofTree? s'.store (s'.document r.owner) tree).getD []) := by
  have hcontainer := h.hasContainers r (List.mem_of_getElem? hroot)
  obtain ⟨result, store, d, hinto, hresult⟩ := render_of_root? hroot depth r.owner v
  rw [hrender] at hresult
  rcases hresult with ⟨e, -, herror⟩ | ⟨tree, rfl, hok⟩
  · cases herror
  cases hok
  obtain ⟨hroots, hrenderers, hstore⟩ := commit_eq r.owner root tree (s.withDocument r.owner d store)
  have hnew : ((s.withDocument r.owner d store).commit r.owner root tree).root? root =
      some { r with tree := some tree } := by
    rw [root?, hroots, List.getElem?_modify, withDocument, roots_modifyRenderer]
    rw [root?] at hroot
    rw [hroot]
    simp
  have hdocument : ((s.withDocument r.owner d store).commit r.owner root tree).document r.owner = d := by
    cases hrenderer : s.renderer? r.owner with
    | none =>
      rw [document, hrenderer] at hcontainer
      exact absurd hcontainer (Nat.not_lt_zero _)
    | some renderer =>
      rw [document_congr hrenderers]
      exact document_withDocument hrenderer d store
  rw [hstore, hdocument]
  refine ⟨tree, hnew, ?_, ?_⟩
  · intro bridge position hselected
    unfold structure?
    rw [hselected, hnew]
    simp only [Option.bind_eq_bind, Option.bind_some, hdocument, hstore]
  · obtain ⟨x, l, hrendered⟩ := exists_rendered hinto
    exact hrendered.mirrorsDocument hcontainer

/-- A session with one renderer and one root. -/
def oneRoot : Session := ((ofStore .empty).addRenderer.2.createRoot ⟨1⟩).2

/-- An element with a text and an element in it, the latter with a text of its own. -/
def nestedElement : Value :=
  .element ⟨0, .host "p", 1, [("children", .array 2 [.text "a", .element
    ⟨3, .host "b", 4, [("children", .text "c")], none, none⟩])], none, none⟩

/-- The first rendering in a session: two elements and a text have entries, the text in the inner
element has none. -/
theorem structure_mirrors_document_first : ∃ s' tree, oneRoot.Reached ∧
    oneRoot.root? ⟨0⟩ = some ⟨⟨1⟩, ⟨0⟩, none⟩ ∧
    oneRoot.render 4 ⟨1⟩ ⟨0⟩ nestedElement = (.ok (), s') ∧
    MirrorsDocument s'.store (s'.document ⟨1⟩) tree ⟨0⟩ 1
      ((ofTree? s'.store (s'.document ⟨1⟩) tree).getD []) := by
  have hrenderer : (ofStore .empty).addRenderer.2.renderer? ⟨1⟩ = some ⟨.empty, none⟩ := rfl
  have hreached : oneRoot.Reached := (Reached.start .empty).addRenderer.createRoot hrenderer
  have hroot : oneRoot.root? ⟨0⟩ = some ⟨⟨1⟩, ⟨0⟩, none⟩ := rfl
  have hrender : ∃ s', oneRoot.render 4 ⟨1⟩ ⟨0⟩ nestedElement = (.ok (), s') := ⟨_, rfl⟩
  obtain ⟨s', hrender⟩ := hrender
  obtain ⟨tree, -, -, hmirrors⟩ := structure_mirrors_document hreached hroot hrender
  exact ⟨s', tree, hreached, hroot, hrender, hmirrors⟩

end Live.Session

end MarkupTrace
