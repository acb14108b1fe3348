import MarkupTrace.Proofs.FailedRenders

/-!
# The containers of roots

A root is made with a container in the document of its renderer. No operation of a session gives a
root another container or renderer or turns a node into one of another kind, so that the container of
a root is one ever after.
-/

namespace MarkupTrace

open Render

section

variable {α β : Type} {f : α → β} {g : α → α}

theorem map_modify {g' : β → β} (h : ∀ a, f (g a) = g' (f a)) (xs : List α) (i : Nat) :
    (xs.modify i g).map f = (xs.map f).modify i g' := by
  apply List.ext_getElem?
  intro j
  rw [List.getElem?_map, List.getElem?_modify, List.getElem?_modify, List.getElem?_map]
  cases xs[j]? with
  | none => rfl
  | some a =>
    dsimp only [Option.map_eq_map, Option.map_some]
    split
    · rw [h]
    · rfl

/-- What a change leaves as it is can be read off before. -/
theorem map_modify_eq_map (h : ∀ a, f (g a) = f a) (xs : List α) (i : Nat) :
    (xs.modify i g).map f = xs.map f := by
  have hmodify : (xs.modify i g).map f = (xs.map f).modify i id := map_modify h xs i
  rw [hmodify, List.modify_id]

end

namespace Render.Document

/-- Nodes are neither lost nor turned into something else. -/
def KeepsKinds (d d' : Document) : Prop :=
  ∀ id n, d.get? id = some n → ∃ n', d'.get? id = some n' ∧ n'.kind = n.kind

theorem KeepsKinds.refl (d : Document) : d.KeepsKinds d := fun _ n hn => ⟨n, hn, rfl⟩

theorem keepsKinds_createContainer (d : Document) : d.KeepsKinds d.createContainer.2 := by
  intro id n hn
  refine ⟨n, ?_, rfl⟩
  rw [createContainer, get?_add_of_lt (Array.getElem?_eq_some_iff.mp hn).1, hn]

/-- However a rendering ends. -/
theorem keepsKinds_renderInto (depth : Nat) (container : NodeId) (v : Value) (s : Store)
    (d : Document) : d.KeepsKinds (renderInto depth container v s d).2.2 := by
  intro id n hn
  have hid : id.index < (d.clearChildren container).size := by
    rw [size_clearChildren]
    exact (Array.getElem?_eq_some_iff.mp hn).1
  obtain ⟨added, hadded, -⟩ := (renderInto_appends depth container v s d).extended hid
  rw [get?_clearChildren, hn] at hadded
  exact ⟨_, hadded, rfl⟩

end Render.Document

namespace Live.Session

/-! ## Where roots are -/

/-- The renderers and the containers of the roots. -/
def places (s : Session) : List (RendererId × NodeId) := s.roots.map fun r => (r.owner, r.container)

theorem mem_places {s : Session} {root : RootId} {r : Root} (h : s.root? root = some r) :
    (r.owner, r.container) ∈ s.places :=
  List.mem_map_of_mem (List.mem_of_getElem? h)

theorem places_createRoot (id : RendererId) (s : Session) :
    (s.createRoot id).2.places = s.places ++ [(id, (s.document id).createContainer.1)] := by
  have hroots : (s.createRoot id).2.roots =
      s.roots ++ [⟨id, (s.document id).createContainer.1, none⟩] := by
    rw [← roots_modifyRenderer id _ s]
    rfl
  rw [places, hroots, List.map_append]
  rfl

theorem places_commit (id : RendererId) (root : RootId) (tree : FiberTree) (s : Session) :
    (s.commit id root tree).places = s.places := by
  rw [places, (commit_eq id root tree s).1]
  apply map_modify_eq_map
  intro r
  rfl

theorem places_withDocument (id : RendererId) (d : Document) (store : Store) (s : Session) :
    (s.withDocument id d store).places = s.places := by
  rw [places, withDocument, roots_modifyRenderer, places]

theorem places_render (depth : Nat) (id : RendererId) (root : RootId) (v : Value) (s : Session) :
    (s.render depth id root v).2.places = s.places := by
  cases hroot : s.root? root with
  | none =>
    unfold render
    rw [hroot]
  | some r =>
    obtain ⟨result, store, d, -, ⟨e, -, hrender⟩ | ⟨tree, -, hrender⟩⟩ :=
      render_of_root? hroot depth id v
    · rw [hrender, places_withDocument]
    · rw [hrender, places_commit, places_withDocument]

theorem roots_accept (id : BridgeId) (e : Event) (s : Session) : (s.accept id e).roots = s.roots := by
  cases e with
  | registered renderer => exact roots_modifyRenderer renderer _ _
  | committed => rfl

/-- Handling an event changes no root. -/
theorem roots_finish (id : BridgeId) (s : Session) : (Session.finish id s).2.roots = s.roots := by
  unfold Session.finish
  split
  · rfl
  · split
    · rfl
    · rw [(callListeners_eq id _ _).1, roots_accept]

/-! ## Documents -/

theorem document_addRenderer (id : RendererId) (s : Session) :
    s.addRenderer.2.document id = s.document id := by
  unfold document renderer? addRenderer
  dsimp only
  split
  · rfl
  · rw [List.getElem?_append]
    split
    · rfl
    · rename_i hlt
      rw [List.getElem?_eq_none (Nat.le_of_not_lt hlt)]
      rcases id.number - 1 - s.renderers.length with _ | _ <;> rfl

theorem document_createRoot {s : Session} {id : RendererId} {r : Renderer}
    (h : s.renderer? id = some r) (other : RendererId) : (s.createRoot id).2.document other =
      if id = other then (s.document id).createContainer.2 else s.document other := by
  change (s.modifyRenderer id _).document other = _
  rw [document, renderer?_modifyRenderer]
  split
  · rename_i heq
    subst heq
    rw [h]
    rfl
  · rfl

theorem document_withDocument_eq (id other : RendererId) (d : Document) (store : Store)
    (s : Session) : (s.withDocument id d store).document other = s.document other ∨
      other = id ∧ (s.withDocument id d store).document other = d := by
  rw [document, renderer?_withDocument]
  split
  · rename_i heq
    subst heq
    cases hr : s.renderer? id with
    | none =>
      left
      rw [document, hr]
      rfl
    | some r => exact .inr ⟨rfl, rfl⟩
  · exact .inl rfl

/-- A render changes the document of its renderer only, and that as rendering into a container
does. -/
theorem document_render (depth : Nat) (id : RendererId) (root : RootId) (v : Value) (s : Session)
    (other : RendererId) : (s.render depth id root v).2.document other = s.document other ∨
      other = id ∧ ∃ r, s.root? root = some r ∧ (s.render depth id root v).2.document other =
        (renderInto depth r.container v s.store (s.document id)).2.2 := by
  cases hroot : s.root? root with
  | none =>
    left
    unfold render
    rw [hroot]
  | some r =>
    obtain ⟨result, store, d, hinto, hrender⟩ := render_of_root? hroot depth id v
    have hdocument : (s.render depth id root v).2.document other =
        (s.withDocument id d store).document other := by
      rcases hrender with ⟨e, -, hrender⟩ | ⟨tree, -, hrender⟩
      · rw [hrender]
      · rw [hrender]
        exact document_congr (commit_eq id root tree _).2.1 other
    rw [hdocument]
    refine (document_withDocument_eq id other d store s).imp_right fun ⟨heq, hd⟩ => ?_
    refine ⟨heq, r, rfl, ?_⟩
    rw [hd, hinto]

theorem document_accept (id : BridgeId) (e : Event) (s : Session) (other : RendererId) :
    (s.accept id e).document other = s.document other := by
  cases e with
  | committed => rfl
  | registered renderer =>
    change (Session.modifyRenderer renderer _ _).document other = _
    rw [document, renderer?_modifyRenderer]
    split
    · rename_i heq
      subst heq
      rw [Option.map_map]
      rfl
    · rfl

theorem document_finish (id : BridgeId) (s : Session) (other : RendererId) :
    (Session.finish id s).2.document other = s.document other := by
  unfold Session.finish
  split
  · rfl
  · split
    · rfl
    · rw [document_congr (callListeners_eq id _ _).2, document_accept]

/-! ## Containers stay containers -/

/-- The node of every root is a container in the document of the root's renderer. -/
def Contained (s : Session) : Prop :=
  ∀ p ∈ s.places, ∃ n, (s.document p.1).get? p.2 = some n ∧ n.kind = .container

theorem Contained.of_keepsKinds {s s' : Session} (h : s.Contained) (hplaces : s'.places = s.places)
    (hkinds : ∀ id, (s.document id).KeepsKinds (s'.document id)) : s'.Contained := by
  intro p hp
  rw [hplaces] at hp
  obtain ⟨n, hn, hkind⟩ := h p hp
  obtain ⟨n', hn', hkind'⟩ := hkinds p.1 p.2 n hn
  exact ⟨n', hn', hkind'.trans hkind⟩

theorem Contained.of_document {s s' : Session} (h : s.Contained) (hplaces : s'.places = s.places)
    (hdocument : ∀ id, s'.document id = s.document id) : s'.Contained :=
  h.of_keepsKinds hplaces fun id => by
    rw [hdocument]
    exact .refl _

theorem Contained.createRoot {s : Session} {id : RendererId} {r : Renderer} (h : s.Contained)
    (hr : s.renderer? id = some r) : (s.createRoot id).2.Contained := by
  have hkinds : ∀ other, (s.document other).KeepsKinds ((s.createRoot id).2.document other) := by
    intro other
    rw [document_createRoot hr]
    split
    · rename_i heq
      subst heq
      exact (s.document id).keepsKinds_createContainer
    · exact .refl _
  intro p hp
  rw [places_createRoot] at hp
  rcases List.mem_append.mp hp with hp | hp
  · obtain ⟨n, hn, hkind⟩ := h p hp
    obtain ⟨n', hn', hkind'⟩ := hkinds p.1 p.2 n hn
    exact ⟨n', hn', hkind'.trans hkind⟩
  · rw [List.mem_singleton.mp hp, document_createRoot hr, if_pos rfl]
    exact ⟨_, Document.get?_add_self _ _, rfl⟩

theorem Contained.render {s : Session} (h : s.Contained) (depth : Nat) (id : RendererId)
    (root : RootId) (v : Value) : (s.render depth id root v).2.Contained := by
  refine h.of_keepsKinds (places_render depth id root v s) fun other => ?_
  rcases document_render depth id root v s other with hsame | ⟨rfl, r, -, hinto⟩
  · rw [hsame]
    exact .refl _
  · rw [hinto]
    exact Document.keepsKinds_renderInto depth r.container v s.store _

theorem Contained.finish {s : Session} (h : s.Contained) (id : BridgeId) :
    (Session.finish id s).2.Contained := by
  refine h.of_document ?_ (document_finish id s)
  rw [places, roots_finish, places]

theorem Reached.contained {s : Session} (h : s.Reached) : s.Contained := by
  induction h with
  | start store => exact nofun
  | @evaluate s h store ih => exact ih.of_document rfl fun _ => rfl
  | @addRenderer s h ih =>
    exact ih.of_document rfl fun id => document_addRenderer id s
  | createRoot h found ih => exact ih.createRoot found
  | render h depth id root v ih => exact ih.render depth id root v
  | @attach s h ih => exact ih.of_document rfl fun _ => rfl
  | @modifyBridge s h id f ih =>
    exact ih.of_document rfl fun _ => rfl
  | finish h id ih => exact ih.finish id

/-! ## What a commit shows -/

theorem root?_committed {s : Session} {root : RootId} {r : Root} (h : s.root? root = some r)
    (id : RendererId) (d : Document) (store : Store) (tree : FiberTree) :
    ((s.withDocument id d store).commit id root tree).root? root =
      some { r with tree := some tree } := by
  rw [root?_commit, root?, withDocument, roots_modifyRenderer, ← root?, h, Option.map_some,
    if_pos rfl]

theorem document_committed {s : Session} {id : RendererId} {renderer : Renderer}
    (h : s.renderer? id = some renderer) (d : Document) (store : Store) (root : RootId)
    (tree : FiberTree) : ((s.withDocument id d store).commit id root tree).document id = d := by
  rw [document_congr (commit_eq id root tree _).2.1]
  exact document_withDocument h d store

/-- The renderer of a root is there. -/
theorem Contained.exists_renderer {s : Session} (h : s.Contained) {root : RootId} {r : Root}
    (hroot : s.root? root = some r) : ∃ renderer, s.renderer? r.owner = some renderer := by
  obtain ⟨n, hn, -⟩ := h _ (mem_places hroot)
  cases hrenderer : s.renderer? r.owner with
  | none =>
    rw [document, hrenderer] at hn
    cases hn
  | some renderer => exact ⟨renderer, rfl⟩

end Live.Session

end MarkupTrace
