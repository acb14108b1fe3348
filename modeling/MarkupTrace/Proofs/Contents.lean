import MarkupTrace.Proofs.Runs

/-!
# The content of a session

Bridges and listeners aside, a session has a content: its store, the documents of its renderers, its
roots and what was committed. No bridge has a part in it, and rendering reads nothing else, so that
sessions of the same content render alike.
-/

namespace MarkupTrace.Live

open Render

/-- What a session holds besides its wiring. -/
structure Content where
  store : Store
  stack : StackId
  documents : List Document
  roots : List Root
  commits : List (RendererId × RootId)

namespace Session

def content (s : Session) : Content :=
  ⟨s.store, s.stack, s.renderers.map (·.document), s.roots, s.commits⟩

theorem renderers_modifyRenderer (id : RendererId) (f : Renderer → Renderer) (s : Session) :
    (s.modifyRenderer id f).renderers =
      if id.number = 0 then s.renderers else s.renderers.modify (id.number - 1) f := by
  unfold modifyRenderer
  split <;> rfl

theorem content_modifyRenderer (id : RendererId) (f : Renderer → Renderer) (s : Session) :
    (s.modifyRenderer id f).content =
      { s.content with documents := (s.modifyRenderer id f).renderers.map (·.document) } := by
  unfold modifyRenderer
  split <;> rfl

section

variable {s s' : Session} (h : s.content = s'.content)
include h

theorem document_of_content (id : RendererId) : s.document id = s'.document id := by
  have hdocuments : s.renderers.map (·.document) = s'.renderers.map (·.document) :=
    congrArg Content.documents h
  have hat := congrArg (·[id.number - 1]?) hdocuments
  simp only [List.getElem?_map] at hat
  unfold document renderer?
  split
  · rfl
  · rw [hat]

theorem isSome_renderer?_of_content (id : RendererId) :
    (s.renderer? id).isSome = (s'.renderer? id).isSome := by
  have hdocuments : s.renderers.map (·.document) = s'.renderers.map (·.document) :=
    congrArg Content.documents h
  have hat := congrArg (·[id.number - 1]?.isSome) hdocuments
  simp only [List.getElem?_map, Option.isSome_map] at hat
  unfold renderer?
  split
  · rfl
  · exact hat

/-- The same document is put in the place of one. -/
theorem content_setDocument (id : RendererId) (d : Document) :
    (s.modifyRenderer id fun r => { r with document := d }).content =
      (s'.modifyRenderer id fun r => { r with document := d }).content := by
  have hdocuments : s.renderers.map (·.document) = s'.renderers.map (·.document) :=
    congrArg Content.documents h
  rw [content_modifyRenderer, content_modifyRenderer, h, renderers_modifyRenderer,
    renderers_modifyRenderer]
  split
  · rw [hdocuments]
  · have hmodify : ∀ rs : List Renderer,
        (rs.modify (id.number - 1) fun r => { r with document := d }).map (·.document) =
          (rs.map (·.document)).modify (id.number - 1) fun _ => d := by
      intro rs
      apply map_modify
      intro r
      rfl
    rw [hmodify, hmodify, hdocuments]

theorem content_withDocument (id : RendererId) (d : Document) (store : Store) :
    (s.withDocument id d store).content = (s'.withDocument id d store).content :=
  congrArg (fun c : Content => { c with store }) (content_setDocument h id d)

theorem content_commit (id : RendererId) (root : RootId) (tree : FiberTree) :
    (s.commit id root tree).content = (s'.commit id root tree).content := by
  have hcommit : ∀ s : Session, (s.commit id root tree).content = { s.content with
      roots := s.content.roots.modify root.index fun r => { r with tree := some tree }
      commits := if s.content.commits.contains (id, root) then s.content.commits
        else s.content.commits ++ [(id, root)] } := by
    intro s
    unfold commit
    dsimp only
    split <;> rfl
  rw [hcommit, hcommit, h]

/-- A render ends the same and leaves the same content. -/
theorem content_render (depth : Nat) (id : RendererId) (root : RootId) (v : Value) :
    (s.render depth id root v).1 = (s'.render depth id root v).1 ∧
      (s.render depth id root v).2.content = (s'.render depth id root v).2.content := by
  have hroot : s.root? root = s'.root? root :=
    congrArg (fun c : Content => c.roots[root.index]?) h
  have hstore : s.store = s'.store := congrArg Content.store h
  cases hr : s'.root? root with
  | none =>
    unfold render
    rw [hroot, hr]
    exact ⟨rfl, h⟩
  | some r =>
    rw [hr] at hroot
    obtain ⟨result, store, d, hinto, hrender⟩ := render_of_root? hroot depth id v
    obtain ⟨result', store', d', hinto', hrender'⟩ := render_of_root? hr depth id v
    rw [hstore, document_of_content h, hinto'] at hinto
    cases hinto
    have hput := content_withDocument h id d store
    rcases hrender with ⟨e, rfl, hrender⟩ | ⟨tree, rfl, hrender⟩
    · rcases hrender' with ⟨e', he, hrender'⟩ | ⟨tree, hok, -⟩
      · cases he
        rw [hrender, hrender']
        exact ⟨rfl, hput⟩
      · cases hok
    · rcases hrender' with ⟨e, he, -⟩ | ⟨tree', hok, hrender'⟩
      · cases he
      · cases hok
        rw [hrender, hrender']
        exact ⟨rfl, content_commit hput id root tree⟩

end

theorem content_finish (id : BridgeId) (s : Session) :
    (Session.finish id s).2.content = s.content := by
  have haccept : ∀ e, (s.accept id e).content = s.content := by
    intro e
    cases e with
    | committed => rfl
    | registered renderer =>
      change (modifyRenderer renderer _ (s.modifyBridge id _)).content = _
      rw [content_modifyRenderer, renderers_modifyRenderer]
      split
      · rfl
      · rw [map_modify_eq_map]
        · rfl
        · intro r
          rfl
  unfold Session.finish
  split
  · rfl
  · split
    · rfl
    · rw [callListeners_snd]
      exact haccept _

end Session

end MarkupTrace.Live
