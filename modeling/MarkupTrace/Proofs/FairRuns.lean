import MarkupTrace.Proofs.Contents
import MarkupTrace.Proofs.LastingFibers

/-!
# Fair runs

In a fair run modules are written ones or annotated ones, users go by data and by what they got from
modules and calls before, and a root is rendered only by the renderer that made it. Along such a run
all commits stay good: the tree that a root had after its last commit is still the one it has, and
everything that the tree rests on is as it was then.
-/

namespace MarkupTrace

open Source Annotate Eval Store

/-! ## What users have -/

/-- What can be made of some values: they themselves, their properties, and data and elements built
from such values. -/
inductive Value.Made (held : List Value) : Value → Prop
  | held {v : Value} (h : v ∈ held) : Made held v
  | property {v w : Value} {p : String} (made : Made held v) (read : v.get? p = some w) : Made held w
  | undefined : Made held .undefined
  | null : Made held .null
  | bool (b : Bool) : Made held (.bool b)
  | number (n : Double) : Made held (.number n)
  | text (s : String) : Made held (.text s)
  | array (identity : Nat) {items : List Value} (h : ∀ v ∈ items, Made held v) :
      Made held (.array identity items)
  | object (identity : Nat) {fields : Fields} (h : ∀ e ∈ fields, Made held e.2) :
      Made held (.object identity fields)
  | element {c : CreatedElement Value} (type : ∀ f, c.type = .component f → Made held (.function f))
      (props : ∀ e ∈ c.props, Made held e.2) (owner : ∀ v, c.owner = some v → Made held v)
      (source : ∀ v, c.source = some v → Made held v) : Made held (.element c)

theorem Value.Made.usable {Γ : Typing} {s : Store} {held : List Value}
    (hheld : ∀ v ∈ held, v.Usable Γ s) {v : Value} (h : v.Made held) : v.Usable Γ s := by
  induction h with
  | held h => exact hheld _ h
  | property _ read ih => exact ⟨ih.clean.get? read, ih.grounded.get? read⟩
  | undefined => exact ⟨.undefined, .undefined⟩
  | null => exact ⟨.null, .null⟩
  | bool b => exact ⟨.bool b, .bool b⟩
  | number n => exact ⟨.number n, .number n⟩
  | text s => exact ⟨.text s, .text s⟩
  | array identity _ ih =>
    exact ⟨.array identity fun v hv => (ih v hv).clean, .array identity fun v hv => (ih v hv).grounded⟩
  | object identity _ ih => exact .object ih
  | element _ _ _ _ type props owner source =>
    have hclean : ∀ f : Function, (Value.function f).Usable Γ s → f.Clean (s.Home Γ) := by
      intro f hf
      cases hf.clean with
      | function h => exact h
    exact ⟨.element (fun f hf => hclean f (type f hf)) (fun e he => (props e he).clean)
        (fun v hv => (owner v hv).clean) fun v hv => (source v hv).clean,
      .element (fun e he => (props e he).grounded) (fun v hv => (owner v hv).grounded)
        fun v hv => (source v hv).grounded⟩

/-- The code of a module: as it was written, or annotated to run on a stack. In neither does written
code get hold of a builtin or a stack. Only annotation puts them in, under names that the module uses
nowhere, not even as shorthand keys. -/
def Source.Module.Loadable (stack : StackId) (code : Module) : Prop :=
  Grammar.Written code.mentions ∨
    ∃ i : Instance, i.stack = stack ∧ code = (annotate i.module i.source i.fileName i.options).module

theorem Source.Module.Loadable.exists_origin {stack : StackId} {code : Module}
    (h : code.Loadable stack) :
    ∃ (o : Origin) (m : Module), o.Of m stack ∧ o.Fits m.mentions ∧ code = o.code m := by
  rcases h with hwritten | ⟨i, hstack, hcode⟩
  · exact ⟨.plain, code, nofun, hwritten, rfl⟩
  · refine ⟨.annotated i, i.module, ?_, List.Subset.refl _, hcode⟩
    intro j hj
    cases hj
    exact ⟨rfl, hstack⟩

/-- Without origins nothing has a home. -/
theorem Store.Home.not_untyped {s : Store} {i : Nat} {o : Origin} (h : s.Home (fun _ => none) i o) :
    False := by
  induction h with
  | root found outermost typed => cases typed
  | inner found inside earlier home ih => exact ih

namespace Live

open Render Structure

/-- Users load, call and render only what they have, and renderers keep to their own roots. -/
def Action.Fair (held : List Value) (s : Session) : Action → Prop
  | .createRoot renderer => ∃ r, s.renderer? renderer = some r
  | .load _ modules m => m.Loadable s.stack ∧ ∀ entry ∈ modules, ∀ e ∈ entry.2, e.2.Made held
  | .call _ callee arguments => callee.Made held ∧ ∀ v ∈ arguments, v.Made held
  | .render _ renderer root v => (∀ r, s.root? root = some r → r.owner = renderer) ∧ v.Made held
  | _ => True

namespace Session

/-- What users get by an action. -/
def gained (a : Action) (s : Session) : List Value :=
  match a with
  | .load depth modules m =>
    match (s.load depth modules m).1 with
    | .ok exports => exports.map (·.2)
    | .error _ => []
  | .call depth callee arguments =>
    match (Eval.call depth callee arguments s.store).1 with
    | .ok v => [v]
    | .error _ => []
  | _ => []

/-- All actions are fair, given what users have to begin with. -/
def Fair : List Action → List Value → Session → Prop
  | [], _, _ => True
  | a :: as, held, s => a.Fair held s ∧ Fair as (held ++ s.gained a) (s.perform a)

end Session

/-! ## Commits -/

/-- A commit, with the store and the document of the renderer right after it. -/
structure Commit where
  renderer : RendererId
  root : RootId
  tree : FiberTree
  store : Store
  document : Document

/-- The last commit to a root. -/
def lastCommit? (root : RootId) (log : List Commit) : Option Commit :=
  (log.filter fun c => c.root = root).getLast?

section

variable {root : RootId} {log log' : List Commit} {c : Commit}

theorem lastCommit?_append :
    lastCommit? root (log ++ log') = (lastCommit? root log').or (lastCommit? root log) := by
  rw [lastCommit?, List.filter_append, List.getLast?_append, lastCommit?, lastCommit?]

theorem lastCommit?_singleton : lastCommit? root [c] = if c.root = root then some c else none := by
  unfold lastCommit?
  split_ifs with h <;> simp [h]

theorem mem_of_lastCommit? (h : lastCommit? root log = some c) : c ∈ log ∧ c.root = root := by
  simpa using List.mem_filter.mp (List.mem_of_getLast? h)

theorem lastCommit?_eq_none (h : ∀ c ∈ log, c.root ≠ root) : lastCommit? root log = none := by
  have hnone : (log.filter fun c => c.root = root) = [] := by
    simpa [List.filter_eq_nil_iff] using h
  rw [lastCommit?, hnone, List.getLast?_nil]

theorem exists_lastCommit? (h : c ∈ log) : ∃ last, lastCommit? c.root log = some last := by
  have hmem : c ∈ log.filter fun other => other.root = c.root := List.mem_filter.mpr ⟨h, by simp⟩
  exact Option.isSome_iff_exists.mp (List.getLast?_isSome.mpr (List.ne_nil_of_mem hmem))

end

namespace Session

/-- The commit that an action makes. -/
def committed? (a : Action) (s : Session) : Option Commit :=
  match a with
  | .render _ _ root _ => do
    let renderer ← s.committer? a
    let tree ← ((s.perform a).root? root).bind (·.tree)
    return ⟨renderer, root, tree, (s.perform a).store, (s.perform a).document renderer⟩
  | _ => none

/-- The commits of a run, in order. -/
def history : List Action → Session → List Commit
  | [], _ => []
  | a :: as, s => (s.committed? a).toList ++ history as (s.perform a)

theorem commits_commit (id : RendererId) (root : RootId) (tree : FiberTree) (s : Session) :
    (s.commit id root tree).commits =
      if s.commits.contains (id, root) then s.commits else s.commits ++ [(id, root)] := by
  unfold commit
  dsimp only
  split <;> rfl

/-- A root is added at its first commit. -/
theorem rootsOf_commit_self (id : RendererId) (root : RootId) (tree : FiberTree) (s : Session) :
    (s.commit id root tree).rootsOf id =
      if root ∈ s.rootsOf id then s.rootsOf id else s.rootsOf id ++ [root] := by
  have hmem : s.commits.contains (id, root) = true ↔ root ∈ s.rootsOf id := by simp [rootsOf]
  rw [rootsOf, commits_commit]
  split_ifs with hcontains hroot hroot
  · rfl
  · exact absurd (hmem.mp hcontains) hroot
  · exact absurd (hmem.mpr hroot) hcontains
  · simp [rootsOf]

theorem rootsOf_commit_of_ne {id other : RendererId} (h : id ≠ other) (root : RootId)
    (tree : FiberTree) (s : Session) : (s.commit id root tree).rootsOf other = s.rootsOf other := by
  rw [rootsOf, commits_commit]
  split
  · rfl
  · simp [rootsOf, h]

end Session

/-! ## What commits rest on -/

/-- The root of a commit is there, and so is what the tree of the commit rests on. -/
structure Commit.Stands (s : Session) (c : Commit) : Prop where
  root : ∃ r, s.root? c.root = some r ∧ r.owner = c.renderer
  backed : c.tree.Backed c.store c.document
  grows : c.store.Grows none s.store
  lasts : c.document.Lasts (s.document c.renderer)

/-- What the tree had for a structure it still has. -/
theorem Commit.Stands.structure_eq {s : Session} {c : Commit} (h : c.Stands s) :
    ofTree? s.store (s.document c.renderer) c.tree =
      if c.tree.children FiberTree.rootId = [] then none
      else some (walk c.store c.document c.tree FiberTree.rootId .empty) := by
  rw [ofTree?_of_backed h.backed h.grows h.lasts, ofTree?_eq]

theorem Commit.Stands.mono {s s' : Session} {c : Commit} (h : c.Stands s)
    (hroots : ∀ root r, s.root? root = some r → ∃ r', s'.root? root = some r' ∧ r'.owner = r.owner)
    (hstore : s.store.Grows none s'.store)
    (hdocuments : ∀ id, (s.document id).Lasts (s'.document id)) : c.Stands s' := by
  obtain ⟨r, hr, howner⟩ := h.root
  obtain ⟨r', hr', howner'⟩ := hroots c.root r hr
  exact ⟨⟨r', hr', howner'.trans howner⟩, h.backed, h.grows.trans hstore,
    h.lasts.trans (hdocuments c.renderer)⟩

/-- A session after the commits of a log, with these values in the hands of users. All is in order,
each root has the tree of its last commit, and all commits stand. -/
structure Told (Γ : Typing) (held : List Value) (log : List Commit) (s : Session) : Prop where
  contained : s.Contained
  sound : s.store.Sound Γ
  grounded : s.store.Grounded
  stack : s.stack.index < s.store.stackEntries.length
  usable : ∀ v ∈ held, v.Usable Γ s.store
  roots : ∀ id, s.rootsOf id = ((log.filter fun c => c.renderer = id).map (·.root)).eraseDups
  trees : ∀ root r, s.root? root = some r → r.tree = (lastCommit? root log).map (·.tree)
  stands : ∀ c ∈ log, c.Stands s

namespace Told

variable {Γ Γ' : Typing} {held gained : List Value} {log : List Commit} {s s' : Session}

/-- In the beginning no scope is of any origin, so no code runs in one. -/
theorem ofStore {store : Store} (h : store.Grounded) :
    Told (fun _ => none) [] [] (.ofStore store) where
  contained := (Session.Reached.start store).contained
  sound := ⟨fun _ _ _ hi _ => hi.not_untyped.elim, nofun⟩
  grounded := h.of_scopes_eq rfl le_rfl
  stack := by simp [Session.ofStore, newStack]
  usable := nofun
  roots := fun _ => rfl
  trees := nofun
  stands := nofun

theorem hold (h : Told Γ held log s) (hgained : ∀ v ∈ gained, v.Usable Γ s.store) :
    Told Γ (held ++ gained) log s :=
  { h with usable := List.forall_mem_append.mpr ⟨h.usable, hgained⟩ }

/-- Neither the roots nor the commits change, and what is there stays in order. -/
theorem proceed (h : Told Γ held log s) (hΓ : Typing.Extends Γ' Γ s.store)
    (hstore : Settles Γ' s.store s'.store) (hstack : s'.stack = s.stack)
    (hroots : s'.roots = s.roots) (hcommits : s'.commits = s.commits)
    (hcontained : s'.Contained) (hdocuments : ∀ id, (s.document id).Lasts (s'.document id)) :
    Told Γ' held log s' where
  contained := hcontained
  sound := hstore.sound
  grounded := hstore.grounded
  stack := by rw [hstack, hstore.stackCount]; exact h.stack
  usable := fun v hv => (h.usable v hv).mono hΓ hstore.grows
  roots := by
    intro id
    rw [Session.rootsOf, hcommits]
    exact h.roots id
  trees := by
    intro root r hr
    rw [Session.root?, hroots] at hr
    exact h.trees root r hr
  stands := by
    refine fun c hc => (h.stands c hc).mono ?_ hstore.grows hdocuments
    intro root r hr
    refine ⟨r, ?_, rfl⟩
    rw [Session.root?, hroots]
    exact hr

theorem addRenderer (h : Told Γ held log s) : Told Γ held log s.addRenderer.2 := by
  have hdocument := fun id => Session.document_addRenderer id s
  refine h.proceed (fun _ _ => rfl) (.refl h.sound h.grounded) rfl rfl rfl
    (h.contained.of_document rfl hdocument) fun id => ?_
  rw [hdocument]
  exact .refl _

/-- The store changed by what was evaluated. -/
theorem evaluate (h : Told Γ held log s) {store : Store} (hΓ : Typing.Extends Γ' Γ s.store)
    (hstore : Settles Γ' s.store store) : Told Γ' held log { s with store } :=
  h.proceed hΓ hstore rfl rfl rfl (h.contained.of_document rfl fun _ => rfl) fun _ => .refl _

theorem createRoot (h : Told Γ held log s) {id : RendererId} {renderer : Renderer}
    (hrenderer : s.renderer? id = some renderer) : Told Γ held log (s.createRoot id).2 := by
  have hroots : (s.createRoot id).2.roots =
      s.roots ++ [⟨id, (s.document id).createContainer.1, none⟩] := by
    rw [← Session.roots_modifyRenderer id _ s]
    rfl
  have hrest : (s.createRoot id).2.commits = s.commits ∧ (s.createRoot id).2.store = s.store ∧
      (s.createRoot id).2.stack = s.stack := by
    unfold Session.createRoot Session.modifyRenderer
    dsimp only
    split <;> exact ⟨rfl, rfl, rfl⟩
  obtain ⟨hcommits, hstore, hstack⟩ := hrest
  have hold : ∀ root r, s.root? root = some r → (s.createRoot id).2.root? root = some r := by
    intro root r hr
    rw [Session.root?, hroots, List.getElem?_append_left (List.getElem?_eq_some_iff.mp hr).1]
    exact hr
  refine ⟨h.contained.createRoot hrenderer, hstore ▸ h.sound, hstore ▸ h.grounded, ?_, ?_, ?_, ?_, ?_⟩
  · rw [hstack, hstore]
    exact h.stack
  · rw [hstore]
    exact h.usable
  · intro other
    rw [Session.rootsOf, hcommits]
    exact h.roots other
  · intro root r hr
    rw [Session.root?, hroots, List.getElem?_append] at hr
    split at hr
    · exact h.trees root r hr
    · rename_i hge
      -- The new root has no tree and is not yet committed to.
      have hnone : lastCommit? root log = none := by
        refine lastCommit?_eq_none fun c hc heq => hge ?_
        obtain ⟨r', hr', -⟩ := (h.stands c hc).root
        exact heq ▸ (List.getElem?_eq_some_iff.mp hr').1
      cases List.mem_singleton.mp (List.mem_of_getElem? hr)
      rw [hnone]
      rfl
  · refine fun c hc => (h.stands c hc).mono (fun root r hr => ⟨r, hold root r hr, rfl⟩) ?_ ?_
    · rw [hstore]
      exact .refl _
    · intro other
      rw [Session.document_createRoot hrenderer]
      split
      · rename_i heq
        subst heq
        exact Document.lasts_createContainer _
      · exact .refl _

/-- A tree is committed that has what it rests on. -/
theorem commit (h : Told Γ held log s) {root : RootId} {r : Root} (hr : s.root? root = some r)
    {tree : FiberTree} (htree : tree.Backed s.store (s.document r.owner)) :
    Told Γ held (log ++ [⟨r.owner, root, tree, s.store, s.document r.owner⟩])
      (s.commit r.owner root tree) := by
  obtain ⟨-, hrenderers, hstore⟩ := Session.commit_eq r.owner root tree s
  have hroot := Session.root?_commit r.owner root tree s
  have hdocument := Session.document_congr hrenderers
  have hstack : (s.commit r.owner root tree).stack = s.stack := by
    unfold Session.commit
    dsimp only
    split <;> rfl
  have hspares : ∀ c : Commit, c.Stands s → c.Stands (s.commit r.owner root tree) := by
    refine fun c hc => hc.mono ?_ ?_ ?_
    · intro other r' hr'
      refine ⟨_, by rw [hroot, hr', Option.map_some], ?_⟩
      split <;> rfl
    · rw [hstore]
      exact .refl _
    · intro other
      rw [hdocument]
      exact .refl _
  refine ⟨?_, hstore ▸ h.sound, hstore ▸ h.grounded, ?_, ?_, ?_, ?_, ?_⟩
  · exact h.contained.of_document (Session.places_commit _ _ _ s) hdocument
  · rw [hstack, hstore]
    exact h.stack
  · rw [hstore]
    exact h.usable
  · intro other
    rw [List.filter_append, List.map_append]
    by_cases hother : r.owner = other
    · subst hother
      rw [List.filter_cons_of_pos (by simp), List.filter_nil, List.map_singleton, eraseDups_concat,
        Session.rootsOf_commit_self, h.roots]
      simp only [List.mem_eraseDups]
    · rw [Session.rootsOf_commit_of_ne hother, h.roots]
      simp [hother]
  · intro other r' hr'
    rw [hroot] at hr'
    obtain ⟨before, hbefore, rfl⟩ := Option.map_eq_some_iff.mp hr'
    rw [lastCommit?_append, lastCommit?_singleton]
    dsimp only
    split_ifs
    · rfl
    · exact h.trees other before hbefore
  · refine List.forall_mem_append.mpr ⟨fun c hc => hspares c (h.stands c hc), ?_⟩
    rw [List.forall_mem_singleton]
    exact hspares _ ⟨⟨r, hr, rfl⟩, htree, .refl _, .refl _⟩

theorem of_content (h : Told Γ held log s) (hcontent : s'.content = s.content) :
    Told Γ held log s' := by
  have hstore : s'.store = s.store := congrArg Content.store hcontent
  have hroots : s'.roots = s.roots := congrArg Content.roots hcontent
  have hdocument := Session.document_of_content hcontent
  refine h.proceed (fun _ _ => rfl) ?_ (congrArg Content.stack hcontent) hroots
    (congrArg Content.commits hcontent) ?_ fun id => ?_
  · rw [hstore]
    exact .refl h.sound h.grounded
  · exact h.contained.of_document (by rw [Session.places, hroots, Session.places]) hdocument
  · rw [hdocument]
    exact .refl _

/-! ## Fair actions -/

/-- Users get nothing and nothing is committed. -/
theorem quiet {a : Action} (h : Told Γ held log (s.perform a)) (hgained : s.gained a = [])
    (hcommitted : s.committed? a = none) :
    Told Γ (held ++ s.gained a) (log ++ (s.committed? a).toList) (s.perform a) := by
  rw [hgained, hcommitted, Option.toList_none, List.append_nil, List.append_nil]
  exact h

/-- What bridges do is of no matter. -/
theorem of_bridges {a : Action} (h : Told Γ held log s)
    (hcontent : (s.perform a).content = s.content) (hgained : s.gained a = [])
    (hcommitted : s.committed? a = none) :
    Told Γ (held ++ s.gained a) (log ++ (s.committed? a).toList) (s.perform a) :=
  (h.of_content hcontent).quiet hgained hcommitted

theorem load (h : Told Γ held log s) (depth : Nat) {modules : Importable} {code : Module}
    (hcode : code.Loadable s.stack) (hmodules : ∀ entry ∈ modules, ∀ e ∈ entry.2, e.2.Made held) :
    ∃ Γ', Told Γ' (held ++ s.gained (.load depth modules code)) log
      (s.perform (.load depth modules code)) := by
  obtain ⟨o, m, ho, hfits, rfl⟩ := hcode.exists_origin
  obtain ⟨Γ', hΓ, hsettles, hexports⟩ := load_settles depth h.sound h.grounded ho hfits h.stack
    fun entry hentry e he => (hmodules entry hentry e he).usable h.usable
  refine ⟨Γ', (h.evaluate hΓ hsettles).hold ?_⟩
  intro v hv
  rw [Session.gained] at hv
  split at hv
  · rename_i exports hok
    obtain ⟨e, he, rfl⟩ := List.mem_map.mp hv
    exact hexports exports hok e he
  · cases hv

theorem call (h : Told Γ held log s) (depth : Nat) {callee : Value} {arguments : List Value}
    (hcallee : callee.Made held) (harguments : ∀ v ∈ arguments, v.Made held) :
    Told Γ (held ++ s.gained (.call depth callee arguments)) log
      (s.perform (.call depth callee arguments)) := by
  obtain ⟨hsettles, hresult⟩ := call_settles depth h.sound h.grounded
    (hcallee.usable h.usable).clean fun v hv => (harguments v hv).usable h.usable
  refine (h.evaluate (fun _ _ => rfl) hsettles).hold ?_
  intro v hv
  rw [Session.gained] at hv
  split at hv
  · rename_i w hok
    rw [List.mem_singleton.mp hv]
    exact hresult w hok
  · cases hv

/-- What a render leaves up to the commit, should there be one. -/
theorem withDocument (h : Told Γ held log s) {id : RendererId} {d : Document} {store : Store}
    (hstore : Settles Γ s.store store) (hlasts : (s.document id).Lasts d)
    (hkinds : (s.document id).KeepsKinds d) : Told Γ held log (s.withDocument id d store) := by
  obtain ⟨hcommits, -, -, hstack⟩ := Session.withDocument_eq id d store s
  have hroots : (s.withDocument id d store).roots = s.roots := Session.roots_modifyRenderer id _ s
  have hdocuments : ∀ other,
      (s.document other).Lasts ((s.withDocument id d store).document other) ∧
        (s.document other).KeepsKinds ((s.withDocument id d store).document other) := by
    intro other
    rcases Session.document_withDocument_eq id other d store s with hsame | ⟨rfl, hd⟩
    · rw [hsame]
      exact ⟨.refl _, .refl _⟩
    · rw [hd]
      exact ⟨hlasts, hkinds⟩
  have hcontained := h.contained.of_keepsKinds (Session.places_withDocument id d store s)
    fun other => (hdocuments other).2
  exact h.proceed (fun _ _ => rfl) hstore hstack hroots hcommits hcontained
    fun other => (hdocuments other).1

/-- A render, however it ends: at most there is a new commit. -/
theorem render (h : Told Γ held log s) (depth : Nat) {id : RendererId} {root : RootId} {v : Value}
    (howner : ∀ r, s.root? root = some r → r.owner = id) (hv : v.Made held) :
    Told Γ held (log ++ (s.committed? (.render depth id root v)).toList)
      (s.perform (.render depth id root v)) := by
  have hperform : s.perform (.render depth id root v) = (s.render depth id root v).2 := rfl
  cases hroot : s.root? root with
  | none =>
    have hrender : s.render depth id root v = (.ok (), s) := by simp [Session.render, hroot]
    have hcommitted : s.committed? (.render depth id root v) = none := by
      simp [Session.committed?, Session.committer?, hroot]
    rw [hcommitted, hperform, hrender, Option.toList_none, List.append_nil]
    exact h
  | some r =>
    cases howner r hroot
    obtain ⟨renderer, hrenderer⟩ := h.contained.exists_renderer hroot
    obtain ⟨result, store, d, hinto, hrender⟩ := Session.render_of_root? hroot depth r.owner v
    obtain ⟨hsettles, hbacked⟩ := renderInto_settles depth r.container
      (s.document r.owner) h.sound h.grounded (hv.usable h.usable)
    have hlasts := Document.lasts_renderInto depth v s.store
      (h.contained _ (Session.mem_places hroot))
    have hkinds :=
      Document.keepsKinds_renderInto depth r.container v s.store (s.document r.owner)
    rw [hinto] at hsettles hbacked hlasts hkinds
    have hdocument := h.withDocument hsettles hlasts hkinds
    rcases hrender with ⟨e, rfl, hrender⟩ | ⟨tree, rfl, hrender⟩
    · have hcommitted : s.committed? (.render depth r.owner root v) = none := by
        simp [Session.committed?, Session.committer?, hrender, Except.toBool]
      rw [hcommitted, hperform, hrender, Option.toList_none, List.append_nil]
      exact hdocument
    · have hroot' : (s.withDocument r.owner d store).root? root = some r := by
        rw [Session.root?, Session.withDocument, Session.roots_modifyRenderer]
        exact hroot
      have hd := Session.document_withDocument hrenderer d store
      have hcommitted : s.committed? (.render depth r.owner root v) =
          some ⟨r.owner, root, tree, store, d⟩ := by
        have hcommitter : s.committer? (.render depth r.owner root v) = some r.owner := by
          simp [Session.committer?, hrenderer, hroot, hrender, Except.toBool]
        have hroot'' := Session.root?_committed hroot r.owner d store tree
        have hd' := Session.document_committed hrenderer d store root tree
        have hstore := (Session.commit_eq r.owner root tree (s.withDocument r.owner d store)).2.2
        simp only [Session.committed?, hcommitter, hperform, hrender, hroot'', hstore,
          Option.bind_eq_bind, Option.bind_some, hd']
        rfl
      have hcommit := hdocument.commit hroot' (hd.symm ▸ hbacked tree rfl)
      rw [hd] at hcommit
      rw [hcommitted, hperform, hrender]
      exact hcommit

theorem perform (h : Told Γ held log s) {a : Action} (ha : a.Fair held s) :
    ∃ Γ', Told Γ' (held ++ s.gained a) (log ++ (s.committed? a).toList) (s.perform a) := by
  cases a with
  | load depth modules m =>
    obtain ⟨Γ', hload⟩ := h.load depth ha.1 ha.2
    have hcommitted : s.committed? (.load depth modules m) = none := rfl
    refine ⟨Γ', ?_⟩
    rw [hcommitted, Option.toList_none, List.append_nil]
    exact hload
  | call depth callee arguments =>
    have hcommitted : s.committed? (.call depth callee arguments) = none := rfl
    refine ⟨Γ, ?_⟩
    rw [hcommitted, Option.toList_none, List.append_nil]
    exact h.call depth ha.1 ha.2
  | render depth id root v =>
    have hgained : s.gained (.render depth id root v) = [] := rfl
    refine ⟨Γ, ?_⟩
    rw [hgained, List.append_nil]
    exact h.render depth ha.1 ha.2
  | addRenderer => exact ⟨Γ, h.addRenderer.quiet rfl rfl⟩
  | createRoot id =>
    obtain ⟨renderer, hrenderer⟩ := ha
    exact ⟨Γ, (h.createRoot hrenderer).quiet rfl rfl⟩
  | attach => exact ⟨Γ, h.of_bridges rfl rfl rfl⟩
  | subscribe bridge l => exact ⟨Γ, h.of_bridges rfl rfl rfl⟩
  | unsubscribe bridge l => exact ⟨Γ, h.of_bridges rfl rfl rfl⟩
  | shut bridge => exact ⟨Γ, h.of_bridges rfl rfl rfl⟩
  | take bridge => exact ⟨Γ, h.of_bridges rfl rfl rfl⟩
  | finish bridge => exact ⟨Γ, h.of_bridges (Session.content_finish bridge s) rfl rfl⟩

/-- By induction on the run. -/
theorem run {as : List Action} (h : Told Γ held log s) (hfair : Session.Fair as held s) :
    ∃ Γ' held', Told Γ' held' (log ++ Session.history as s) (s.run as) := by
  induction as generalizing Γ held log s with
  | nil => exact ⟨Γ, held, by rw [Session.history, List.append_nil]; exact h⟩
  | cons a as ih =>
    obtain ⟨Γ₁, hnext⟩ := h.perform hfair.1
    obtain ⟨Γ', held', hend⟩ := ih hnext hfair.2
    refine ⟨Γ', held', ?_⟩
    rw [Session.history, Session.run_cons, ← List.append_assoc]
    exact hend

end Told

end Live

end MarkupTrace
