import MarkupTrace.Proofs.Containers

/-!
# Runs of a session

A run is a list of actions in the order in which they happen. The two halves of handling an event,
taking it and finishing it, are actions of their own, so anything may happen between them.

Of a session, its wiring is what bridges and listeners have to do with: who watches the renderers,
the bridges, and the calls of listeners. What an action does to the wiring does not depend on the
rest of the session, but for whether a render commits.
-/

namespace MarkupTrace.Live

open Render

/-- What can happen in a session. -/
inductive Action
  | addRenderer
  | createRoot (renderer : RendererId)
  | load (depth : Nat) (modules : Eval.Importable) (m : Source.Module)
  | call (depth : Nat) (callee : Value) (arguments : List Value)
  | render (depth : Nat) (renderer : RendererId) (root : RootId) (v : Value)
  | attach
  | subscribe (bridge : BridgeId) (l : Listener)
  | unsubscribe (bridge : BridgeId) (l : Listener)
  /-- The bridge gets no more events. -/
  | shut (bridge : BridgeId)
  | take (bridge : BridgeId)
  | finish (bridge : BridgeId)

namespace Session

def perform (a : Action) (s : Session) : Session :=
  match a with
  | .addRenderer => s.addRenderer.2
  | .createRoot renderer => (s.createRoot renderer).2
  | .load depth modules m => (s.load depth modules m).2
  | .call depth callee arguments =>
    { s with store := (Eval.call depth callee arguments s.store).2 }
  | .render depth renderer root v => (s.render depth renderer root v).2
  | .attach => s.attach.2
  | .subscribe bridge l => s.modifyBridge bridge (Bridge.subscribe l)
  | .unsubscribe bridge l => s.modifyBridge bridge (Bridge.unsubscribe l)
  | .shut bridge => s.modifyBridge bridge fun b => { b with isOpen := false }
  | .take bridge => s.modifyBridge bridge Bridge.take
  | .finish bridge => (Session.finish bridge s).2

def run (actions : List Action) (s : Session) : Session :=
  actions.foldl (fun s a => s.perform a) s

@[simp] theorem run_nil (s : Session) : s.run [] = s := rfl

@[simp] theorem run_cons (a : Action) (as : List Action) (s : Session) :
    s.run (a :: as) = (s.perform a).run as := rfl

@[simp] theorem run_append (as bs : List Action) (s : Session) :
    s.run (as ++ bs) = (s.run as).run bs :=
  List.foldl_append

/-- The renderer that makes a commit when the action is performed. -/
def committer? (a : Action) (s : Session) : Option RendererId :=
  match a with
  | .render depth id root v =>
    if (s.renderer? id).isSome ∧ (s.root? root).isSome ∧ (s.render depth id root v).1.toBool then
      some id
    else none
  | _ => none

end Session

/-! ## Wiring -/

/-- What bridges and listeners have to do with. -/
structure Wiring where
  /-- The bridge that is told of the commits of each renderer. -/
  watchers : List (Option BridgeId)
  bridges : List Bridge
  calls : List Call

/-- The listeners that are called: those up to the first that fails. -/
def Listener.called : List Listener → List Listener
  | [] => []
  | l :: ls => if l.fails then [l] else l :: called ls

namespace Wiring

def watcher? (id : RendererId) (w : Wiring) : Option BridgeId :=
  if id.number = 0 then none else w.watchers[id.number - 1]?.join

def modifyBridge (id : BridgeId) (f : Bridge → Bridge) (w : Wiring) : Wiring :=
  { w with bridges := w.bridges.modify id.index f }

def add (w : Wiring) : Wiring :=
  { w with
    watchers := w.watchers ++ [none]
    bridges := w.bridges.map (Bridge.register ⟨w.watchers.length + 1⟩) }

/-- A bridge that was just attached, with the renderers it was told of. -/
def newBridge (w : Wiring) : Bridge :=
  ((List.range w.watchers.length).map fun i => RendererId.mk (i + 1)).foldl
    (fun b id => b.register id) ⟨true, none, [], [], none⟩

def attach (w : Wiring) : Wiring := { w with bridges := w.bridges ++ [w.newBridge] }

/-- A renderer made a commit. -/
def commit (id : RendererId) (w : Wiring) : Wiring :=
  match w.watcher? id with
  | some bridge => w.modifyBridge bridge (Bridge.notify .committed)
  | none => w

def watch (bridge : BridgeId) (e : Event) (w : Wiring) : Wiring :=
  match e with
  | .registered id =>
    if id.number = 0 then w
    else { w with watchers := w.watchers.modify (id.number - 1) fun _ => some bridge }
  | .committed => w

def finish (bridge : BridgeId) (w : Wiring) : Wiring :=
  match w.bridges[bridge.index]? with
  | none => w
  | some b =>
    match b.taken with
    | none => w
    | some e =>
      let w := (w.modifyBridge bridge fun b => { b with taken := none }).watch bridge e
      { w with calls := w.calls ++ (Listener.called b.listeners).map (Call.mk bridge) }

/-- What an action does, given who makes a commit by it. -/
def perform (a : Action) (committer : Option RendererId) (w : Wiring) : Wiring :=
  match a with
  | .addRenderer => w.add
  | .attach => w.attach
  | .render .. =>
    match committer with
    | some id => w.commit id
    | none => w
  | .subscribe bridge l => w.modifyBridge bridge (Bridge.subscribe l)
  | .unsubscribe bridge l => w.modifyBridge bridge (Bridge.unsubscribe l)
  | .shut bridge => w.modifyBridge bridge fun b => { b with isOpen := false }
  | .take bridge => w.modifyBridge bridge Bridge.take
  | .finish bridge => w.finish bridge
  | .createRoot _ | .load .. | .call .. => w

end Wiring

namespace Session

def wiring (s : Session) : Wiring := ⟨s.renderers.map (·.watcher), s.bridges, s.calls⟩

theorem wiring_modifyRenderer (id : RendererId) {f : Renderer → Renderer} (s : Session)
    (hf : ∀ r, (f r).watcher = r.watcher) : (s.modifyRenderer id f).wiring = s.wiring := by
  unfold modifyRenderer
  split
  · rfl
  · unfold wiring
    congr 1
    exact map_modify_eq_map hf s.renderers _

theorem wiring_withDocument (id : RendererId) (d : Document) (store : Store) (s : Session) :
    (s.withDocument id d store).wiring = s.wiring :=
  wiring_modifyRenderer id s fun _ => rfl

theorem watcher?_wiring (id : RendererId) (s : Session) :
    s.wiring.watcher? id = (s.renderer? id).bind (·.watcher) := by
  unfold Wiring.watcher? renderer? wiring
  split
  · rfl
  · rw [List.getElem?_map]
    cases s.renderers[id.number - 1]? <;> rfl

theorem wiring_commit (id : RendererId) (root : RootId) (tree : FiberTree) (s : Session) :
    (s.commit id root tree).wiring = s.wiring.commit id := by
  unfold Wiring.commit commit
  rw [watcher?_wiring]
  dsimp only
  change (match (s.renderer? id).bind (·.watcher) with | some bridge => _ | none => _ : Session).wiring = _
  cases (s.renderer? id).bind (·.watcher) <;> rfl

/-- A render that does not commit leaves the wiring as it is. -/
theorem wiring_render (depth : Nat) (id : RendererId) (root : RootId) (v : Value) (s : Session) :
    (s.render depth id root v).2.wiring =
      s.wiring.perform (.render depth id root v)
        (s.committer? (.render depth id root v)) := by
  cases hroot : s.root? root with
  | none =>
    have hcommitter : s.committer? (.render depth id root v) = none := by simp [committer?, hroot]
    have hrender : s.render depth id root v = (.ok (), s) := by simp [render, hroot]
    rw [hcommitter, hrender]
    rfl
  | some r =>
    obtain ⟨result, store, d, -, ⟨e, -, hrender⟩ | ⟨tree, -, hrender⟩⟩ :=
      render_of_root? hroot depth id v
    · have hcommitter : s.committer? (.render depth id root v) = none := by
        simp [committer?, hrender, Except.toBool]
      rw [hcommitter, hrender, wiring_withDocument]
      rfl
    · rw [hrender, wiring_commit, wiring_withDocument]
      cases hrenderer : s.renderer? id with
      | none =>
        have hcommitter : s.committer? (.render depth id root v) = none := by
          simp [committer?, hrenderer]
        rw [hcommitter, Wiring.commit, watcher?_wiring, hrenderer]
        rfl
      | some renderer =>
        have hcommitter : s.committer? (.render depth id root v) = some id := by
          simp [committer?, hrenderer, hroot, hrender, Except.toBool]
        rw [hcommitter]
        rfl

theorem callListeners_snd (id : BridgeId) (ls : List Listener) (s : Session) :
    (callListeners id ls s).2 =
      { s with calls := s.calls ++ (Listener.called ls).map (Call.mk id) } := by
  induction ls generalizing s with
  | nil =>
    unfold callListeners Listener.called
    simp
  | cons l ls ih =>
    unfold callListeners Listener.called
    rw [Attempt.bind_apply, Attempt.modify]
    dsimp only
    split
    · rfl
    · rw [ih]
      simp

theorem wiring_accept (id : BridgeId) (e : Event) (s : Session) : (s.accept id e).wiring =
    (s.wiring.modifyBridge id fun b => { b with taken := none }).watch id e := by
  cases e with
  | committed => rfl
  | registered renderer =>
    change (modifyRenderer renderer _ _).wiring = _
    unfold modifyRenderer Wiring.watch
    dsimp only
    split
    · rfl
    · unfold wiring Wiring.modifyBridge
      dsimp only
      congr 1
      apply map_modify
      intro r
      rfl

theorem wiring_finish (id : BridgeId) (s : Session) :
    (Session.finish id s).2.wiring = s.wiring.finish id := by
  unfold Session.finish Wiring.finish bridge?
  change _ = match s.bridges[id.index]? with | none => _ | some b => _
  cases s.bridges[id.index]? with
  | none => rfl
  | some b =>
    dsimp only
    cases b.taken with
    | none => rfl
    | some e =>
      dsimp only
      rw [callListeners_snd, ← wiring_accept]
      rfl

/-- What an action does to the wiring of a session. -/
theorem wiring_perform (a : Action) (s : Session) :
    (s.perform a).wiring = s.wiring.perform a (s.committer? a) := by
  cases a with
  | addRenderer =>
    unfold perform addRenderer wiring Wiring.perform Wiring.add
    simp
  | createRoot renderer => exact wiring_modifyRenderer renderer s fun _ => rfl
  | load depth modules m => rfl
  | call depth callee arguments => rfl
  | render depth id root v => exact wiring_render depth id root v s
  | attach =>
    unfold perform attach wiring Wiring.perform Wiring.attach Wiring.newBridge
    simp
  | subscribe bridge l => rfl
  | unsubscribe bridge l => rfl
  | shut bridge => rfl
  | take bridge => rfl
  | finish bridge => exact wiring_finish bridge s

end Session

/-! ## One bridge in a run -/

namespace Wiring

def bridge? (id : BridgeId) (w : Wiring) : Option Bridge := w.bridges[id.index]?

/-- What an action does to a bridge. -/
def change (a : Action) (committer : Option RendererId) (id : BridgeId) (w : Wiring) (b : Bridge) :
    Bridge :=
  match a with
  | .addRenderer => b.register ⟨w.watchers.length + 1⟩
  | .render .. => if committer.bind w.watcher? = some id then b.notify .committed else b
  | .subscribe bridge l => if bridge = id then b.subscribe l else b
  | .unsubscribe bridge l => if bridge = id then b.unsubscribe l else b
  | .shut bridge => if bridge = id then { b with isOpen := false } else b
  | .take bridge => if bridge = id then b.take else b
  | .finish bridge => if bridge = id then { b with taken := none } else b
  | .attach | .createRoot _ | .load .. | .call .. => b

theorem bridge?_modifyBridge {id : BridgeId} {w : Wiring} {b : Bridge} (h : w.bridge? id = some b)
    (other : BridgeId) (f : Bridge → Bridge) :
    (w.modifyBridge other f).bridge? id = some (if other = id then f b else b) := by
  obtain ⟨i⟩ := id
  obtain ⟨j⟩ := other
  rw [bridge?] at h
  rw [bridge?, modifyBridge, List.getElem?_modify, h]
  by_cases hj : j = i <;> simp [hj]

theorem bridges_watch (bridge : BridgeId) (e : Event) (w : Wiring) :
    (w.watch bridge e).bridges = w.bridges := by
  unfold watch
  split
  · split <;> rfl
  · rfl

theorem calls_watch (bridge : BridgeId) (e : Event) (w : Wiring) :
    (w.watch bridge e).calls = w.calls := by
  unfold watch
  split
  · split <;> rfl
  · rfl

theorem finish_of_idle {id : BridgeId} {w : Wiring}
    (h : (w.bridge? id).bind (·.taken) = none) : w.finish id = w := by
  have hbridge : w.bridges[id.index]? = w.bridge? id := rfl
  unfold finish
  rw [hbridge]
  cases hb : w.bridge? id with
  | none => rfl
  | some b =>
    rw [hb] at h
    dsimp only [Option.bind_some] at h ⊢
    rw [h]

theorem finish_of_taken {id : BridgeId} {w : Wiring} {b : Bridge} {e : Event}
    (hb : w.bridge? id = some b) (htaken : b.taken = some e) : w.finish id =
      { (w.modifyBridge id fun b => { b with taken := none }).watch id e with
        calls := w.calls ++ (Listener.called b.listeners).map (Call.mk id) } := by
  have hbridge : w.bridges[id.index]? = some b := hb
  unfold finish
  rw [hbridge]
  dsimp only
  rw [htaken]
  dsimp only
  rw [calls_watch]
  rfl

theorem bridge?_finish {id : BridgeId} {w : Wiring} {b : Bridge} (h : w.bridge? id = some b)
    (other : BridgeId) : (w.finish other).bridge? id =
      some (if other = id then { b with taken := none } else b) := by
  cases htaken : (w.bridge? other).bind (·.taken) with
  | none =>
    rw [finish_of_idle htaken, h]
    split
    · rename_i heq
      subst heq
      rw [h] at htaken
      obtain ⟨isOpen, active, listeners, queue, taken⟩ := b
      cases htaken
      rfl
    · rfl
  | some e =>
    obtain ⟨b', hb', htaken⟩ := Option.bind_eq_some_iff.mp htaken
    rw [finish_of_taken hb' htaken, ← bridge?_modifyBridge h other fun b => { b with taken := none }]
    exact congrArg (·[id.index]?) (bridges_watch other e _)

theorem length_watchers_watch (bridge : BridgeId) (e : Event) (w : Wiring) :
    (w.watch bridge e).watchers.length = w.watchers.length := by
  unfold watch
  split
  · split
    · rfl
    · exact List.length_modify ..
  · rfl

theorem watchers_watch_registered (bridge : BridgeId) (id : RendererId) (w : Wiring) (i : Nat) :
    (w.watch bridge (.registered id)).watchers[i]? =
      if id.number = i + 1 then w.watchers[i]?.map fun _ => some bridge else w.watchers[i]? := by
  unfold watch
  dsimp only
  split
  · rename_i hzero
    rw [if_neg (by omega)]
  · rw [List.getElem?_modify]
    by_cases hi : id.number = i + 1
    · rw [if_pos hi, hi]
      simp
    · rw [if_neg hi]
      have hne : id.number - 1 ≠ i := by omega
      simp [hne]

/-- A bridge that is there stays. -/
theorem bridge?_perform {id : BridgeId} {w : Wiring} {b : Bridge} (h : w.bridge? id = some b)
    (a : Action) (committer : Option RendererId) :
    (w.perform a committer).bridge? id = some (w.change a committer id b) := by
  cases a with
  | addRenderer =>
    rw [bridge?] at h
    simp [perform, add, bridge?, h, change]
  | attach =>
    rw [bridge?] at h
    rw [perform, attach, bridge?, List.getElem?_append_left (List.getElem?_eq_some_iff.mp h).1, h]
    rfl
  | render depth renderer root v =>
    unfold perform change
    cases committer with
    | none => exact h
    | some renderer =>
      dsimp only [Option.bind_some]
      unfold commit
      split
      · rename_i other hwatcher
        rw [bridge?_modifyBridge h]
        simp [hwatcher]
      · rename_i hwatcher
        simp [hwatcher, h]
  | subscribe bridge l => exact bridge?_modifyBridge h bridge _
  | unsubscribe bridge l => exact bridge?_modifyBridge h bridge _
  | shut bridge => exact bridge?_modifyBridge h bridge _
  | take bridge => exact bridge?_modifyBridge h bridge _
  | finish bridge => exact bridge?_finish h bridge
  | createRoot renderer => exact h
  | load depth modules m => exact h
  | call depth callee arguments => exact h

theorem length_bridges_finish (id : BridgeId) (w : Wiring) :
    (w.finish id).bridges.length = w.bridges.length := by
  cases htaken : (w.bridge? id).bind (·.taken) with
  | none => rw [finish_of_idle htaken]
  | some e =>
    obtain ⟨b, hb, htaken⟩ := Option.bind_eq_some_iff.mp htaken
    rw [finish_of_taken hb htaken, bridges_watch]
    exact List.length_modify ..

/-- Bridges are only added by attaching. -/
theorem length_bridges_perform {a : Action} (ha : a ≠ .attach) (committer : Option RendererId)
    (w : Wiring) : (w.perform a committer).bridges.length = w.bridges.length := by
  have hmodify : ∀ id f, (w.modifyBridge id f).bridges.length = w.bridges.length :=
    fun id f => List.length_modify ..
  cases a with
  | attach => exact absurd rfl ha
  | addRenderer => exact List.length_map ..
  | render depth renderer root v =>
    unfold perform
    cases committer with
    | none => rfl
    | some renderer =>
      dsimp only
      unfold commit
      split
      · exact hmodify _ _
      · rfl
  | subscribe id l => exact hmodify _ _
  | unsubscribe id l => exact hmodify _ _
  | shut id => exact hmodify _ _
  | take id => exact hmodify _ _
  | finish id => exact length_bridges_finish id w
  | createRoot renderer => rfl
  | load depth modules m => rfl
  | call depth callee arguments => rfl

theorem bridge?_perform_of_none {w : Wiring} {id : BridgeId} {a : Action}
    {committer : Option RendererId} (ha : a ≠ .attach) (hb : w.bridge? id = none) :
    (w.perform a committer).bridge? id = none := by
  apply List.getElem?_eq_none
  rw [length_bridges_perform ha]
  exact List.getElem?_eq_none_iff.mp hb

/-- A new bridge watches the last renderer and has the registrations of all of them before it. -/
theorem newBridge_eq (w : Wiring) : w.newBridge =
    ⟨true, if w.watchers.length = 0 then none else some ⟨w.watchers.length⟩, [],
      (List.range w.watchers.length).map fun i => .registered ⟨i + 1⟩, none⟩ := by
  unfold newBridge
  induction w.watchers.length with
  | zero => rfl
  | succ n ih =>
    rw [List.range_succ, List.map_append, List.foldl_append, ih]
    simp [Bridge.register, Bridge.notify]

end Wiring

namespace Session

theorem bridge?_wiring (id : BridgeId) (s : Session) : s.wiring.bridge? id = s.bridge? id := rfl

theorem committer?_eq_some {s : Session} {a : Action} {id : RendererId}
    (h : s.committer? a = some id) : ∃ depth root v r, a = .render depth id root v ∧
      s.renderer? id = some r := by
  unfold committer? at h
  split at h
  · rename_i depth renderer root v
    split at h
    · rename_i hcommits
      cases h
      obtain ⟨r, hr⟩ := Option.isSome_iff_exists.mp hcommits.1
      exact ⟨depth, root, v, r, rfl, hr⟩
    · cases h
  · cases h

theorem watchers_wiring {s : Session} {id : RendererId} {r : Renderer}
    (h : s.renderer? id = some r) : id.number ≠ 0 ∧ id.number ≤ s.wiring.watchers.length ∧
      s.wiring.watchers[id.number - 1]? = some r.watcher := by
  unfold renderer? at h
  split at h
  · cases h
  · rename_i hid
    have hlt := (List.getElem?_eq_some_iff.mp h).1
    refine ⟨hid, ?_, ?_⟩
    · rw [wiring, List.length_map]
      omega
    · rw [wiring, List.getElem?_map, h]
      rfl

end Session

/-! ## First occurrences -/

section

variable {α : Type} [DecidableEq α]

theorem eraseDups_filter (p : α → Bool) (xs : List α) :
    (xs.filter p).eraseDups = xs.eraseDups.filter p := by
  induction hn : xs.length using Nat.strongRecOn generalizing xs with
  | ind n ih =>
    cases xs with
    | nil => rfl
    | cons x xs =>
      have hlt : (xs.filter fun y => !y == x).length < n := by
        have := List.length_filter_le (fun y => !y == x) xs
        simp only [List.length_cons] at hn
        omega
      have hrest := ih _ hlt (xs.filter fun y => !y == x) rfl
      rw [List.eraseDups_cons, List.filter_cons]
      by_cases hx : p x = true
      · rw [if_pos hx, List.eraseDups_cons, List.filter_cons_of_pos hx, ← hrest,
          List.filter_filter, List.filter_filter]
        simp only [Bool.and_comm]
      · rw [if_neg hx, List.filter_cons_of_neg hx, ← hrest, List.filter_filter]
        congr 1
        apply List.filter_congr
        intro y _
        by_cases hy : y = x
        · subst hy
          simp [hx]
        · simp [hy]

theorem eraseDups_concat (xs : List α) (x : α) :
    (xs ++ [x]).eraseDups = if x ∈ xs then xs.eraseDups else xs.eraseDups ++ [x] := by
  rw [List.eraseDups_append, List.removeAll]
  split
  · rename_i hx
    simp [hx]
  · rename_i hx
    simp [hx, List.eraseDups_cons]

theorem nodup_eraseDups (xs : List α) : xs.eraseDups.Nodup := by
  induction hn : xs.length using Nat.strongRecOn generalizing xs with
  | ind n ih =>
    cases xs with
    | nil => exact .nil
    | cons x xs =>
      have hlt : (xs.filter fun y => !y == x).length < n := by
        have := List.length_filter_le (fun y => !y == x) xs
        simp only [List.length_cons] at hn
        omega
      rw [List.eraseDups_cons]
      refine List.nodup_cons.mpr ⟨?_, ih _ hlt _ rfl⟩
      intro hx
      simp at hx

end

end MarkupTrace.Live
