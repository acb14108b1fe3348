import MarkupTrace.Proofs.FairRuns

/-!
# The default root

Asked for no root in particular, a bridge answers for one root of the renderer that it watches: the one
whose first commit came last. A root that was committed before and is committed again does not take the
place of a newer one, so this need not be the root of the last commit.
-/

namespace MarkupTrace.Live

open Render

/-! ## The newest of a list -/

/-- The last of a list at its first occurrence: before it stand others, and behind it only what
occurred already. -/
theorem exists_newest {α : Type} [DecidableEq α] (xs : List α) (h : xs ≠ []) :
    ∃ before newest after, xs = before ++ newest :: after ∧ newest ∉ before ∧
      (∀ x ∈ after, x = newest ∨ x ∈ before) ∧ xs.eraseDups.getLast? = some newest := by
  induction xs using List.reverseRecOn with
  | nil => exact absurd rfl h
  | append_singleton xs x ih =>
    rw [eraseDups_concat]
    split
    · rename_i hx
      obtain ⟨before, newest, after, hxs, hbefore, hafter, hlast⟩ := ih (List.ne_nil_of_mem hx)
      refine ⟨before, newest, after ++ [x], by simp [hxs], hbefore, ?_, hlast⟩
      rw [List.forall_mem_append, List.forall_mem_singleton]
      refine ⟨hafter, ?_⟩
      rw [hxs] at hx
      rcases List.mem_append.mp hx with hx | hx
      · exact .inr hx
      · exact (List.mem_cons.mp hx).elim .inl (hafter x)
    · rename_i hx
      exact ⟨xs, x, [], rfl, hx, nofun, List.getLast?_concat⟩

namespace Session

/-! ## Commits of a run -/

/-- The renderer and the root of the commit that an action makes. -/
def committedRoot? (a : Action) (s : Session) : Option (RendererId × RootId) :=
  match a with
  | .render depth id root v =>
    if (s.root? root).isSome ∧ (s.render depth id root v).1.toBool then some (id, root) else none
  | _ => none

/-- The renderers and roots of all commits of a run, in order. -/
def commitLog : List Action → Session → List (RendererId × RootId)
  | [], _ => []
  | a :: as, s => (s.committedRoot? a).toList ++ commitLog as (s.perform a)

/-- The roots that a renderer commits in a run, one for each commit. -/
def rootsCommitted (id : RendererId) (log : List (RendererId × RootId)) : List RootId :=
  (log.filter fun c => c.1 = id).map (·.2)

section

variable {log : List (RendererId × RootId)} {s : Session}

theorem rootsOf_congr {s' : Session} (h : s'.commits = s.commits) (id : RendererId) :
    s'.rootsOf id = s.rootsOf id := by
  rw [rootsOf, h, rootsOf]

theorem commits_withDocument (id : RendererId) (d : Document) (store : Store) (s : Session) :
    (s.withDocument id d store).commits = s.commits := by
  unfold withDocument modifyRenderer
  split <;> rfl

/-- Only a commit adds a root, and only at the first time. -/
theorem rootsOf_perform (h : ∀ id, s.rootsOf id = (rootsCommitted id log).eraseDups) (a : Action)
    (id : RendererId) : (s.perform a).rootsOf id =
      (rootsCommitted id (log ++ (s.committedRoot? a).toList)).eraseDups := by
  have hquiet : s.committedRoot? a = none → (s.perform a).commits = s.commits →
      (s.perform a).rootsOf id =
        (rootsCommitted id (log ++ (s.committedRoot? a).toList)).eraseDups := by
    intro hnone hcommits
    rw [hnone, Option.toList_none, List.append_nil, rootsOf_congr hcommits, h]
  cases a with
  | render depth renderer root v =>
    cases hroot : s.root? root with
    | none => exact hquiet (by simp [committedRoot?, hroot]) (by simp [perform, render, hroot])
    | some r =>
      obtain ⟨result, store, d, -, ⟨e, -, hrender⟩ | ⟨tree, -, hrender⟩⟩ :=
        render_of_root? hroot depth renderer v
      · apply hquiet
        · simp [committedRoot?, hrender, Except.toBool]
        · rw [perform, hrender]
          exact commits_withDocument renderer d store s
      · have hcommitted : s.committedRoot? (.render depth renderer root v) = some (renderer, root) := by
          simp [committedRoot?, hroot, hrender, Except.toBool]
        have hroots := rootsOf_congr (commits_withDocument renderer d store s)
        rw [hcommitted, perform, hrender, rootsCommitted, Option.toList_some, List.filter_append,
          List.map_append]
        by_cases hid : renderer = id
        · subst hid
          rw [List.filter_cons_of_pos (by simp), List.filter_nil, List.map_singleton, eraseDups_concat,
            rootsOf_commit_self, hroots, h]
          simp only [List.mem_eraseDups, rootsCommitted]
        · rw [rootsOf_commit_of_ne hid, hroots, h]
          simp [hid, rootsCommitted]
  | createRoot renderer =>
    apply hquiet rfl
    unfold perform createRoot modifyRenderer
    dsimp only
    split <;> rfl
  | finish bridge => exact hquiet rfl (congrArg Content.commits (content_finish bridge s))
  | addRenderer => exact hquiet rfl rfl
  | load depth modules m => exact hquiet rfl rfl
  | call depth callee arguments => exact hquiet rfl rfl
  | attach => exact hquiet rfl rfl
  | subscribe bridge l => exact hquiet rfl rfl
  | unsubscribe bridge l => exact hquiet rfl rfl
  | shut bridge => exact hquiet rfl rfl
  | take bridge => exact hquiet rfl rfl

/-- By induction on the run. -/
theorem rootsOf_run (h : ∀ id, s.rootsOf id = (rootsCommitted id log).eraseDups) (as : List Action)
    (id : RendererId) :
    (s.run as).rootsOf id = (rootsCommitted id (log ++ commitLog as s)).eraseDups := by
  induction as generalizing log s with
  | nil => rw [commitLog, List.append_nil, run_nil, h]
  | cons a as ih => rw [commitLog, run_cons, ← List.append_assoc, ih (rootsOf_perform h a)]

end

/-! ## Queries without a position -/

/-- The structure of a root. -/
def rootStructure? (root : RootId) (s : Session) : Option (List Structure.Entry) := do
  let r ← s.root? root
  Structure.ofTree? s.store (s.document r.owner) (← r.tree)

theorem structure?_none_eq {s : Session} {id : BridgeId} {b : Bridge} (hb : s.bridge? id = some b)
    {renderer : RendererId} (hactive : b.active = some renderer) :
    s.structure? id none = (s.rootsOf renderer).getLast?.bind fun root => s.rootStructure? root := by
  unfold structure? selected? rootStructure?
  simp only [hb, hactive, Option.bind_eq_bind, Option.bind_some, Option.bind_assoc]

/-- In every run from the beginning: asked for no root in particular, a bridge gives the structure of the
root whose first commit by the watched renderer came last. Behind this first commit the renderer
committed no root for a first time. Without any commit there is no structure. -/
theorem default_root_is_newest {store : Store} {as : List Action} {id : BridgeId} {b : Bridge}
    (hb : ((ofStore store).run as).bridge? id = some b) {renderer : RendererId}
    (hactive : b.active = some renderer) :
    let s := (ofStore store).run as
    let roots := rootsCommitted renderer (commitLog as (ofStore store))
    (roots = [] → s.structure? id none = none) ∧
      (roots ≠ [] → ∃ before newest after, roots = before ++ newest :: after ∧ newest ∉ before ∧
        (∀ root ∈ after, root = newest ∨ root ∈ before) ∧ roots.eraseDups.getLast? = some newest ∧
        s.structure? id none = s.rootStructure? newest) := by
  intro s roots
  have hstart : ∀ id, (ofStore store).rootsOf id = (rootsCommitted id []).eraseDups := fun _ => rfl
  have hroots : s.rootsOf renderer = roots.eraseDups := rootsOf_run hstart as renderer
  have hstructure : s.structure? id none =
      roots.eraseDups.getLast?.bind fun root => s.rootStructure? root := by
    rw [structure?_none_eq hb hactive, hroots]
  constructor
  · intro hnone
    rw [hstructure, hnone]
    rfl
  · intro hsome
    obtain ⟨before, newest, after, hdivided, hbefore, hafter, hlast⟩ := exists_newest roots hsome
    refine ⟨before, newest, after, hdivided, hbefore, hafter, hlast, ?_⟩
    rw [hstructure, hlast, Option.bind_some]

/-- Two roots get a text each, and then the first of them another one. -/
def returningRun : List Action :=
  [.attach, .addRenderer, .createRoot ⟨1⟩, .createRoot ⟨1⟩, .render 30 ⟨1⟩ ⟨0⟩ (.text "a"),
    .render 30 ⟨1⟩ ⟨1⟩ (.text "b"), .render 30 ⟨1⟩ ⟨0⟩ (.text "c")]

def returningBridge : Bridge := ⟨true, some ⟨1⟩, [], [.registered ⟨1⟩], none⟩

theorem bridge?_returningRun :
    ((ofStore .empty).run returningRun).bridge? ⟨0⟩ = some returningBridge := by
  decide +kernel

theorem commitLog_returningRun :
    commitLog returningRun (ofStore .empty) = [(⟨1⟩, ⟨0⟩), (⟨1⟩, ⟨1⟩), (⟨1⟩, ⟨0⟩)] := by
  decide +kernel

/-- The nodes of a structure's entries. -/
def nodesOf (entries : Option (List Structure.Entry)) : List (Option NodeId) :=
  (entries.getD []).map Structure.Entry.node

theorem nodesOf_returningRun :
    nodesOf (((ofStore .empty).run returningRun).structure? ⟨0⟩ none) = [some ⟨3⟩] ∧
      nodesOf (((ofStore .empty).run returningRun).rootStructure? ⟨0⟩) = [some ⟨4⟩] := by
  decide +kernel

/-- The default is the root that was new at the second commit. -/
theorem default_root_is_newest_returning :
    ((ofStore .empty).run returningRun).bridge? ⟨0⟩ = some returningBridge ∧
      returningBridge.active = some ⟨1⟩ ∧
      rootsCommitted ⟨1⟩ (commitLog returningRun (ofStore .empty)) = [⟨0⟩, ⟨1⟩, ⟨0⟩] ∧
      ((ofStore .empty).run returningRun).structure? ⟨0⟩ none =
        ((ofStore .empty).run returningRun).rootStructure? ⟨1⟩ := by
  have hroots : rootsCommitted ⟨1⟩ (commitLog returningRun (ofStore .empty)) = [⟨0⟩, ⟨1⟩, ⟨0⟩] := by
    rw [commitLog_returningRun]
    rfl
  obtain ⟨-, hsome⟩ := default_root_is_newest bridge?_returningRun rfl
  obtain ⟨before, newest, after, -, -, -, hlast, hstructure⟩ := hsome (by rw [hroots]; nofun)
  rw [hroots] at hlast
  have hnewest : newest = ⟨1⟩ := Option.some.inj (hlast.symm.trans (by decide))
  rw [hnewest] at hstructure
  exact ⟨bridge?_returningRun, rfl, hroots, hstructure⟩

/-- The last commit of the run was to the first root, and the default is not the structure of that. -/
theorem last_commit_is_not_default :
    (rootsCommitted ⟨1⟩ (commitLog returningRun (ofStore .empty))).getLast? = some ⟨0⟩ ∧
      ((ofStore .empty).run returningRun).bridge? ⟨0⟩ = some returningBridge ∧
      returningBridge.active = some ⟨1⟩ ∧
      ((ofStore .empty).run returningRun).structure? ⟨0⟩ none ≠
        ((ofStore .empty).run returningRun).rootStructure? ⟨0⟩ := by
  refine ⟨?_, bridge?_returningRun, rfl, ?_⟩
  · rw [commitLog_returningRun]
    rfl
  · intro h
    obtain ⟨hdefault, hfirst⟩ := nodesOf_returningRun
    rw [h, hfirst] at hdefault
    revert hdefault
    decide

end Session

end MarkupTrace.Live
