import MarkupTrace.Proofs.Runs

/-!
# Who is told of commits

Several bridges may handle the registration of one renderer. The renderer keeps no more than one of
them in mind, so a commit is told to the bridge that handled the registration last and to no other.
-/

namespace MarkupTrace.Live

/-- An event that waits for a bridge or is being handled by it. -/
def Bridge.Holds (e : Event) (b : Bridge) : Prop := e ∈ b.queue ∨ b.taken = some e

namespace Wiring

/-- Whatever is referred to is there: bridges by their numbers, and renderers by the events of their
registrations. -/
structure Wired (w : Wiring) : Prop where
  watchers : ∀ id bridge, w.watcher? id = some bridge → bridge.index < w.bridges.length
  calls : ∀ c ∈ w.calls, c.bridge.index < w.bridges.length
  events : ∀ bridge b, w.bridge? bridge = some b → ∀ id, b.Holds (.registered id) →
    id.number ≠ 0 ∧ id.number ≤ w.watchers.length

/-! ## What bridges hold -/

/-- New events are those of new renderers and of commits. -/
theorem holds_of_change {w : Wiring} {a : Action} {committer : Option RendererId} {id : BridgeId}
    {b : Bridge} {e : Event} (h : (w.change a committer id b).Holds e) :
    b.Holds e ∨ e = .committed ∨ a = .addRenderer ∧ e = .registered ⟨w.watchers.length + 1⟩ := by
  have hnotify : ∀ {b : Bridge} {e' : Event}, (b.notify e').Holds e → b.Holds e ∨ e = e' := by
    intro b e' h
    unfold Bridge.notify at h
    split at h
    · rcases h with hqueue | htaken
      · rcases List.mem_append.mp hqueue with hqueue | hlast
        · exact .inl (.inl hqueue)
        · exact .inr (List.mem_singleton.mp hlast)
      · exact .inl (.inr htaken)
    · exact .inl h
  unfold change at h
  cases a with
  | addRenderer =>
    rcases hnotify h with hold | hnew
    · exact .inl hold
    · exact .inr (.inr ⟨rfl, hnew⟩)
  | render depth renderer root v =>
    dsimp only at h
    split at h
    · exact (hnotify h).imp_right .inl
    · exact .inl h
  | subscribe bridge l =>
    dsimp only at h
    split at h
    · unfold Bridge.subscribe at h
      split at h <;> exact .inl h
    · exact .inl h
  | take bridge =>
    dsimp only at h
    split at h
    · unfold Bridge.take at h
      split at h
      · rename_i first rest htaken hqueue
        left
        rcases h with hrest | hfirst
        · exact .inl (hqueue ▸ List.mem_cons_of_mem _ hrest)
        · cases hfirst
          exact .inl (hqueue ▸ List.mem_cons_self)
      · exact .inl h
    · exact .inl h
  | finish bridge =>
    dsimp only at h
    split at h
    · exact .inl (.inl (h.resolve_right nofun))
    · exact .inl h
  | unsubscribe bridge l =>
    dsimp only at h
    split at h <;> exact .inl h
  | shut bridge =>
    dsimp only at h
    split at h <;> exact .inl h
  | _ => exact .inl h

/-! ## Who handles a registration -/

/-- The bridge that handles the registration of a renderer by an action. -/
def handler? (id : RendererId) (a : Action) (w : Wiring) : Option BridgeId :=
  match a with
  | .finish bridge =>
    if (w.bridge? bridge).bind (·.taken) = some (.registered id) then some bridge else none
  | _ => none

theorem exists_of_handler? {id : RendererId} {a : Action} {w : Wiring} {bridge : BridgeId}
    (h : w.handler? id a = some bridge) : a = .finish bridge ∧
      ∃ b, w.bridge? bridge = some b ∧ b.taken = some (.registered id) := by
  unfold handler? at h
  split at h
  · split at h
    · rename_i htaken
      cases h
      obtain ⟨b, hb, htaken⟩ := Option.bind_eq_some_iff.mp htaken
      exact ⟨rfl, b, hb, htaken⟩
    · cases h
  · cases h

theorem watcher?_congr {w w' : Wiring} (h : w'.watchers = w.watchers) (id : RendererId) :
    w'.watcher? id = w.watcher? id := by
  rw [watcher?, watcher?, h]

theorem watcher?_watch {w : Wiring} {e : Event} {id : RendererId}
    (h : e = .registered id → id.number ≠ 0 ∧ id.number ≤ w.watchers.length) (bridge : BridgeId) :
    (w.watch bridge e).watcher? id =
      if e = .registered id then some bridge else w.watcher? id := by
  split
  · rename_i heq
    obtain ⟨hid, hle⟩ := h heq
    have hlt : id.number - 1 < w.watchers.length := by omega
    have hnumber : id.number = id.number - 1 + 1 := by omega
    rw [heq, watcher?, if_neg hid, watchers_watch_registered, if_pos hnumber,
      List.getElem?_eq_getElem hlt]
    rfl
  · rename_i hne
    cases e with
    | committed => rfl
    | registered other =>
      unfold watcher?
      split
      · rfl
      · rename_i hid
        rw [watchers_watch_registered, if_neg]
        intro hnumber
        apply hne
        obtain ⟨i⟩ := id
        obtain ⟨j⟩ := other
        dsimp only at hid hnumber
        rw [hnumber, Nat.sub_add_cancel (Nat.pos_of_ne_zero hid)]

/-- A bridge that handles a registration takes the renderer over; nothing else does. -/
theorem watcher?_perform {w : Wiring} (h : w.Wired) (a : Action) (committer : Option RendererId)
    (id : RendererId) :
    (w.perform a committer).watcher? id = (w.handler? id a).or (w.watcher? id) := by
  cases a with
  | addRenderer =>
    change w.add.watcher? id = w.watcher? id
    unfold watcher? add
    dsimp only
    split
    · rfl
    · rw [List.getElem?_append]
      split
      · rfl
      · rename_i hge
        rw [List.getElem?_eq_none (Nat.le_of_not_lt hge)]
        rcases id.number - 1 - w.watchers.length with _ | _ <;> rfl
  | render depth renderer root v =>
    apply watcher?_congr
    unfold perform
    cases committer with
    | none => rfl
    | some renderer =>
      dsimp only
      unfold commit
      split <;> rfl
  | finish bridge =>
    unfold perform handler?
    dsimp only
    cases htaken : (w.bridge? bridge).bind (·.taken) with
    | none =>
      rw [finish_of_idle htaken]
      rfl
    | some e =>
      obtain ⟨b, hb, hb'⟩ := Option.bind_eq_some_iff.mp htaken
      rw [finish_of_taken hb hb']
      change ((w.modifyBridge bridge _).watch bridge e).watcher? id = _
      rw [watcher?_watch]
      · simp only [Option.some.injEq]
        split <;> rfl
      · rintro rfl
        exact h.events bridge b hb id (.inr hb')
  | _ => rfl

/-! ## The invariant -/

theorem length_watchers_of_ne {a : Action} (ha : a ≠ .addRenderer) (committer : Option RendererId)
    (w : Wiring) : (w.perform a committer).watchers.length = w.watchers.length := by
  cases a with
  | addRenderer => exact absurd rfl ha
  | render depth renderer root v =>
    unfold perform
    cases committer with
    | none => rfl
    | some renderer =>
      dsimp only
      unfold commit
      split <;> rfl
  | finish bridge =>
    unfold perform
    dsimp only
    cases htaken : (w.bridge? bridge).bind (·.taken) with
    | none => rw [finish_of_idle htaken]
    | some e =>
      obtain ⟨b, hb, htaken⟩ := Option.bind_eq_some_iff.mp htaken
      rw [finish_of_taken hb htaken, length_watchers_watch]
      rfl
  | _ => rfl

theorem length_watchers_add (w : Wiring) : w.add.watchers.length = w.watchers.length + 1 := by
  simp [add]

theorem length_watchers_le (a : Action) (committer : Option RendererId) (w : Wiring) :
    w.watchers.length ≤ (w.perform a committer).watchers.length := by
  by_cases ha : a = .addRenderer
  · subst ha
    exact Nat.le_trans (Nat.le_succ _) (Nat.le_of_eq (length_watchers_add w).symm)
  · exact Nat.le_of_eq (length_watchers_of_ne ha committer w).symm

/-- The calls that an action adds. -/
def added (a : Action) (w : Wiring) : List Call :=
  match a with
  | .finish bridge =>
    match w.bridge? bridge with
    | some b => if b.taken.isSome then (Listener.called b.listeners).map (Call.mk bridge) else []
    | none => []
  | _ => []

theorem calls_perform (a : Action) (committer : Option RendererId) (w : Wiring) :
    (w.perform a committer).calls = w.calls ++ w.added a := by
  cases a with
  | render depth renderer root v =>
    unfold perform added
    rw [List.append_nil]
    cases committer with
    | none => rfl
    | some renderer =>
      dsimp only
      unfold commit
      split <;> rfl
  | finish bridge =>
    unfold perform added
    dsimp only
    cases htaken : (w.bridge? bridge).bind (·.taken) with
    | none =>
      rw [finish_of_idle htaken]
      cases hb : w.bridge? bridge with
      | none => exact (List.append_nil _).symm
      | some b =>
        rw [hb] at htaken
        dsimp only [Option.bind_some] at htaken ⊢
        rw [htaken]
        exact (List.append_nil _).symm
    | some e =>
      obtain ⟨b, hb, htaken⟩ := Option.bind_eq_some_iff.mp htaken
      rw [finish_of_taken hb htaken, hb]
      dsimp only
      rw [htaken]
      rfl
  | _ => exact (List.append_nil _).symm

theorem bridge_of_mem_added {a : Action} {w : Wiring} {c : Call} (h : c ∈ w.added a) :
    a = .finish c.bridge ∧ c.bridge.index < w.bridges.length := by
  unfold added at h
  split at h
  · split at h
    · rename_i bridge b hb
      split at h
      · obtain ⟨l, -, rfl⟩ := List.mem_map.mp h
        exact ⟨rfl, (List.getElem?_eq_some_iff.mp hb).1⟩
      · cases h
    · cases h
  · cases h

/-- Bridges stay, and at most one is added. -/
theorem bridge?_perform_cases {w : Wiring} {a : Action} {committer : Option RendererId}
    {id : BridgeId} {b' : Bridge} (h : (w.perform a committer).bridge? id = some b') :
    (∃ b, w.bridge? id = some b ∧ b' = w.change a committer id b) ∨
      a = .attach ∧ id = ⟨w.bridges.length⟩ ∧ b' = w.newBridge := by
  cases hb : w.bridge? id with
  | some b =>
    rw [bridge?_perform hb] at h
    exact .inl ⟨b, rfl, (Option.some.inj h).symm⟩
  | none =>
    right
    by_cases ha : a = .attach
    · subst ha
      have hge : w.bridges.length ≤ id.index := List.getElem?_eq_none_iff.mp hb
      have hlt := (List.getElem?_eq_some_iff.mp h).1
      obtain ⟨i⟩ := id
      dsimp only [perform, attach] at hge hlt h
      rw [List.length_append, List.length_singleton] at hlt
      have heq : i = w.bridges.length := by omega
      subst heq
      refine ⟨rfl, rfl, ?_⟩
      rw [bridge?] at h
      dsimp only at h
      rw [List.getElem?_concat_length] at h
      exact (Option.some.inj h).symm
    · rw [bridge?_perform_of_none ha hb] at h
      cases h

theorem length_bridges_le (a : Action) (committer : Option RendererId) (w : Wiring) :
    w.bridges.length ≤ (w.perform a committer).bridges.length := by
  by_cases ha : a = .attach
  · subst ha
    exact Nat.le_of_lt (by simp [perform, attach])
  · exact Nat.le_of_eq (length_bridges_perform ha committer w).symm

theorem Wired.perform {w : Wiring} (h : w.Wired) (a : Action) (committer : Option RendererId) :
    (w.perform a committer).Wired := by
  have hbridges := length_bridges_le a committer w
  have hwatchers := length_watchers_le a committer w
  refine ⟨?_, ?_, ?_⟩
  · intro id bridge hwatcher
    apply Nat.lt_of_lt_of_le _ hbridges
    rw [watcher?_perform h] at hwatcher
    rcases Option.or_eq_some_iff.mp hwatcher with hhandler | ⟨-, hold⟩
    · obtain ⟨-, b, hb, -⟩ := exists_of_handler? hhandler
      exact (List.getElem?_eq_some_iff.mp hb).1
    · exact h.watchers id bridge hold
  · intro c hc
    apply Nat.lt_of_lt_of_le _ hbridges
    rw [calls_perform] at hc
    rcases List.mem_append.mp hc with hold | hadded
    · exact h.calls c hold
    · exact (bridge_of_mem_added hadded).2
  · intro bridge b' hb' id hholds
    rcases bridge?_perform_cases hb' with ⟨b, hb, rfl⟩ | ⟨rfl, -, rfl⟩
    · rcases holds_of_change hholds with hold | hcommitted | ⟨rfl, hnew⟩
      · obtain ⟨hid, hle⟩ := h.events bridge b hb id hold
        exact ⟨hid, Nat.le_trans hle hwatchers⟩
      · cases hcommitted
      · cases hnew
        simp [Wiring.perform, add]
    · rw [newBridge_eq] at hholds
      rcases hholds with hqueue | htaken
      · obtain ⟨i, hi, heq⟩ := List.mem_map.mp hqueue
        cases heq
        exact ⟨Nat.succ_ne_zero i, Nat.le_trans (List.mem_range.mp hi) hwatchers⟩
      · cases htaken

end Wiring

namespace Session

theorem wired_run {s : Session} (h : s.wiring.Wired) (as : List Action) :
    (s.run as).wiring.Wired := by
  induction as generalizing s with
  | nil => exact h
  | cons a as ih =>
    apply ih
    rw [wiring_perform]
    exact h.perform a _

theorem wired_ofStore (store : Store) : (ofStore store).wiring.Wired := by
  refine ⟨?_, nofun, ?_⟩
  · intro id bridge h
    unfold Wiring.watcher? at h
    split at h <;> cases h
  · intro bridge b h
    cases h

/-! ## The last to handle a registration -/

/-- The bridge that was the last to handle the registration of a renderer in a run. -/
def lastHandler? (id : RendererId) : List Action → Session → Option BridgeId
  | [], _ => none
  | a :: as, s => (lastHandler? id as (s.perform a)).or (s.wiring.handler? id a)

theorem watcher?_run {s : Session} (h : s.wiring.Wired) (as : List Action) (id : RendererId) :
    (s.run as).wiring.watcher? id = (lastHandler? id as s).or (s.wiring.watcher? id) := by
  induction as generalizing s with
  | nil => rfl
  | cons a as ih =>
    have hnext : (s.perform a).wiring.Wired := wired_run h [a]
    rw [run_cons, ih hnext, wiring_perform, Wiring.watcher?_perform h, lastHandler?, Option.or_assoc]

/-- In a run from the beginning, a renderer's commits are told to the bridge that handled its
registration last. -/
theorem watcher?_run_ofStore (store : Store) (as : List Action) (id : RendererId) :
    ((ofStore store).run as).wiring.watcher? id = lastHandler? id as (ofStore store) := by
  have hnone : (ofStore store).wiring.watcher? id = none := by
    unfold Wiring.watcher?
    split <;> rfl
  rw [watcher?_run (wired_ofStore store), hnone, Option.or_none]

/-- A commit is told to the bridge that was the last to handle the renderer's registration, and to no
other. -/
theorem commit_tells_last_handler {store : Store} {as : List Action} {a : Action} {id : RendererId}
    (h : ((ofStore store).run as).committer? a = some id) {bridge : BridgeId} {b : Bridge}
    (hb : ((ofStore store).run as).bridge? bridge = some b) :
    (((ofStore store).run as).perform a).bridge? bridge =
      some (if lastHandler? id as (ofStore store) = some bridge then b.notify .committed else b) := by
  obtain ⟨depth, root, v, r, rfl, -⟩ := committer?_eq_some h
  rw [← bridge?_wiring] at hb ⊢
  rw [wiring_perform, Wiring.bridge?_perform hb, h, ← watcher?_run_ofStore]
  rfl

end Session

end MarkupTrace.Live
