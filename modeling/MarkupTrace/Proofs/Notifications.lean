import MarkupTrace.Proofs.Runs

/-!
# No commit goes unnoticed

A session has one bridge, which is never closed. In any run of it each renderer is either about to be
handled by the bridge or watched by it, so that a commit leaves an event waiting, and before the
bridge is idle again it has called its listeners, each of them once.
-/

namespace MarkupTrace.Live

/-- No bridge is attached or closed, and no listener that fails is subscribed. -/
def Action.Calm : Action → Prop
  | .attach | .shut _ => False
  | .subscribe _ l => l.fails = false
  | _ => True

/-! ## Who is subscribed -/

def Action.subscription? (bridge : BridgeId) : Action → Option Listener
  | .subscribe other l => if other = bridge then some l else none
  | _ => none

def Action.takesBack (bridge : BridgeId) (l : Listener) : Action → Bool
  | .unsubscribe other l' => other = bridge && l' = l
  | _ => false

/-- The subscriptions to a bridge that are not taken back later on. -/
def lasting (bridge : BridgeId) : List Action → List Listener
  | [] => []
  | a :: as =>
    match a.subscription? bridge with
    | some l => if as.any (Action.takesBack bridge l) then lasting bridge as else l :: lasting bridge as
    | none => lasting bridge as

/-- The listeners of a bridge after some actions, in the order of their subscriptions, each once. -/
def subscribed (bridge : BridgeId) (as : List Action) : List Listener :=
  (lasting bridge as).eraseDups

theorem lasting_concat (bridge : BridgeId) (as : List Action) (a : Action) :
    lasting bridge (as ++ [a]) = ((lasting bridge as).filter fun l => !a.takesBack bridge l) ++
      (a.subscription? bridge).toList := by
  induction as with
  | nil =>
    simp only [List.nil_append, lasting]
    cases a.subscription? bridge <;> rfl
  | cons first as ih =>
    rw [List.cons_append, lasting, lasting]
    cases first.subscription? bridge with
    | none => exact ih
    | some l =>
      dsimp only
      rw [List.any_append, ih]
      by_cases hlater : as.any (Action.takesBack bridge l) = true
      · simp [hlater]
      · by_cases hlast : a.takesBack bridge l = true <;> simp [hlater, hlast]

theorem subscribed_concat (bridge : BridgeId) (as : List Action) (a : Action) :
    subscribed bridge (as ++ [a]) =
      let kept := (subscribed bridge as).filter fun l => !a.takesBack bridge l
      match a.subscription? bridge with
      | some l => if l ∈ kept then kept else kept ++ [l]
      | none => kept := by
  unfold subscribed
  rw [lasting_concat, ← eraseDups_filter]
  cases a.subscription? bridge with
  | none => simp
  | some l =>
    dsimp only [Option.toList]
    rw [eraseDups_concat]
    simp only [List.mem_eraseDups]

theorem Bridge.listeners_notify (b : Bridge) (e : Event) : (b.notify e).listeners = b.listeners := by
  unfold notify
  split <;> rfl

/-- A bridge keeps the account of its listeners that the actions give. -/
theorem listeners_change {b : Bridge} {id : BridgeId} {as : List Action}
    (h : b.listeners = subscribed id as) (a : Action) (committer : Option RendererId) (w : Wiring) :
    (w.change a committer id b).listeners = subscribed id (as ++ [a]) := by
  have hsame : a.subscription? id = none → (∀ l, a.takesBack id l = false) →
      b.listeners = subscribed id (as ++ [a]) := by
    intro hnone hkept
    rw [subscribed_concat, hnone, h]
    exact (List.filter_eq_self.mpr fun l _ => by simp [hkept]).symm
  cases a with
  | subscribe other l =>
    unfold Wiring.change
    dsimp only
    split
    · rename_i heq
      have hkept : ((subscribed id as).filter fun l' => !(Action.subscribe other l).takesBack id l') =
          subscribed id as := List.filter_eq_self.mpr fun _ _ => rfl
      rw [subscribed_concat, hkept, Bridge.subscribe, ← h]
      simp only [Action.subscription?, heq, if_true, List.contains_iff_mem]
      split <;> rfl
    · rename_i hne
      exact hsame (if_neg hne) fun _ => rfl
  | unsubscribe other l =>
    unfold Wiring.change
    dsimp only
    split
    · rename_i heq
      rw [subscribed_concat, Bridge.unsubscribe, ← h]
      simp only [Action.subscription?, Action.takesBack, heq, decide_true, Bool.true_and]
      apply List.filter_congr
      intro l' _
      by_cases hl : l' = l
      · simp [hl]
      · simp [hl, Ne.symm hl]
    · rename_i hne
      exact hsame rfl fun l' => by simp [Action.takesBack, hne]
  | addRenderer =>
    rw [← hsame rfl fun _ => rfl]
    exact Bridge.listeners_notify _ _
  | render depth renderer root v =>
    rw [← hsame rfl fun _ => rfl]
    unfold Wiring.change
    dsimp only
    split
    · exact Bridge.listeners_notify _ _
    · rfl
  | take other =>
    rw [← hsame rfl fun _ => rfl]
    unfold Wiring.change Bridge.take
    dsimp only
    split
    · split <;> rfl
    · rfl
  | shut other =>
    rw [← hsame rfl fun _ => rfl]
    unfold Wiring.change
    dsimp only
    split <;> rfl
  | finish other =>
    rw [← hsame rfl fun _ => rfl]
    unfold Wiring.change
    dsimp only
    split <;> rfl
  | _ => exact hsame rfl fun _ => rfl

/-! ## The bridge and the renderers -/

/-- The bridge is the only one and open, none of its listeners fails, and no renderer is forgotten:
the bridge has yet to handle its registration, is handling it, or watches it. -/
structure Tended (w : Wiring) (b : Bridge) : Prop where
  alone : w.bridges = [b]
  isOpen : b.isOpen = true
  calm : ∀ l ∈ b.listeners, l.fails = false
  known : ∀ i < w.watchers.length, .registered ⟨i + 1⟩ ∈ b.queue ∨
    b.taken = some (.registered ⟨i + 1⟩) ∨ w.watchers[i]? = some (some ⟨0⟩)

namespace Tended

variable {w : Wiring} {b : Bridge}

theorem bridge?_eq (h : Tended w b) : w.bridge? ⟨0⟩ = some b := by
  rw [Wiring.bridge?, h.alone]
  rfl

/-- The wiring holds a changed bridge and watchers that have changed accordingly. -/
theorem of_bridge {w' : Wiring} {b' : Bridge} (h : Tended w b) (halone : w'.bridges = [b'])
    (hwatchers : w'.watchers = w.watchers) (hopen : b'.isOpen = b.isOpen)
    (hcalm : ∀ l ∈ b'.listeners, l.fails = false)
    (hevents : ∀ e, e ∈ b.queue ∨ b.taken = some e → e ∈ b'.queue ∨ b'.taken = some e) :
    Tended w' b' := by
  refine ⟨halone, hopen.trans h.isOpen, hcalm, ?_⟩
  intro i hi
  rw [hwatchers] at hi ⊢
  rcases h.known i hi with hqueue | htaken | hwatcher
  · exact (or_assoc.mp (.inl (hevents _ (.inl hqueue))))
  · exact (or_assoc.mp (.inl (hevents _ (.inr htaken))))
  · exact .inr (.inr hwatcher)

theorem modifyBridge (h : Tended w b) (id : BridgeId) {f : Bridge → Bridge}
    (hopen : (f b).isOpen = b.isOpen) (hcalm : ∀ l ∈ (f b).listeners, l.fails = false)
    (hevents : ∀ e, e ∈ b.queue ∨ b.taken = some e → e ∈ (f b).queue ∨ (f b).taken = some e) :
    ∃ b', Tended (w.modifyBridge id f) b' := by
  obtain ⟨i⟩ := id
  cases i with
  | zero =>
    refine ⟨f b, h.of_bridge ?_ rfl hopen hcalm hevents⟩
    rw [Wiring.modifyBridge, h.alone]
    rfl
  | succ i =>
    refine ⟨b, h.of_bridge ?_ rfl rfl h.calm fun _ he => he⟩
    rw [Wiring.modifyBridge, h.alone]
    simp

theorem notify (h : Tended w b) (id : BridgeId) (e : Event) :
    ∃ b', Tended (w.modifyBridge id (Bridge.notify e)) b' := by
  have hnotify : b.notify e = { b with queue := b.queue ++ [e] } := if_pos h.isOpen
  apply h.modifyBridge id
  · rw [hnotify]
  · rw [hnotify]
    exact h.calm
  · intro e' he'
    rw [hnotify]
    exact he'.imp_left (List.mem_append_left _)

theorem add (h : Tended w b) : ∃ b', Tended w.add b' := by
  have hregister : b.register ⟨w.watchers.length + 1⟩ = { b with
      active := some ⟨w.watchers.length + 1⟩
      queue := b.queue ++ [.registered ⟨w.watchers.length + 1⟩] } := if_pos h.isOpen
  refine ⟨b.register ⟨w.watchers.length + 1⟩, ?_, ?_, ?_, ?_⟩
  · rw [Wiring.add, h.alone]
    rfl
  · rw [hregister]
    exact h.isOpen
  · rw [hregister]
    exact h.calm
  · intro i hi
    rw [hregister]
    dsimp only [Wiring.add] at hi ⊢
    rw [List.length_append] at hi
    rcases Nat.lt_or_ge i w.watchers.length with hlt | hge
    · rw [List.getElem?_append_left hlt]
      exact (h.known i hlt).imp_left (List.mem_append_left _)
    · have heq : i = w.watchers.length := by simp only [List.length_singleton] at hi; omega
      subst heq
      exact .inl (List.mem_append_right _ (List.mem_singleton_self _))

theorem take (h : Tended w b) (id : BridgeId) : ∃ b', Tended (w.modifyBridge id Bridge.take) b' := by
  apply h.modifyBridge id
  · unfold Bridge.take
    split <;> rfl
  · unfold Bridge.take
    split <;> exact h.calm
  · intro e he
    unfold Bridge.take
    split
    · rename_i first rest htaken hqueue
      rw [htaken, hqueue] at he
      rcases he with he | he
      · rcases List.mem_cons.mp he with rfl | he
        · exact .inr rfl
        · exact .inl he
      · cases he
    · exact he

/-- Once the registration of a renderer is handled, the bridge watches the renderer. -/
theorem finish (h : Tended w b) (id : BridgeId) : ∃ b', Tended (w.finish id) b' := by
  cases htakes : (w.bridge? id).bind (·.taken) with
  | none =>
    rw [Wiring.finish_of_idle htakes]
    exact ⟨b, h⟩
  | some e =>
    obtain ⟨b', hb', htaken⟩ := Option.bind_eq_some_iff.mp htakes
    have hid : id = ⟨0⟩ ∧ b' = b := by
      obtain ⟨i⟩ := id
      rw [Wiring.bridge?, h.alone] at hb'
      cases i with
      | zero => exact ⟨rfl, (Option.some.inj hb').symm⟩
      | succ i => cases hb'
    obtain ⟨rfl, rfl⟩ := hid
    rw [Wiring.finish_of_taken hb' htaken]
    refine ⟨{ b' with taken := none }, ?_, h.isOpen, h.calm, ?_⟩
    · dsimp only
      rw [Wiring.bridges_watch, Wiring.modifyBridge, h.alone]
      rfl
    · intro i hi
      rw [Wiring.length_watchers_watch] at hi
      change i < w.watchers.length at hi
      dsimp only
      have hknown := h.known i hi
      rw [htaken] at hknown
      cases e with
      | committed => exact hknown.imp_right fun h => .inr (h.resolve_left (by simp))
      | registered renderer =>
        rw [Wiring.watchers_watch_registered]
        by_cases hrenderer : renderer.number = i + 1
        · rw [if_pos hrenderer]
          right
          right
          change Option.map _ w.watchers[i]? = _
          rw [List.getElem?_eq_getElem hi]
          rfl
        · rw [if_neg hrenderer]
          refine hknown.imp_right fun h => .inr (h.resolve_left ?_)
          intro heq
          cases heq
          exact hrenderer rfl

/-- No calm action makes the bridge forget a renderer. -/
theorem perform (h : Tended w b) {a : Action} (ha : a.Calm) (committer : Option RendererId) :
    Tended (w.perform a committer) (w.change a committer ⟨0⟩ b) := by
  suffices hsome : ∃ b', Tended (w.perform a committer) b' by
    obtain ⟨b', hb'⟩ := hsome
    have hchanged := Wiring.bridge?_perform h.bridge?_eq a committer
    rw [hb'.bridge?_eq] at hchanged
    cases hchanged
    exact hb'
  cases a with
  | attach => exact ha.elim
  | shut id => exact ha.elim
  | addRenderer => exact h.add
  | render depth renderer root v =>
    unfold Wiring.perform
    cases committer with
    | none => exact ⟨b, h⟩
    | some id =>
      dsimp only
      unfold Wiring.commit
      split
      · exact h.notify _ _
      · exact ⟨b, h⟩
  | subscribe id l =>
    apply h.modifyBridge id
    · unfold Bridge.subscribe
      split <;> rfl
    · intro l' hl'
      unfold Bridge.subscribe at hl'
      split at hl'
      · exact h.calm l' hl'
      · rcases List.mem_append.mp hl' with hl' | hl'
        · exact h.calm l' hl'
        · rw [List.mem_singleton.mp hl']
          exact ha
    · intro e he
      unfold Bridge.subscribe
      split <;> exact he
  | unsubscribe id l =>
    exact h.modifyBridge id rfl (fun l' hl' => h.calm l' (List.mem_filter.mp hl').1) fun _ he => he
  | take id => exact h.take id
  | finish id => exact h.finish id
  | createRoot renderer => exact ⟨b, h⟩
  | load depth modules m => exact ⟨b, h⟩
  | call depth callee arguments => exact ⟨b, h⟩

/-- The event that was taken is handled by a call of each listener. -/
theorem calls_finish (h : Tended w b) {e : Event} (htaken : b.taken = some e) :
    (w.finish ⟨0⟩).calls = w.calls ++ b.listeners.map (Call.mk ⟨0⟩) := by
  have hcalled : ∀ ls : List Listener, (∀ l ∈ ls, l.fails = false) → Listener.called ls = ls := by
    intro ls hls
    induction ls with
    | nil => rfl
    | cons l ls ih =>
      have hl : ¬l.fails = true := by simp [hls l List.mem_cons_self]
      rw [Listener.called, if_neg hl, ih fun l' hl' => hls l' (List.mem_cons_of_mem _ hl')]
  rw [Wiring.finish_of_taken h.bridge?_eq htaken, hcalled b.listeners h.calm]

end Tended

/-! ## Events that wait -/

/-- Nothing waits for the bridge and nothing is being handled. -/
def Bridge.Idle (b : Bridge) : Prop := b.queue = [] ∧ b.taken = none

/-- What waits goes on waiting until it is handled. -/
theorem idle_of_change {w : Wiring} {b : Bridge} {a : Action} {committer : Option RendererId}
    (hopen : b.isOpen = true) (h : (w.change a committer ⟨0⟩ b).Idle) :
    b.Idle ∨ a = .finish ⟨0⟩ ∧ ∃ e, b.taken = some e := by
  have hnotify : ∀ (b : Bridge) (e : Event), b.isOpen = true → ¬(b.notify e).Idle := by
    intro b e hopen hidle
    rw [Bridge.notify, if_pos hopen] at hidle
    exact absurd hidle.1 (by simp)
  unfold Wiring.change at h
  cases a with
  | addRenderer => exact absurd h (hnotify { b with active := _ } _ hopen)
  | render depth renderer root v =>
    dsimp only at h
    split at h
    · exact absurd h (hnotify b _ hopen)
    · exact .inl h
  | subscribe id l =>
    dsimp only at h
    split at h
    · unfold Bridge.subscribe at h
      split at h <;> exact .inl h
    · exact .inl h
  | unsubscribe id l =>
    dsimp only at h
    split at h <;> exact .inl h
  | shut id =>
    dsimp only at h
    split at h <;> exact .inl h
  | take id =>
    dsimp only at h
    split at h
    · unfold Bridge.take at h
      split at h
      · cases h.2
      · exact .inl h
    · exact .inl h
  | finish id =>
    dsimp only at h
    split at h
    · rename_i heq
      subst heq
      cases htaken : b.taken with
      | none => exact .inl ⟨h.1, htaken⟩
      | some e => exact .inr ⟨rfl, e, rfl⟩
    · exact .inl h
  | _ => exact .inl h

/-- A commit of a renderer leaves something waiting. -/
theorem not_idle_of_commit {w : Wiring} {b : Bridge} (h : Tended w b) {id : RendererId}
    (hid : id.number ≠ 0) (hknown : id.number ≤ w.watchers.length) (depth : Nat)
    (renderer : RendererId) (root : RootId) (v : Value) :
    ¬(w.change (.render depth renderer root v) (some id) ⟨0⟩ b).Idle := by
  intro hidle
  have hwaits := h.known (id.number - 1) (by omega)
  unfold Wiring.change at hidle
  dsimp only [Option.bind_some] at hidle
  split at hidle
  · rw [Bridge.notify, if_pos h.isOpen] at hidle
    exact absurd hidle.1 (by simp)
  · rename_i hwatcher
    rcases hwaits with hqueue | htaken | hwatches
    · rw [hidle.1] at hqueue
      cases hqueue
    · rw [hidle.2] at htaken
      cases htaken
    · apply hwatcher
      rw [Wiring.watcher?, if_neg hid, hwatches]
      rfl

namespace Session

theorem tended_perform {s : Session} {b : Bridge} (h : Tended s.wiring b) {a : Action}
    (ha : a.Calm) :
    Tended (s.perform a).wiring (s.wiring.change a (s.committer? a) ⟨0⟩ b) := by
  rw [wiring_perform]
  exact h.perform ha _

/-- In this session the bridge handles an event by calling these listeners, each once. -/
structure Notifies (s : Session) (ls : List Listener) : Prop where
  taken : ∃ b e, s.bridge? ⟨0⟩ = some b ∧ b.taken = some e
  calls : (s.perform (.finish ⟨0⟩)).calls = s.calls ++ ls.map (Call.mk ⟨0⟩)
  once : ls.Nodup

theorem notifies_of_taken {s : Session} {b : Bridge} (h : Tended s.wiring b) {as : List Action}
    (hlisteners : b.listeners = subscribed ⟨0⟩ as) {e : Event} (htaken : b.taken = some e) :
    s.Notifies (subscribed ⟨0⟩ as) := by
  refine ⟨⟨b, e, h.bridge?_eq, htaken⟩, ?_, nodup_eraseDups _⟩
  have hcalls := h.calls_finish htaken
  rw [← wiring_finish] at hcalls
  rw [← hlisteners]
  exact hcalls

/-- If something waits in the end but not any more, it was handled in between. -/
theorem exists_notification {s : Session} {b b' : Bridge} {before as : List Action}
    (h : Tended s.wiring b) (hlisteners : b.listeners = subscribed ⟨0⟩ before) (hwaits : ¬b.Idle)
    (hcalm : ∀ a ∈ as, a.Calm) (hend : (s.run as).bridge? ⟨0⟩ = some b') (hidle : b'.Idle) :
    ∃ xs ys, as = xs ++ .finish ⟨0⟩ :: ys ∧
      (s.run xs).Notifies (subscribed ⟨0⟩ (before ++ xs)) := by
  induction as generalizing s b before with
  | nil =>
    rw [run_nil, ← bridge?_wiring, h.bridge?_eq] at hend
    cases hend
    exact absurd hidle hwaits
  | cons a as ih =>
    have hstep := tended_perform h (hcalm a List.mem_cons_self)
    by_cases hnext : (s.wiring.change a (s.committer? a) ⟨0⟩ b).Idle
    · rcases idle_of_change h.isOpen hnext with hnow | ⟨rfl, e, htaken⟩
      · exact absurd hnow hwaits
      · refine ⟨[], as, rfl, ?_⟩
        rw [List.append_nil]
        exact notifies_of_taken h hlisteners htaken
    · have hafter := listeners_change hlisteners a (s.committer? a) s.wiring
      obtain ⟨xs, ys, rfl, hnotifies⟩ := ih hstep hafter hnext
        (fun a ha => hcalm a (List.mem_cons_of_mem _ ha)) hend
      refine ⟨a :: xs, ys, rfl, ?_⟩
      rw [List.append_cons]
      exact hnotifies

/-! ## Draining -/

/-- So many events are taken and finished. -/
def handling (id : BridgeId) : Nat → List Action
  | 0 => []
  | n + 1 => .take id :: .finish id :: handling id n

theorem finish_tended {s : Session} {b : Bridge} (h : Tended s.wiring b) :
    Session.finish ⟨0⟩ s = (.ok (), s.perform (.finish ⟨0⟩)) := by
  have hlisteners : ∀ (ls : List Listener) (s : Session), (∀ l ∈ ls, l.fails = false) →
      (callListeners ⟨0⟩ ls s).1 = .ok () := by
    intro ls
    induction ls with
    | nil => exact fun _ _ => rfl
    | cons l ls ih =>
      intro s hls
      have hl : ¬l.fails = true := by simp [hls l List.mem_cons_self]
      unfold callListeners
      rw [Attempt.bind_apply, Attempt.modify]
      dsimp only
      rw [if_neg hl]
      exact ih _ fun l' hl' => hls l' (List.mem_cons_of_mem _ hl')
  refine Prod.ext ?_ rfl
  unfold Session.finish
  rw [← bridge?_wiring, h.bridge?_eq]
  dsimp only
  cases b.taken with
  | none => rfl
  | some e => exact hlisteners b.listeners _ h.calm

theorem handle_tended {s : Session} {b : Bridge} (h : Tended s.wiring b) (htaken : b.taken = none)
    (n : Nat) : handle ⟨0⟩ n s = (.ok (), s.run (handling ⟨0⟩ n)) ∧
      (s.run (handling ⟨0⟩ n)).bridge? ⟨0⟩ = some { b with queue := b.queue.drop n } := by
  induction n generalizing s b with
  | zero => exact ⟨rfl, h.bridge?_eq⟩
  | succ n ih =>
    have htake : Tended (s.perform (.take ⟨0⟩)).wiring b.take := tended_perform h trivial
    have hfinish : Tended ((s.perform (.take ⟨0⟩)).perform (.finish ⟨0⟩)).wiring
        { b.take with taken := none } := tended_perform htake trivial
    have hrest : { b.take with taken := none } = { b with queue := b.queue.drop 1 } := by
      obtain ⟨isOpen, active, listeners, queue, taken⟩ := b
      cases htaken
      cases queue <;> rfl
    rw [hrest] at hfinish
    obtain ⟨hhandle, hbridge⟩ := ih hfinish htaken
    rw [List.drop_drop, Nat.add_comm] at hbridge
    refine ⟨?_, hbridge⟩
    change (Session.finish ⟨0⟩ >>= fun _ => handle ⟨0⟩ n) (s.perform (.take ⟨0⟩)) = _
    rw [Attempt.bind_ok (finish_tended htake), hhandle]
    rfl

/-- Draining is a run of its own, after which the bridge is idle. -/
theorem drain_tended {s : Session} {b : Bridge} (h : Tended s.wiring b) (htaken : b.taken = none) :
    drain ⟨0⟩ s = (.ok b.queue.length, s.run (handling ⟨0⟩ b.queue.length)) ∧
      ∃ b', (s.run (handling ⟨0⟩ b.queue.length)).bridge? ⟨0⟩ = some b' ∧ b'.Idle := by
  obtain ⟨hhandle, hbridge⟩ := handle_tended h htaken b.queue.length
  refine ⟨?_, _, hbridge, List.drop_length, htaken⟩
  have hwaiting : (Attempt.gets fun s : Session =>
      ((s.bridge? ⟨0⟩).map fun b => b.queue.length).getD 0 :
        Attempt Session ListenerFailure Nat) s = (.ok b.queue.length, s) := by
    unfold Attempt.gets
    dsimp only
    rw [← bridge?_wiring, h.bridge?_eq]
    rfl
  unfold drain
  rw [Attempt.bind_ok hwaiting, Attempt.bind_ok hhandle]
  rfl

/-! ## Runs with one bridge -/

/-- Without a bridge yet, calm actions attach none. -/
theorem bridges_run_nil {s : Session} (h : s.bridges = []) {as : List Action}
    (hcalm : ∀ a ∈ as, a.Calm) : (s.run as).bridges = [] := by
  induction as generalizing s with
  | nil => exact h
  | cons a as ih =>
    apply ih
    · have hattach : a ≠ .attach := by
        rintro rfl
        exact hcalm _ List.mem_cons_self
      have hlength := Wiring.length_bridges_perform hattach (s.committer? a) s.wiring
      rw [← wiring_perform] at hlength
      change (s.perform a).bridges.length = s.bridges.length at hlength
      rw [h] at hlength
      exact List.length_eq_zero_iff.mp hlength
    · exact fun a ha => hcalm a (List.mem_cons_of_mem _ ha)

/-- A bridge that is attached has the registrations of all renderers before it. -/
theorem tended_attach {s : Session} (h : s.bridges = []) :
    Tended (s.perform .attach).wiring s.wiring.newBridge := by
  rw [wiring_perform]
  refine ⟨?_, ?_, ?_, ?_⟩
  · change s.bridges ++ [s.wiring.newBridge] = _
    rw [h]
    rfl
  · rw [Wiring.newBridge_eq]
  · rw [Wiring.newBridge_eq]
    exact nofun
  · intro i hi
    left
    rw [Wiring.newBridge_eq]
    exact List.mem_map.mpr ⟨i, List.mem_range.mpr hi, rfl⟩

theorem tended_run {s : Session} {b : Bridge} {before : List Action} (h : Tended s.wiring b)
    (hlisteners : b.listeners = subscribed ⟨0⟩ before) {as : List Action}
    (hcalm : ∀ a ∈ as, a.Calm) :
    ∃ b', Tended (s.run as).wiring b' ∧ b'.listeners = subscribed ⟨0⟩ (before ++ as) := by
  induction as generalizing s b before with
  | nil => exact ⟨b, h, by rw [List.append_nil, hlisteners]⟩
  | cons a as ih =>
    rw [List.append_cons]
    exact ih (tended_perform h (hcalm a List.mem_cons_self))
      (listeners_change hlisteners a (s.committer? a) s.wiring)
      fun a ha => hcalm a (List.mem_cons_of_mem _ ha)

/-- A bridge is attached in a session without one, and is never closed; its listeners do not fail.
Renderers may come before or after it, and anything may happen while it handles an event. Then it
has the registration of each renderer before it, or is handling it, or is the one that is told of the
renderer's commits; when it is handling an event, all who are subscribed are called for it, each once
and in the order of their subscriptions; and when it is idle in the end, there was such a call after
every commit. -/
theorem no_refresh_is_lost (store : Store) {before after : List Action}
    (hbefore : ∀ a ∈ before, a.Calm) (hafter : ∀ a ∈ after, a.Calm) :
    let start := (ofStore store).run (before ++ [.attach])
    ∃ b, (start.run after).bridge? ⟨0⟩ = some b ∧
      (∀ id r, (start.run after).renderer? id = some r →
        .registered id ∈ b.queue ∨ b.taken = some (.registered id) ∨ r.watcher = some ⟨0⟩) ∧
      (∀ e, b.taken = some e → (start.run after).Notifies (subscribed ⟨0⟩ after)) ∧
      (b.Idle → ∀ earlier a later id, after = earlier ++ a :: later →
        (start.run earlier).committer? a = some id → ∃ xs ys, later = xs ++ .finish ⟨0⟩ :: ys ∧
          (start.run (earlier ++ a :: xs)).Notifies (subscribed ⟨0⟩ (earlier ++ a :: xs))) := by
  intro start
  have hnone : ((ofStore store).run before).bridges = [] := bridges_run_nil rfl hbefore
  have hstart : Tended start.wiring ((ofStore store).run before).wiring.newBridge := by
    have hattached := tended_attach hnone
    rwa [← run_nil (perform _ _), ← run_cons, ← run_append] at hattached
  have hfirst : ((ofStore store).run before).wiring.newBridge.listeners = subscribed ⟨0⟩ [] := by
    rw [Wiring.newBridge_eq]
    rfl
  obtain ⟨b, htended, hlisteners⟩ := tended_run hstart hfirst hafter
  refine ⟨b, htended.bridge?_eq, ?_, ?_, ?_⟩
  · intro id r hr
    obtain ⟨hid, hle, hwatcher⟩ := watchers_wiring hr
    have hknown := htended.known (id.number - 1) (by omega)
    rw [hwatcher, Nat.sub_add_cancel (Nat.pos_of_ne_zero hid)] at hknown
    exact hknown.imp_right (.imp_right Option.some.inj)
  · intro e htaken
    exact notifies_of_taken htended hlisteners htaken
  · rintro hidle earlier a later id rfl hcommits
    obtain ⟨b₁, htended₁, hlisteners₁⟩ := tended_run hstart hfirst
      fun a ha => hafter a (List.mem_append_left _ ha)
    have hcalm : a.Calm := hafter a (List.mem_append_right _ List.mem_cons_self)
    obtain ⟨depth, root, v, r, rfl, hr⟩ := committer?_eq_some hcommits
    obtain ⟨hid, hle, -⟩ := watchers_wiring hr
    have hwaits := not_idle_of_commit htended₁ hid hle depth id root v
    rw [← hcommits] at hwaits
    have hend := htended.bridge?_eq
    rw [bridge?_wiring, run_append, run_cons] at hend
    obtain ⟨xs, ys, hlater, hnotifies⟩ := exists_notification (tended_perform htended₁ hcalm)
      (listeners_change hlisteners₁ _ _ _) hwaits
      (fun a ha => hafter a (List.mem_append_right _ (List.mem_cons_of_mem _ ha))) hend hidle
    refine ⟨xs, ys, hlater, ?_⟩
    rw [run_append, run_cons, List.append_cons]
    exact hnotifies

/-- A listener that does not fail. -/
def calmListener : Listener := ⟨"a", false⟩

/-- A commit while the registration of the renderer is being handled. -/
def suspendedRun : List Action :=
  [.subscribe ⟨0⟩ calmListener, .take ⟨0⟩, .render 4 ⟨1⟩ ⟨0⟩ nestedElement,
    .subscribe ⟨0⟩ calmListener, .finish ⟨0⟩]

/-- The listener is called for the commit, once though it subscribed twice. -/
theorem no_refresh_is_lost_suspended :
    let start := (ofStore .empty).run ([.addRenderer, .createRoot ⟨1⟩] ++ [.attach])
    (start.run suspendedRun).calls = [⟨⟨0⟩, calmListener⟩] ∧
      ∃ xs ys, [.subscribe ⟨0⟩ calmListener, .finish ⟨0⟩] = xs ++ Action.finish ⟨0⟩ :: ys ∧
        (start.run ([.subscribe ⟨0⟩ calmListener, .take ⟨0⟩] ++
          .render 4 ⟨1⟩ ⟨0⟩ nestedElement :: xs)).Notifies
            (subscribed ⟨0⟩ ([.subscribe ⟨0⟩ calmListener, .take ⟨0⟩] ++
              .render 4 ⟨1⟩ ⟨0⟩ nestedElement :: xs)) := by
  intro start
  have hbefore : ∀ a ∈ [Action.addRenderer, .createRoot ⟨1⟩], a.Calm := by simp [Action.Calm]
  have hafter : ∀ a ∈ suspendedRun, a.Calm := by simp [suspendedRun, Action.Calm, calmListener]
  obtain ⟨b, hb, -, -, hnotified⟩ := no_refresh_is_lost .empty hbefore hafter
  have hidle : b.Idle := by
    have hend : (start.run suspendedRun).bridge? ⟨0⟩ =
        some ⟨true, some ⟨1⟩, [calmListener], [], none⟩ := rfl
    rw [hend] at hb
    cases hb
    exact ⟨rfl, rfl⟩
  exact ⟨rfl, hnotified hidle [.subscribe ⟨0⟩ calmListener, .take ⟨0⟩] _ _ ⟨1⟩ rfl rfl⟩

end Session

end MarkupTrace.Live
