import MarkupTrace.Proofs.Contents
import MarkupTrace.Proofs.Handlers
import MarkupTrace.Proofs.Notifications

/-!
# A second bridge

A run is compared with the same run into which a second bridge is put: it is attached at some point
and from then on is driven in any way. The runs keep the same content, as bridges have no part in it.
All other bridges fare the same as well, as long as no renderer commits while the second bridge is
the one that handled its registration last. If one does, the other bridges are not told.
-/

namespace MarkupTrace.Live

open Render

/-! ## Putting a bridge in -/

/-- The number that a bridge has when another comes in as the one with the number `k`. -/
def BridgeId.behind (k : Nat) (id : BridgeId) : BridgeId :=
  ⟨if id.index < k then id.index else id.index + 1⟩

theorem BridgeId.behind_of_lt {k : Nat} {id : BridgeId} (h : id.index < k) : id.behind k = id := by
  rw [behind, if_pos h]

theorem BridgeId.behind_ne (k : Nat) (id : BridgeId) : id.behind k ≠ ⟨k⟩ := by
  intro h
  have hindex := congrArg BridgeId.index h
  simp only [behind] at hindex
  split at hindex <;> omega

theorem BridgeId.behind_inj {k : Nat} {id other : BridgeId} :
    id.behind k = other.behind k ↔ id = other := by
  refine ⟨fun h => ?_, fun h => by rw [h]⟩
  obtain ⟨i⟩ := id
  obtain ⟨j⟩ := other
  have hindex := congrArg BridgeId.index h
  simp only [behind] at hindex
  congr 1
  split at hindex <;> split at hindex <;> omega

/-- The same action with bridges under their new numbers. -/
def Action.behind (k : Nat) : Action → Action
  | .subscribe bridge l => .subscribe (bridge.behind k) l
  | .unsubscribe bridge l => .unsubscribe (bridge.behind k) l
  | .shut bridge => .shut (bridge.behind k)
  | .take bridge => .take (bridge.behind k)
  | .finish bridge => .finish (bridge.behind k)
  | other => other

theorem Action.behind_eq_addRenderer {k : Nat} {a : Action} :
    a.behind k = .addRenderer ↔ a = .addRenderer := by
  cases a <;> simp [behind]

theorem Action.behind_eq_attach {k : Nat} {a : Action} : a.behind k = .attach ↔ a = .attach := by
  cases a <;> simp [behind]

/-- The action is about this bridge. -/
def Action.Drives (bridge : BridgeId) : Action → Prop
  | .subscribe other _ | .unsubscribe other _ | .shut other | .take other | .finish other =>
    other = bridge
  | _ => False

/-- Between the actions of a run, a bridge with the number `k` is driven. -/
inductive Woven (k : Nat) : List Action → List Action → Prop
  | nil : Woven k [] []
  | both {a : Action} {as bs : List Action} (rest : Woven k as bs) :
      Woven k (a :: as) (a.behind k :: bs)
  | own {a : Action} {as bs : List Action} (drives : a.Drives ⟨k⟩) (rest : Woven k as bs) :
      Woven k as (a :: bs)

namespace Wiring

/-- The listeners that a bridge called. -/
def callsOf (id : BridgeId) (w : Wiring) : List Listener :=
  (w.calls.filter fun c => c.bridge = id).map (·.listener)

/-- The second wiring has one bridge more, with the number `k`. All others are the same, and a
renderer is watched by the same bridge or by the new one. -/
structure Beside (k : Nat) (w w' : Wiring) : Prop where
  length_watchers : w'.watchers.length = w.watchers.length
  watchers : ∀ id, w'.watcher? id = (w.watcher? id).map (BridgeId.behind k) ∨
    w'.watcher? id = some ⟨k⟩
  le : k ≤ w.bridges.length
  length : w'.bridges.length = w.bridges.length + 1
  bridges : ∀ id : BridgeId, w'.bridge? (id.behind k) = w.bridge? id
  calls : ∀ id : BridgeId, w'.callsOf (id.behind k) = w.callsOf id

theorem beside_attach {w : Wiring} (h : w.Wired) : w.Beside w.bridges.length w.attach := by
  refine ⟨rfl, ?_, Nat.le_refl _, ?_, ?_, ?_⟩
  · intro id
    left
    have hsame : w.attach.watcher? id = w.watcher? id := watcher?_congr rfl id
    rw [hsame]
    cases hwatcher : w.watcher? id with
    | none => rfl
    | some bridge => exact congrArg some (BridgeId.behind_of_lt (h.watchers id bridge hwatcher)).symm
  · simp [attach]
  · intro id
    by_cases hid : id.index < w.bridges.length
    · rw [BridgeId.behind_of_lt hid, attach, bridge?, List.getElem?_append_left hid]
      rfl
    · have hge : w.bridges.length ≤ id.index := Nat.le_of_not_lt hid
      have hnone : w.bridge? id = none := List.getElem?_eq_none hge
      rw [hnone, BridgeId.behind, if_neg hid]
      apply List.getElem?_eq_none
      simp only [attach, List.length_append, List.length_singleton]
      omega
  · intro id
    by_cases hid : id.index < w.bridges.length
    · rw [BridgeId.behind_of_lt hid]
      rfl
    · have hnone : ∀ other : BridgeId, w.bridges.length ≤ other.index → w.callsOf other = [] := by
        intro other hother
        unfold callsOf
        rw [List.filter_eq_nil_iff.mpr, List.map_nil]
        intro c hc hbridge
        have hlt := h.calls c hc
        rw [of_decide_eq_true hbridge] at hlt
        omega
      have hge : w.bridges.length ≤ id.index := Nat.le_of_not_lt hid
      rw [hnone id hge]
      apply hnone
      rw [BridgeId.behind, if_neg hid]
      exact Nat.le_succ_of_le hge

namespace Beside

variable {k : Nat} {w w' : Wiring} (h : w.Beside k w')
include h

theorem newBridge : w'.newBridge = w.newBridge := by
  rw [newBridge_eq, newBridge_eq, h.length_watchers]

theorem handler? (id : RendererId) (a : Action) :
    w'.handler? id (a.behind k) = (w.handler? id a).map (BridgeId.behind k) := by
  cases a with
  | finish bridge =>
    unfold Wiring.handler? Action.behind
    dsimp only
    rw [h.bridges]
    split <;> rfl
  | _ => rfl

theorem added (a : Action) :
    w'.added (a.behind k) = (w.added a).map fun c => ⟨c.bridge.behind k, c.listener⟩ := by
  cases a with
  | finish bridge =>
    unfold Wiring.added Action.behind
    dsimp only
    rw [h.bridges]
    cases w.bridge? bridge with
    | none => rfl
    | some b =>
      dsimp only
      split
      · rw [List.map_map]
        rfl
      · rfl
  | _ => rfl

/-- A commit reaches the same bridge in both, unless the new one is told. -/
theorem change {committer : Option RendererId}
    (hclear : ∀ id, committer = some id → w'.watcher? id ≠ some ⟨k⟩) (a : Action) (id : BridgeId)
    (b : Bridge) : w'.change (a.behind k) committer (id.behind k) b = w.change a committer id b := by
  unfold Wiring.change Action.behind
  cases a with
  | addRenderer =>
    dsimp only
    rw [h.length_watchers]
  | render depth renderer root v =>
    dsimp only
    cases committer with
    | none => rfl
    | some renderer =>
      dsimp only [Option.bind_some]
      have hwatcher := (h.watchers renderer).resolve_right (hclear renderer rfl)
      have hiff : w'.watcher? renderer = some (id.behind k) ↔ w.watcher? renderer = some id := by
        rw [hwatcher]
        cases w.watcher? renderer with
        | none => simp
        | some bridge => simp [BridgeId.behind_inj]
      simp only [hiff]
  | subscribe bridge l => simp only [BridgeId.behind_inj]
  | unsubscribe bridge l => simp only [BridgeId.behind_inj]
  | shut bridge => simp only [BridgeId.behind_inj]
  | take bridge => simp only [BridgeId.behind_inj]
  | finish bridge => simp only [BridgeId.behind_inj]
  | _ => rfl

/-- What happens in both runs. -/
theorem perform (hw : w.Wired) (hw' : w'.Wired) (a : Action) {committer : Option RendererId}
    (hclear : ∀ id, committer = some id → w'.watcher? id ≠ some ⟨k⟩) :
    (w.perform a committer).Beside k (w'.perform (a.behind k) committer) := by
  refine ⟨?_, ?_, Nat.le_trans h.le (length_bridges_le a committer w), ?_, ?_, ?_⟩
  · by_cases ha : a = .addRenderer
    · subst ha
      exact (length_watchers_add w').trans
        ((congrArg (· + 1) h.length_watchers).trans (length_watchers_add w).symm)
    · have ha' : a.behind k ≠ .addRenderer := mt Action.behind_eq_addRenderer.mp ha
      rw [length_watchers_of_ne ha, length_watchers_of_ne ha', h.length_watchers]
  · intro id
    rw [watcher?_perform hw, watcher?_perform hw', h.handler?]
    cases w.handler? id a with
    | none => exact h.watchers id
    | some bridge => exact .inl rfl
  · by_cases ha : a = .attach
    · subst ha
      have hlength := h.length
      simp only [Wiring.perform, Action.behind, attach, List.length_append,
        List.length_singleton]
      omega
    · have ha' : a.behind k ≠ .attach := mt Action.behind_eq_attach.mp ha
      rw [length_bridges_perform ha, length_bridges_perform ha', h.length]
  · intro id
    cases hb : w.bridge? id with
    | some b =>
      have hb' := (h.bridges id).trans hb
      rw [bridge?_perform hb, bridge?_perform hb', h.change hclear]
    | none =>
      have hb' := (h.bridges id).trans hb
      by_cases ha : a = .attach
      · subst ha
        have hnew := h.newBridge
        have hlength := h.length
        have hle := h.le
        have hge : w.bridges.length ≤ id.index := List.getElem?_eq_none_iff.mp hb
        have hindex : (id.behind k).index - w'.bridges.length = id.index - w.bridges.length := by
          rw [BridgeId.behind, if_neg (by omega), hlength]
          exact Nat.add_sub_add_right ..
        have hge' : w'.bridges.length ≤ (id.behind k).index := List.getElem?_eq_none_iff.mp hb'
        change (w'.bridges ++ [w'.newBridge])[(id.behind k).index]? =
          (w.bridges ++ [w.newBridge])[id.index]?
        rw [List.getElem?_append_right hge, List.getElem?_append_right hge', hindex, hnew]
      · have ha' : a.behind k ≠ .attach := mt Action.behind_eq_attach.mp ha
        rw [bridge?_perform_of_none ha hb, bridge?_perform_of_none ha' hb']
  · intro id
    have hcalls := h.calls id
    unfold callsOf at hcalls ⊢
    rw [calls_perform, calls_perform, h.added, List.filter_append, List.filter_append,
      List.map_append, List.map_append, hcalls, List.filter_map, List.map_map]
    congr 2
    apply List.filter_congr
    intro c _
    simp [BridgeId.behind_inj]

/-- What happens to the new bridge only. -/
theorem drive (hw' : w'.Wired) {a : Action} (ha : a.Drives ⟨k⟩) (committer : Option RendererId) :
    w.Beside k (w'.perform a committer) := by
  have hattach : a ≠ .attach := by
    rintro rfl
    exact ha
  have hadd : a ≠ .addRenderer := by
    rintro rfl
    exact ha
  refine ⟨?_, ?_, h.le, ?_, ?_, ?_⟩
  · rw [length_watchers_of_ne hadd, h.length_watchers]
  · intro id
    rw [watcher?_perform hw']
    cases hhandler : w'.handler? id a with
    | none => exact h.watchers id
    | some bridge =>
      obtain ⟨rfl, -⟩ := exists_of_handler? hhandler
      cases ha
      exact .inr rfl
  · rw [length_bridges_perform hattach, h.length]
  · intro id
    have hne := BridgeId.behind_ne k id
    have hne' : ¬(⟨k⟩ : BridgeId) = id.behind k := Ne.symm hne
    rw [← h.bridges id]
    cases hb : w'.bridge? (id.behind k) with
    | some b =>
      rw [bridge?_perform hb]
      unfold Wiring.change
      cases a with
      | subscribe bridge l =>
        cases ha
        exact congrArg some (if_neg hne')
      | unsubscribe bridge l =>
        cases ha
        exact congrArg some (if_neg hne')
      | shut bridge =>
        cases ha
        exact congrArg some (if_neg hne')
      | take bridge =>
        cases ha
        exact congrArg some (if_neg hne')
      | finish bridge =>
        cases ha
        exact congrArg some (if_neg hne')
      | _ => exact ha.elim
    | none => exact bridge?_perform_of_none hattach hb
  · intro id
    have hnone : (w'.added a).filter (fun c => c.bridge = id.behind k) = [] := by
      rw [List.filter_eq_nil_iff]
      intro c hc hbridge
      obtain ⟨rfl, -⟩ := bridge_of_mem_added hc
      exact BridgeId.behind_ne k id ((of_decide_eq_true hbridge).symm.trans ha)
    rw [← h.calls id]
    unfold callsOf
    rw [calls_perform, List.filter_append, hnone, List.append_nil]

end Beside

end Wiring

namespace Session

/-! ## Two runs -/

/-- The second session has one bridge more, with the number `k`, and is else the same. -/
structure Beside (k : Nat) (s s' : Session) : Prop where
  content : s.content = s'.content
  wiring : s.wiring.Beside k s'.wiring
  wired : s.wiring.Wired
  wired' : s'.wiring.Wired

/-- Bridges have no part in the content, nor in whether a render commits. -/
theorem content_perform {s s' : Session} (h : s.content = s'.content) (k : Nat) (a : Action) :
    (s.perform a).content = (s'.perform (a.behind k)).content ∧
      s.committer? a = s'.committer? (a.behind k) := by
  have hstore : s.store = s'.store := congrArg Content.store h
  cases a with
  | addRenderer =>
    refine ⟨?_, rfl⟩
    have hadd : ∀ s : Session, s.addRenderer.2.content =
        { s.content with documents := s.content.documents ++ [.empty] } := by
      intro s
      simp [addRenderer, content]
    change s.addRenderer.2.content = s'.addRenderer.2.content
    rw [hadd, hadd, h]
  | createRoot renderer =>
    refine ⟨?_, rfl⟩
    have hdocument := document_of_content h renderer
    have hput := content_setDocument h renderer (s'.document renderer).createContainer.2
    have hcreate : ∀ s : Session, (s.createRoot renderer).2.content =
        { (s.modifyRenderer renderer fun r =>
            { r with document := (s.document renderer).createContainer.2 }).content with
          roots := s.content.roots ++ [⟨renderer, (s.document renderer).createContainer.1, none⟩] } := by
      intro s
      rw [content_modifyRenderer]
      unfold createRoot
      dsimp only
      unfold modifyRenderer
      split <;> rfl
    change (s.createRoot renderer).2.content = (s'.createRoot renderer).2.content
    rw [hcreate, hcreate, hdocument, hput, h]
  | load depth modules m =>
    refine ⟨?_, rfl⟩
    have hstack : s.stack = s'.stack := congrArg Content.stack h
    change { s.content with store := (Eval.load depth modules s.stack m s.store).2 } =
      { s'.content with store := (Eval.load depth modules s'.stack m s'.store).2 }
    rw [h, hstack, hstore]
  | call depth callee arguments =>
    refine ⟨?_, rfl⟩
    change { s.content with store := (Eval.call depth callee arguments s.store).2 } =
      { s'.content with store := (Eval.call depth callee arguments s'.store).2 }
    rw [h, hstore]
  | render depth renderer root v =>
    obtain ⟨hresult, hcontent⟩ := content_render h depth renderer root v
    refine ⟨hcontent, ?_⟩
    have hroot : s.root? root = s'.root? root :=
      congrArg (fun c : Content => c.roots[root.index]?) h
    unfold committer? Action.behind
    dsimp only
    rw [isSome_renderer?_of_content h, hroot, hresult]
  | finish bridge =>
    exact ⟨(content_finish bridge s).trans (h.trans (content_finish _ s').symm), rfl⟩
  | attach => exact ⟨h, rfl⟩
  | subscribe bridge l => exact ⟨h, rfl⟩
  | unsubscribe bridge l => exact ⟨h, rfl⟩
  | shut bridge => exact ⟨h, rfl⟩
  | take bridge => exact ⟨h, rfl⟩

theorem content_drive {k : Nat} {a : Action} (ha : a.Drives ⟨k⟩) (s : Session) :
    (s.perform a).content = s.content := by
  cases a with
  | finish bridge => exact content_finish bridge s
  | subscribe bridge l => rfl
  | unsubscribe bridge l => rfl
  | shut bridge => rfl
  | take bridge => rfl
  | _ => exact ha.elim

theorem wired_perform {s : Session} (h : s.wiring.Wired) (a : Action) :
    (s.perform a).wiring.Wired :=
  wired_run h [a]

/-- Putting a bridge in changes nothing else, as long as no commit is told to it. -/
theorem Beside.run {k : Nat} {as bs : List Action} (hwoven : Woven k as bs) {s s' : Session}
    (h : s.Beside k s')
    (hclear : ∀ earlier a later id, bs = earlier ++ a :: later →
      (s'.run earlier).committer? a = some id → (s'.run earlier).wiring.watcher? id ≠ some ⟨k⟩) :
    (s.run as).Beside k (s'.run bs) := by
  induction hwoven generalizing s s' with
  | nil => exact h
  | @both a as bs rest ih =>
    obtain ⟨hcontent, hcommitter⟩ := content_perform h.content k a
    apply ih
    · refine ⟨hcontent, ?_, wired_perform h.wired a, wired_perform h.wired' _⟩
      rw [wiring_perform, wiring_perform, ← hcommitter]
      apply h.wiring.perform h.wired h.wired'
      intro id hid
      exact hclear [] _ bs id rfl (hcommitter.symm.trans hid)
    · rintro earlier a' later id rfl
      exact hclear (a.behind k :: earlier) a' later id rfl
  | @own a as bs drives rest ih =>
    apply ih
    · refine ⟨h.content.trans (content_drive drives s').symm, ?_, h.wired, wired_perform h.wired' a⟩
      rw [wiring_perform]
      exact h.wiring.drive h.wired' drives _
    · rintro earlier a' later id rfl
      exact hclear (a :: earlier) a' later id rfl

/-- The listeners that a bridge called. -/
def callsOf (id : BridgeId) (s : Session) : List Listener :=
  (s.calls.filter fun c => c.bridge = id).map (·.listener)

/-- In any run, the commits of a renderer are told to the bridge that handled its registration last,
and to no other. So if another bridge is put into a run, at any point and driven in any way, then all
others hold and call the same, as long as no renderer commits while the new one is the last to have
handled its registration. -/
theorem commits_go_to_last_handler (store : Store) :
    (∀ as a id, ((ofStore store).run as).committer? a = some id →
      ∀ bridge b, ((ofStore store).run as).bridge? bridge = some b →
        (((ofStore store).run as).perform a).bridge? bridge =
          some (if lastHandler? id as (ofStore store) = some bridge then b.notify .committed
            else b)) ∧
    ∀ first as bs, Woven ((ofStore store).run first).bridges.length as bs →
      (∀ earlier a later id, bs = earlier ++ a :: later →
        ((ofStore store).run (first ++ .attach :: earlier)).committer? a = some id →
          lastHandler? id (first ++ .attach :: earlier) (ofStore store) ≠
            some ⟨((ofStore store).run first).bridges.length⟩) →
      ∀ bridge : BridgeId,
        ((ofStore store).run (first ++ .attach :: bs)).bridge?
            (bridge.behind ((ofStore store).run first).bridges.length) =
          ((ofStore store).run (first ++ as)).bridge? bridge ∧
        ((ofStore store).run (first ++ .attach :: bs)).callsOf
            (bridge.behind ((ofStore store).run first).bridges.length) =
          ((ofStore store).run (first ++ as)).callsOf bridge := by
  refine ⟨fun as a id hcommit bridge b hb => commit_tells_last_handler hcommit hb, ?_⟩
  intro first as bs hwoven hclear bridge
  have hwired := wired_run (wired_ofStore store) first
  have hstart : ((ofStore store).run first).Beside ((ofStore store).run first).bridges.length
      (((ofStore store).run first).perform .attach) := by
    refine ⟨rfl, ?_, hwired, wired_perform hwired _⟩
    rw [wiring_perform]
    exact Wiring.beside_attach hwired
  have hend := hstart.run hwoven fun earlier a later id heq hcommit => by
    rw [← run_cons, ← run_append] at hcommit ⊢
    rw [watcher?_run_ofStore]
    exact hclear earlier a later id heq hcommit
  rw [run_append, run_append, run_cons]
  exact ⟨hend.wiring.bridges bridge, hend.wiring.calls bridge⟩

/-- A renderer and a root of it, with a bridge that has not handled anything yet. -/
def oneBridge : List Action := [.addRenderer, .createRoot ⟨1⟩, .attach]

/-- A render that commits. -/
def oneRender : Action := .render 4 ⟨1⟩ ⟨0⟩ nestedElement

/-- The second bridge handles the registration before the first does, so the first is told of the
commit as if it were alone. -/
theorem commits_go_to_last_handler_first :
    let woven := [.take ⟨1⟩, .finish ⟨1⟩, .take ⟨0⟩, .finish ⟨0⟩, oneRender]
    let alone := (ofStore .empty).run (oneBridge ++ [.take ⟨0⟩, .finish ⟨0⟩, oneRender])
    ((ofStore .empty).run (oneBridge ++ .attach :: woven)).bridge? ⟨0⟩ = alone.bridge? ⟨0⟩ ∧
      alone.bridge? ⟨0⟩ = some ⟨true, some ⟨1⟩, [], [.committed], none⟩ := by
  intro woven alone
  have hwoven : Woven 1 [.take ⟨0⟩, .finish ⟨0⟩, oneRender] woven :=
    .own rfl (.own rfl (.both (.both (.both .nil))))
  have hclear : ∀ earlier a later id, woven = earlier ++ a :: later →
      ((ofStore .empty).run (oneBridge ++ .attach :: earlier)).committer? a = some id →
        lastHandler? id (oneBridge ++ .attach :: earlier) (ofStore .empty) ≠ some ⟨1⟩ := by
    intro earlier a later id heq hcommit
    obtain ⟨depth, root, v, r, rfl, -⟩ := committer?_eq_some hcommit
    have heq : [.take ⟨1⟩, .finish ⟨1⟩, .take ⟨0⟩, .finish ⟨0⟩,
        .render 4 ⟨1⟩ ⟨0⟩ nestedElement] = earlier ++ .render depth id root v :: later := heq
    match earlier, heq with
    | [], heq => cases heq
    | [_], heq => cases heq
    | [_, _], heq => cases heq
    | [_, _, _], heq => cases heq
    | [_, _, _, _], heq =>
      cases heq
      decide
    | _ :: _ :: _ :: _ :: _ :: rest, heq =>
      have hlength := congrArg List.length heq
      simp at hlength
  exact ⟨((commits_go_to_last_handler .empty).2 oneBridge _ woven hwoven hclear ⟨0⟩).1, rfl⟩

/-- The first bridge handled the registration and is told of a commit when it is alone. A second one
that is attached and handles the registration too takes the renderer over, and then the first is not
told. -/
theorem takeover_silences_first_bridge :
    let handled := (ofStore .empty).run (oneBridge ++ [.take ⟨0⟩, .finish ⟨0⟩])
    let second : List Action := [.attach, .take ⟨1⟩, .finish ⟨1⟩]
    (handled.perform oneRender).bridge? ⟨0⟩ = some ⟨true, some ⟨1⟩, [], [.committed], none⟩ ∧
      (handled.run second).committer? oneRender = some ⟨1⟩ ∧
      ((handled.run second).perform oneRender).bridge? ⟨0⟩ = some ⟨true, some ⟨1⟩, [], [], none⟩ :=
  ⟨rfl, rfl, rfl⟩

end Session

end MarkupTrace.Live
