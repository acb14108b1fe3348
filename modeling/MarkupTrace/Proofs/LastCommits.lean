import MarkupTrace.Proofs.FairRuns
import MarkupTrace.Proofs.Handlers

/-!
# What queries answer

A bridge watches the renderer that was added last. Asked for a root of this renderer, it gives the
structure that the root had right after the last commit to it, whatever happened since.
-/

namespace MarkupTrace.Live

open Render Structure

/-! ## Active renderers -/

namespace Wiring

/-- The renderer that was added last. -/
def newest? (w : Wiring) : Option RendererId :=
  if w.watchers.length = 0 then none else some ⟨w.watchers.length⟩

theorem newest?_add (w : Wiring) : w.add.newest? = some ⟨w.watchers.length + 1⟩ := by
  rw [newest?, length_watchers_add, if_neg (Nat.succ_ne_zero _)]

theorem newest?_of_ne {a : Action} (ha : a ≠ .addRenderer) (committer : Option RendererId)
    (w : Wiring) : (w.perform a committer).newest? = w.newest? := by
  rw [newest?, length_watchers_of_ne ha, newest?]

theorem active_change_of_ne {a : Action} (ha : a ≠ .addRenderer) (committer : Option RendererId)
    (id : BridgeId) (w : Wiring) (b : Bridge) : (w.change a committer id b).active = b.active := by
  have hnotify : ∀ e, (b.notify e).active = b.active := by
    intro e
    unfold Bridge.notify
    split <;> rfl
  cases a with
  | addRenderer => exact absurd rfl ha
  | render depth renderer root v =>
    unfold change
    dsimp only
    split
    · exact hnotify _
    · rfl
  | subscribe bridge l =>
    unfold change Bridge.subscribe
    dsimp only
    split_ifs <;> rfl
  | take bridge =>
    unfold change Bridge.take
    dsimp only
    split
    · split <;> rfl
    · rfl
  | unsubscribe bridge l =>
    unfold change
    dsimp only
    split <;> rfl
  | shut bridge =>
    unfold change
    dsimp only
    split <;> rfl
  | finish bridge =>
    unfold change
    dsimp only
    split <;> rfl
  | _ => rfl

/-- All bridges watch the renderer that was added last. -/
def Abreast (w : Wiring) : Prop := ∀ id b, w.bridge? id = some b → b.active = w.newest?

theorem Abreast.perform {w : Wiring} (h : w.Abreast) (a : Action) (committer : Option RendererId) :
    (w.perform a committer).Abreast := by
  intro id b' hb'
  rcases bridge?_perform_cases hb' with ⟨b, hb, rfl⟩ | ⟨rfl, -, rfl⟩
  · by_cases ha : a = .addRenderer
    · subst ha
      rw [Wiring.perform, newest?_add]
      unfold change Bridge.register Bridge.notify
      dsimp only
      split <;> rfl
    · rw [active_change_of_ne ha, newest?_of_ne ha]
      exact h id b hb
  · rw [newest?_of_ne (by simp), newBridge_eq, newest?]

end Wiring

namespace Session

/-- The renderer that an action adds. -/
def newRenderer? (a : Action) (s : Session) : Option RendererId :=
  match a with
  | .addRenderer => some s.addRenderer.1
  | _ => none

/-- The renderers that are added in a run, in order. -/
def newRenderers : List Action → Session → List RendererId
  | [], _ => []
  | a :: as, s => (s.newRenderer? a).toList ++ newRenderers as (s.perform a)

theorem newest?_perform (a : Action) (s : Session) :
    (s.perform a).wiring.newest? = (s.newRenderer? a).or s.wiring.newest? := by
  rw [wiring_perform]
  cases a with
  | addRenderer =>
    rw [Wiring.perform, Wiring.newest?_add, newRenderer?, addRenderer, wiring, List.length_map]
    rfl
  | _ => exact Wiring.newest?_of_ne (by simp) _ _

theorem newest?_run (as : List Action) (s : Session) :
    (s.run as).wiring.newest? = (newRenderers as s).getLast?.or s.wiring.newest? := by
  induction as generalizing s with
  | nil => rfl
  | cons a as ih =>
    rw [run_cons, ih, newest?_perform, newRenderers, List.getLast?_append, Option.or_assoc]
    cases s.newRenderer? a <;> rfl

theorem abreast_run {s : Session} (h : s.wiring.Abreast) (as : List Action) :
    (s.run as).wiring.Abreast := by
  induction as generalizing s with
  | nil => exact h
  | cons a as ih =>
    apply ih
    rw [wiring_perform]
    exact h.perform a _

/-- In a run from the beginning, all bridges watch the last renderer. -/
theorem active_eq {store : Store} {as : List Action} {id : BridgeId} {b : Bridge}
    (hb : ((ofStore store).run as).bridge? id = some b) :
    b.active = (newRenderers as (ofStore store)).getLast? := by
  have habreast : (ofStore store).wiring.Abreast := by
    intro id b hb
    cases hb
  rw [← bridge?_wiring] at hb
  rw [abreast_run habreast as id b hb, newest?_run]
  exact Option.or_none

theorem newRenderers_append (as bs : List Action) (s : Session) :
    newRenderers (as ++ bs) s = newRenderers as s ++ newRenderers bs (s.run as) := by
  induction as generalizing s with
  | nil => rfl
  | cons a as ih =>
    rw [List.cons_append, newRenderers, newRenderers, run_cons, ih, List.append_assoc]

theorem history_append (as bs : List Action) (s : Session) :
    history (as ++ bs) s = history as s ++ history bs (s.run as) := by
  induction as generalizing s with
  | nil => rfl
  | cons a as ih => rw [List.cons_append, history, history, run_cons, ih, List.append_assoc]

theorem bridge?_run {s : Session} {id : BridgeId} {b : Bridge} (h : s.bridge? id = some b)
    (as : List Action) : ∃ b', (s.run as).bridge? id = some b' := by
  induction as generalizing s b with
  | nil => exact ⟨b, h⟩
  | cons a as ih =>
    rw [← bridge?_wiring] at h
    have hnext := Wiring.bridge?_perform h a (s.committer? a)
    rw [← wiring_perform, bridge?_wiring] at hnext
    exact ih hnext

/-! ## Queries -/

/-- What a bridge answers if there is no root at a position. -/
theorem structure?_eq_none {s : Session} {id : BridgeId} {b : Bridge} (hb : s.bridge? id = some b)
    {i : Nat} (h : (b.active.bind fun renderer => (s.rootsOf renderer)[i]?) = none) :
    s.structure? id (some i) = none := by
  unfold structure? selected?
  rw [hb]
  cases hactive : b.active with
  | none => simp [hactive]
  | some renderer =>
    rw [hactive] at h
    dsimp only [Option.bind_some] at h
    simp [hactive, h]

end Session

namespace Told

/-- The structure of a root at a position is the one after the last commit to it. -/
theorem structure?_eq {Γ : Typing} {held : List Value} {log : List Commit} {s : Session}
    (h : Told Γ held log s) {id : BridgeId} {b : Bridge} (hb : s.bridge? id = some b) {i : Nat}
    {root : RootId}
    (hroot : (b.active.bind fun renderer => (s.rootsOf renderer)[i]?) = some root) :
    ∃ c, lastCommit? root log = some c ∧ b.active = some c.renderer ∧
      s.structure? id (some i) =
        if c.tree.children FiberTree.rootId = [] then none
        else some (walk c.store c.document c.tree FiberTree.rootId .empty) := by
  obtain ⟨renderer, hactive, hi⟩ := Option.bind_eq_some_iff.mp hroot
  have hmem := List.mem_of_getElem? hi
  rw [h.roots, List.mem_eraseDups] at hmem
  obtain ⟨c₀, hc₀, rfl⟩ := List.mem_map.mp hmem
  obtain ⟨hc₀, howner₀⟩ := List.mem_filter.mp hc₀
  obtain ⟨c, hc⟩ := exists_lastCommit? hc₀
  obtain ⟨hmem, heq⟩ := mem_of_lastCommit? hc
  obtain ⟨r, hr, howner⟩ := (h.stands c hmem).root
  -- Both commits were made by the one renderer of the root.
  have hrenderer : c.renderer = renderer := by
    obtain ⟨r₀, hr₀, howner'⟩ := (h.stands c₀ hc₀).root
    rw [← heq, hr] at hr₀
    cases hr₀
    rw [← howner, howner']
    simpa using howner₀
  have htree := h.trees c.root r hr
  rw [heq, hc] at htree
  rw [heq] at hr
  refine ⟨c, hc, hactive.trans (congrArg some hrenderer.symm), ?_⟩
  rw [← (h.stands c hmem).structure_eq, ← howner]
  unfold Session.structure? Session.selected?
  simp [hb, hactive, hi, hr, htree]

/-- Further commits move no root from its position. -/
theorem getElem?_rootsOf {Γ Γ' : Typing} {held held' : List Value} {log log' : List Commit}
    {s s' : Session} (h : Told Γ held log s) (h' : Told Γ' held' (log ++ log') s')
    {renderer : RendererId} {i : Nat} {root : RootId}
    (hroot : (s.rootsOf renderer)[i]? = some root) : (s'.rootsOf renderer)[i]? = some root := by
  rw [h.roots] at hroot
  rw [h'.roots, List.filter_append, List.map_append, List.eraseDups_append,
    List.getElem?_append_left (List.getElem?_eq_some_iff.mp hroot).1]
  exact hroot

end Told

namespace Session

/-- In every fair run from the beginning, all bridges watch the renderer that was added last, and the
roots of a renderer are those it committed to, in the order of the first times. Of these, a bridge
gives for each position the structure that was found right after the last commit to the root there;
none, if nothing was rendered then. Whatever happens afterwards, failing renders and commits to other
roots included, this stays the answer until the root is committed to again or another renderer is
added. -/
theorem queries_answer_for_last_commit {store : Store} (hstore : store.Grounded)
    {as : List Action} (hfair : Fair as [] (ofStore store)) {id : BridgeId} {b : Bridge}
    (hb : ((ofStore store).run as).bridge? id = some b) :
    let s := (ofStore store).run as
    let log := history as (ofStore store)
    b.active = (newRenderers as (ofStore store)).getLast? ∧
      (∀ renderer, s.rootsOf renderer =
        ((log.filter fun c => c.renderer = renderer).map (·.root)).eraseDups) ∧
      (∀ i, (b.active.bind fun renderer => (s.rootsOf renderer)[i]?) = none →
        s.structure? id (some i) = none) ∧
      ∀ i root, (b.active.bind fun renderer => (s.rootsOf renderer)[i]?) = some root →
        ∃ c, lastCommit? root log = some c ∧ b.active = some c.renderer ∧
          s.structure? id (some i) =
            (if c.tree.children FiberTree.rootId = [] then none
            else some (walk c.store c.document c.tree FiberTree.rootId .empty)) ∧
          ∀ more, Fair (as ++ more) [] (ofStore store) → newRenderers more s = [] →
            (∀ c' ∈ history more s, c'.root ≠ root) →
              (s.run more).structure? id (some i) = s.structure? id (some i) := by
  intro s log
  obtain ⟨Γ, held, htold⟩ := (Told.ofStore hstore).run hfair
  refine ⟨active_eq hb, htold.roots, fun i => structure?_eq_none hb, ?_⟩
  intro i root hroot
  obtain ⟨c, hc, hactive, hstructure⟩ := htold.structure?_eq hb hroot
  refine ⟨c, hc, hactive, hstructure, ?_⟩
  intro more hmore hnew hothers
  obtain ⟨Γ', held', htold'⟩ := (Told.ofStore hstore).run hmore
  obtain ⟨b', hb'⟩ := bridge?_run hb more
  rw [List.nil_append, history_append, run_append] at htold'
  have hactive' : b'.active = b.active := by
    rw [← run_append] at hb'
    rw [active_eq hb', active_eq hb, newRenderers_append, hnew, List.append_nil]
  have hroot' : (b'.active.bind fun renderer => ((s.run more).rootsOf renderer)[i]?) =
      some root := by
    obtain ⟨renderer, hrenderer, hi⟩ := Option.bind_eq_some_iff.mp hroot
    rw [hactive', hrenderer]
    exact htold.getElem?_rootsOf htold' hi
  obtain ⟨c', hc', -, hstructure'⟩ := htold'.structure?_eq hb' hroot'
  rw [lastCommit?_append, lastCommit?_eq_none hothers, Option.none_or] at hc'
  cases hc.symm.trans hc'
  exact hstructure'.trans hstructure.symm

/-- A module that exports an element with an expression and an element in it. -/
def shownModule : Source.Module :=
  ⟨[.const true "shown" (.markup (.mk "p" []
    (.children [.container (.text "a") ⟨24, 29⟩, .element (.mk "b" [] .selfClosing ⟨29, 33⟩)])
    ⟨21, 37⟩))]⟩

theorem mentions_shownModule :
    shownModule.mentions = [.binder "shown", .element true, .element false] := by decide

def shownInstance : Annotate.Instance where
  module := shownModule
  source := "export const shown = <p>\x7b\"a\"\x7d<b/></p>;"
  fileName := "shown.jsx"
  options := {}
  stack := ⟨0⟩
  written := by simp [mentions_shownModule, Source.Grammar.Written]
  shorthands := by simp [mentions_shownModule]

def shownCode : Source.Module :=
  (Annotate.annotate shownModule shownInstance.source "shown.jsx" {}).module

/-- Two roots are made, and then the module is loaded. -/
def shownStart : List Action := [.attach, .addRenderer, .createRoot ⟨1⟩, .createRoot ⟨1⟩]

def shownValue : Value :=
  (((ofStore .empty).run shownStart).gained (.load 30 [] shownCode)).headD .undefined

/-- What the module exports is rendered into one root and nothing into the other. Then a render into
the first root fails. -/
def shownRun : List Action :=
  shownStart ++ [.load 30 [] shownCode, .render 30 ⟨1⟩ ⟨0⟩ shownValue, .render 30 ⟨1⟩ ⟨1⟩ .null,
    .render 30 ⟨1⟩ ⟨0⟩ brokenElement]

def shownAnswers : Bool :=
  let s := (ofStore .empty).run shownRun
  !(((ofStore .empty).run shownStart).gained (.load 30 [] shownCode)).isEmpty &&
    decide (s.rootsOf ⟨1⟩ = [⟨0⟩, ⟨1⟩]) &&
    (s.structure? ⟨0⟩ (some 0)).isSome && (s.structure? ⟨0⟩ (some 1)).isNone &&
    !(s.render 30 ⟨1⟩ ⟨0⟩ brokenElement).1.toBool

set_option maxRecDepth 100000 in
theorem shownAnswers_eq : shownAnswers = true := by decide +kernel

theorem fair_shownRun : Fair shownRun [] (ofStore .empty) := by
  obtain ⟨v, vs, hgained⟩ : ∃ v vs,
      ((ofStore .empty).run shownStart).gained (.load 30 [] shownCode) = v :: vs := by
    have hanswers := shownAnswers_eq
    unfold shownAnswers at hanswers
    simp only [Bool.and_eq_true, Bool.not_eq_true'] at hanswers
    exact List.exists_cons_of_ne_nil (by simpa using hanswers.1.1.1.1)
  have hvalue : shownValue = v := by rw [shownValue, hgained, List.headD_cons]
  -- Rendering does not move the roots, so they stay with the one renderer there is.
  have howners : ∀ s : Session, s.places = [(⟨1⟩, ⟨0⟩), (⟨1⟩, ⟨1⟩)] → ∀ root r,
      s.root? root = some r → r.owner = ⟨1⟩ := by
    intro s hplaces root r hr
    have hmem := mem_places hr
    rw [hplaces] at hmem
    simp only [List.mem_cons, Prod.mk.injEq, List.not_mem_nil, or_false] at hmem
    rcases hmem with ⟨h, -⟩ | ⟨h, -⟩ <;> exact h
  have hplaces : (((ofStore .empty).run shownStart).perform (.load 30 [] shownCode)).places =
      [(⟨1⟩, ⟨0⟩), (⟨1⟩, ⟨1⟩)] := rfl
  have hplaces₁ := (places_render 30 ⟨1⟩ ⟨0⟩ shownValue _).trans hplaces
  have hplaces₂ := (places_render 30 ⟨1⟩ ⟨1⟩ .null _).trans hplaces₁
  have hbroken : ∀ held, Value.Made held brokenElement := by
    intro held
    refine .element nofun ?_ nofun nofun
    intro e he
    cases List.mem_singleton.mp he
    refine .array 7 ?_
    intro v hv
    simp only [List.mem_cons, List.not_mem_nil, or_false] at hv
    rcases hv with rfl | rfl
    · exact .text "y"
    · exact .object 8 nofun
  refine ⟨trivial, trivial, ⟨_, rfl⟩, ⟨_, rfl⟩, ⟨.inr ⟨shownInstance, rfl, rfl⟩, nofun⟩,
    ⟨howners _ hplaces ⟨0⟩, ?_⟩, ⟨howners _ hplaces₁ ⟨1⟩, .null⟩,
    ⟨howners _ hplaces₂ ⟨0⟩, hbroken _⟩, trivial⟩
  rw [hvalue]
  refine .held (List.mem_append_right _ ?_)
  exact hgained ▸ List.mem_cons_self

/-- The first root still has the structure of what was exported, and the second one has none. -/
theorem queries_answer_for_last_commit_shown : ∃ b c,
    ((ofStore .empty).run shownRun).bridge? ⟨0⟩ = some b ∧ Store.empty.Grounded ∧
      Fair shownRun [] (ofStore .empty) ∧ b.active = some ⟨1⟩ ∧
      ((ofStore .empty).run shownRun).rootsOf ⟨1⟩ = [⟨0⟩, ⟨1⟩] ∧
      lastCommit? ⟨0⟩ (history shownRun (ofStore .empty)) = some c ∧
      ((ofStore .empty).run shownRun).structure? ⟨0⟩ (some 0) =
        some (walk c.store c.document c.tree FiberTree.rootId .empty) ∧
      ((ofStore .empty).run shownRun).structure? ⟨0⟩ (some 1) = none := by
  have hanswers := shownAnswers_eq
  unfold shownAnswers at hanswers
  simp only [Bool.and_eq_true, decide_eq_true_eq, Option.isNone_iff_eq_none] at hanswers
  obtain ⟨⟨⟨⟨-, hroots⟩, hfirst⟩, hsecond⟩, -⟩ := hanswers
  obtain ⟨b, hb⟩ : ∃ b, ((ofStore .empty).run shownRun).bridge? ⟨0⟩ = some b := by
    have hattached : ((ofStore .empty).run [.attach]).bridge? ⟨0⟩ =
        some ⟨true, none, [], [], none⟩ := rfl
    exact bridge?_run hattached (shownRun.drop 1)
  have hgrounded : Store.empty.Grounded := .of_no_scopes rfl
  obtain ⟨hactive, -, -, hanswer⟩ := queries_answer_for_last_commit hgrounded fair_shownRun hb
  have hlast : (newRenderers shownRun (ofStore .empty)).getLast? = some ⟨1⟩ := rfl
  rw [hlast] at hactive
  have hroot : (b.active.bind fun renderer =>
      (((ofStore .empty).run shownRun).rootsOf renderer)[0]?) = some ⟨0⟩ := by
    rw [hactive, Option.bind_some, hroots]
    rfl
  obtain ⟨c, hc, -, hstructure, -⟩ := hanswer 0 ⟨0⟩ hroot
  rw [if_neg fun h => by rw [hstructure, if_pos h] at hfirst; cases hfirst] at hstructure
  exact ⟨b, c, hb, hgrounded, fair_shownRun, hactive, hroots, hc, hstructure, hsecond⟩

end Session

end MarkupTrace.Live
