import MarkupTrace.Proofs.Loading

/-!
# Attribution is exact

Loading an annotated module, or calling any function there is, leaves the stacks and all earlier
records as they were and accounts for every element that is created.
-/

namespace MarkupTrace.Eval

open Source Annotate Store

/-- Attribution is exact. If a module was read and annotated, and no generated name is a shorthand
key in it, then loading it onto a stack that is there, with clean values to import, and calling any
clean function in any sound store leave all stacks and all records as they were, and account for
every element that is created: in the derivation of what happened, each creation comes from the code
of a module, and if that is annotated and the element has no `__source` of the author's, a new record
with its place holds one entry for each child that can be recorded, in order. The resulting store is
sound and the results are clean again. -/
theorem attribution_exact {source : String} {m : Module} (hparse : Module.parse source = .ok m)
    (fileName : String) (options : Options) (stack : StackId)
    (hshorthands : ∀ n, .shorthand n ∈ m.mentions → n ∉ (Names.ofModule m options).toList) :
    let i : Instance :=
      ⟨m, source, fileName, options, stack, Module.written_of_parse hparse, hshorthands⟩
    ∀ (Γ : Typing) (s : Store), s.Sound Γ →
      (∀ depth modules exports s', stack.index < s.stackEntries.length →
        modules.Clean (s.Home Γ) →
        load depth modules stack (annotate m source fileName options).module s =
          (.ok exports, s') →
        (∃ log, Loads depth modules stack (annotate m source fileName options).module s exports s'
          log) ∧
        ∀ log, Loads depth modules stack (annotate m source fileName options).module s exports s'
            log →
          Keeps (Γ.open s (.annotated i)) s s' log ∧
            ∀ e ∈ exports, e.2.Clean (s'.Home (Γ.open s (.annotated i)))) ∧
      ∀ depth callee arguments v s', Value.Clean (s.Home Γ) callee →
        (∀ v ∈ arguments, v.Clean (s.Home Γ)) →
        call depth callee arguments s = (.ok v, s') →
        (∃ log, Called (Derives depth) callee arguments s v s' log) ∧
        ∀ log, Called (Derives depth) callee arguments s v s' log →
          Keeps Γ s s' log ∧ v.Clean (s'.Home Γ) := by
  intro i Γ s hs
  constructor
  · intro depth modules exports s' hstack hmodules hload
    refine ⟨exists_loads hload, fun log h => ?_⟩
    refine Loads.keeps (o := .annotated i) (m := m) hs ?_ (List.Subset.refl _) hstack hmodules h
    exact fun j hj => by cases hj; exact ⟨rfl, rfl⟩
  · intro depth callee arguments v s' hcallee harguments hcall
    exact ⟨exists_called hcall, fun log h =>
      Called.keeps (derives_keeps Γ depth).1 hs hcallee harguments h⟩

/-- A module with elements inside calls inside the children of an element. -/
def nestedSource : String :=
  "const item = (t) => <li>\x7bt\x7d</li>;\n" ++
  "export const list = <ul>\x7bitem(\"a\")\x7d and <b/>\x7bitem(\"b\")\x7d</ul>;\n" ++
  "export const App = (p) => <p>\x7bp.x\x7d is \x7blist\x7d\x7bitem(p.x)\x7d</p>;\n"

/-- A stack that already holds a record. -/
def heldStore : Store :=
  let s := Store.empty.newStack.2
  (s.newRecord .unknown).2.push ⟨0⟩ ⟨0, .unknown⟩

/-- The module is read, loads onto the stack of the store, and its `App` can be called. -/
def nestedRuns : Bool :=
  match Module.parse nestedSource with
  | .error _ => false
  | .ok m =>
    decide (∀ n ∈ (Names.ofModule m {}).toList, .shorthand n ∉ m.mentions) &&
      match load 30 [] ⟨0⟩ (annotate m nestedSource "n.jsx" {}).module heldStore with
      | (.error _, _) => false
      | (.ok exports, s) =>
        match call 30 ((exports.get? "App").getD .undefined) [.object 0 [("x", .text "y")]] s with
        | (.error _, _) => false
        | (.ok _, _) => true

set_option maxRecDepth 100000 in
theorem nestedRuns_eq : nestedRuns = true := by decide +kernel

/-- Loading a module with nested elements and calling its component keeps the books. -/
theorem attribution_exact_nested : ∃ (m : Module) (i : Instance) (exports : Fields) (s₁ s₂ : Store)
    (v : Value) (log₁ log₂ : List Creation), Module.parse nestedSource = .ok m ∧ i.module = m ∧
      load 30 [] ⟨0⟩ (annotate m nestedSource "n.jsx" {}).module heldStore = (.ok exports, s₁) ∧
      Loads 30 [] ⟨0⟩ (annotate m nestedSource "n.jsx" {}).module heldStore exports s₁ log₁ ∧
      call 30 ((exports.get? "App").getD .undefined) [.object 0 [("x", .text "y")]] s₁ =
        (.ok v, s₂) ∧
      Keeps (Typing.open (fun _ => none) heldStore (.annotated i)) heldStore s₁ log₁ ∧
      Keeps (Typing.open (fun _ => none) heldStore (.annotated i)) s₁ s₂ log₂ := by
  have hruns := nestedRuns_eq
  unfold nestedRuns at hruns
  split at hruns
  · cases hruns
  rename_i m hparse
  rw [Bool.and_eq_true, decide_eq_true_eq] at hruns
  obtain ⟨hnames, hruns⟩ := hruns
  split at hruns
  · cases hruns
  rename_i exports s₁ hload
  split at hruns
  · cases hruns
  rename_i v s₂ hcall
  have hshorthands : ∀ n, .shorthand n ∈ m.mentions → n ∉ (Names.ofModule m {}).toList :=
    fun n hn hmem => hnames n hmem hn
  have hsound : heldStore.Sound fun _ => none := sound_of_no_scopes rfl
  obtain ⟨hloads, -⟩ :=
    attribution_exact hparse "n.jsx" {} ⟨0⟩ hshorthands _ heldStore hsound
  obtain ⟨⟨log₁, hlog₁⟩, hkeeps₁⟩ := hloads 30 [] exports s₁ (by decide) nofun hload
  obtain ⟨hkeeps, hexports⟩ := hkeeps₁ log₁ hlog₁
  obtain ⟨-, hcalls⟩ :=
    attribution_exact hparse "n.jsx" {} ⟨0⟩ hshorthands _ s₁ hkeeps.sound
  obtain ⟨⟨log₂, hlog₂⟩, hkeeps₂⟩ := hcalls 30 _ [.object 0 [("x", .text "y")]] v s₂
    (Value.Clean.keyed hexports "App") (by simp [Value.Clean.object, Value.Clean.text]) hcall
  exact ⟨m, _, exports, s₁, s₂, v, log₁, log₂, hparse, rfl, hload, hlog₁, hcall, hkeeps,
    (hkeeps₂ log₂ hlog₂).1⟩

end MarkupTrace.Eval
