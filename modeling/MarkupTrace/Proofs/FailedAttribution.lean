import MarkupTrace.Proofs.ExactAttribution
import MarkupTrace.Proofs.FailedLoading

/-!
# Attribution after failures

No module and no function takes a record off a stack because of an error. What a failed load or call
leaves on the stacks is exactly the records of the elements it was inside of, where one of their
children was still to be recorded.
-/

namespace MarkupTrace.Eval

open Source Annotate Store

/-- If a module was read and annotated, and no generated name is a shorthand key in it, then loading
it onto a stack that is there, with clean values to import, and calling any clean function in any
sound store leave, if they fail, all records as they were and on each stack what it held. On top of
that are the new records of elements that were being created: of each element in one of whose
children it failed, the innermost first, its own record, if it had pushed one and this child or a
later one was still to be recorded. -/
theorem failure_abandons_unfinished {source : String} {m : Module}
    (hparse : Module.parse source = .ok m) (fileName : String) (options : Options) (stack : StackId)
    (hshorthands : ∀ n, .shorthand n ∈ m.mentions → n ∉ (Names.ofModule m options).toList) :
    let i : Instance :=
      ⟨m, source, fileName, options, stack, Module.written_of_parse hparse, hshorthands⟩
    ∀ (Γ : Typing) (s : Store), s.Sound Γ →
      (∀ depth modules err s', stack.index < s.stackEntries.length →
        modules.Clean (s.Home Γ) →
        load depth modules stack (annotate m source fileName options).module s =
          (.error err, s') →
        AbandonsLoad Γ (.annotated i) s
          (Unfinished.load depth modules stack (annotate m source fileName options).module s) s') ∧
      ∀ depth callee arguments err s', Value.Clean (s.Home Γ) callee →
        (∀ v ∈ arguments, v.Clean (s.Home Γ)) →
        call depth callee arguments s = (.error err, s') →
        Abandons Γ s (Unfinished.call depth callee arguments s) s' := by
  intro i Γ s hs
  constructor
  · intro depth modules err s' hstack hmodules hload
    have ho : (Origin.annotated i).Of m stack := fun j hj => by cases hj; exact ⟨rfl, rfl⟩
    exact load_stops depth hs ho (List.Subset.refl _) hstack hmodules err s' hload
  · intro depth callee arguments err s' hcallee harguments hcall
    exact call_stops depth hs hcallee harguments err s' hcall

/-- A component that shows a property of what it is given, and an element that shows what the
component makes of an imported value. -/
def importingSource : String :=
  "import \x7b t \x7d from \"m\";\n" ++
  "export const f = (p) => <i>\x7bp.q\x7d</i>;\n" ++
  "export const x = <b>\x7bf(t)\x7d</b>;\n"

/-- The module that it imports from. -/
def textModule : Importable := [("m", [("t", .text "t")])]

def Unfinished.names (us : List Unfinished) : List String := us.map (·.element.name)

/-- Without the other module loading fails inside both elements, and with it a call without
arguments fails inside one. -/
def importingFails : Bool :=
  match Module.parse importingSource with
  | .error _ => false
  | .ok m =>
    let code := (annotate m importingSource "i.jsx" {}).module
    decide (∀ n ∈ (Names.ofModule m {}).toList, .shorthand n ∉ m.mentions) &&
      match load 30 [] ⟨0⟩ code heldStore with
      | (.ok _, _) => false
      | (.error _, _) =>
        decide (Unfinished.names (Unfinished.load 30 [] ⟨0⟩ code heldStore) = ["i", "b"]) &&
          match load 30 textModule ⟨0⟩ code heldStore with
          | (.error _, _) => false
          | (.ok exports, s) =>
            let f := (exports.get? "f").getD .undefined
            match call 30 f [] s with
            | (.ok _, _) => false
            | (.error _, _) => decide (Unfinished.names (Unfinished.call 30 f [] s) = ["i"])

set_option maxRecDepth 100000 in
theorem importingFails_eq : importingFails = true := by decide +kernel

/-- A failed load that leaves two elements unfinished, and a failed call that leaves one. -/
theorem failure_abandons_unfinished_importing :
    ∃ (m : Module) (i : Instance) (err₁ err₂ : Stop EvalError) (exports : Fields)
      (s₁ s₂ s₃ : Store), Module.parse importingSource = .ok m ∧ i.module = m ∧
      load 30 [] ⟨0⟩ (annotate m importingSource "i.jsx" {}).module heldStore = (.error err₁, s₁) ∧
      Unfinished.names (Unfinished.load 30 [] ⟨0⟩ (annotate m importingSource "i.jsx" {}).module
        heldStore) = ["i", "b"] ∧
      AbandonsLoad (fun _ => none) (.annotated i) heldStore
        (Unfinished.load 30 [] ⟨0⟩ (annotate m importingSource "i.jsx" {}).module heldStore) s₁ ∧
      load 30 textModule ⟨0⟩ (annotate m importingSource "i.jsx" {}).module heldStore =
        (.ok exports, s₂) ∧
      call 30 ((exports.get? "f").getD .undefined) [] s₂ = (.error err₂, s₃) ∧
      Unfinished.names (Unfinished.call 30 ((exports.get? "f").getD .undefined) [] s₂) = ["i"] ∧
      Abandons (Typing.open (fun _ => none) heldStore (.annotated i)) s₂
        (Unfinished.call 30 ((exports.get? "f").getD .undefined) [] s₂) s₃ := by
  have hruns := importingFails_eq
  unfold importingFails at hruns
  split at hruns
  · cases hruns
  rename_i m hparse
  rw [Bool.and_eq_true, decide_eq_true_eq] at hruns
  obtain ⟨hnames, hruns⟩ := hruns
  split at hruns
  · cases hruns
  rename_i err₁ s₁ hfails
  rw [Bool.and_eq_true, decide_eq_true_eq] at hruns
  obtain ⟨hload, hruns⟩ := hruns
  split at hruns
  · cases hruns
  rename_i exports s₂ hloads
  dsimp only at hruns
  split at hruns
  · cases hruns
  rename_i err₂ s₃ hcall
  rw [decide_eq_true_eq] at hruns
  have hshorthands : ∀ n, .shorthand n ∈ m.mentions → n ∉ (Names.ofModule m {}).toList :=
    fun n hn hmem => hnames n hmem hn
  have hsound : heldStore.Sound fun _ => none := sound_of_no_scopes rfl
  have hstack : (⟨0⟩ : StackId).index < heldStore.stackEntries.length := by decide
  let i : Instance :=
    ⟨m, importingSource, "i.jsx", {}, ⟨0⟩, Module.written_of_parse hparse, hshorthands⟩
  obtain ⟨l, hl⟩ := exists_loads hloads
  obtain ⟨k, hexports⟩ := Loads.keeps (o := .annotated i) (m := m) hsound
    (fun j hj => by cases hj; exact ⟨rfl, rfl⟩) (List.Subset.refl _) hstack
    (by simp [textModule, Importable.Clean, Value.Clean.text]) hl
  refine ⟨m, i, err₁, err₂, exports, s₁, s₂, s₃, hparse, rfl, hfails, hload, ?_, hloads, hcall,
    hruns, ?_⟩
  · exact (failure_abandons_unfinished hparse "i.jsx" {} ⟨0⟩ hshorthands _ heldStore hsound).1 30 []
      err₁ s₁ hstack nofun hfails
  · exact (failure_abandons_unfinished hparse "i.jsx" {} ⟨0⟩ hshorthands _ s₂ k.sound).2 30 _ []
      err₂ s₃ (Value.Clean.keyed hexports "f") nofun hcall

/-- A component that refers to something that is not there. -/
def missingSource : String := "export const f = () => <p>\x7bmissing\x7d</p>;\n"

/-- The component can be loaded, but not called, and then one record more is on the stack. -/
def missingLeft : Bool :=
  match Module.parse missingSource with
  | .error _ => false
  | .ok m =>
    match load 30 [] ⟨0⟩ (annotate m missingSource "p.jsx" {}).module heldStore with
    | (.error _, _) => false
    | (.ok exports, s) =>
      match call 30 ((exports.get? "f").getD .undefined) [] s with
      | (.ok _, _) => false
      | (.error err, s') => decide (err = .error (.undefinedVariable "missing")) &&
          decide (s.depth ⟨0⟩ = 1) && decide (s'.depth ⟨0⟩ = 2)

set_option maxRecDepth 100000 in
theorem missingLeft_eq : missingLeft = true := by decide +kernel

/-- A call that fails need not leave a stack as it was. -/
theorem failed_call_leaves_record : ∃ (m : Module) (exports : Fields) (s s' : Store),
    Module.parse missingSource = .ok m ∧
      load 30 [] ⟨0⟩ (annotate m missingSource "p.jsx" {}).module heldStore = (.ok exports, s) ∧
      call 30 ((exports.get? "f").getD .undefined) [] s =
        (.error (.error (.undefinedVariable "missing")), s') ∧
      s'.entries ⟨0⟩ ≠ s.entries ⟨0⟩ := by
  have hruns := missingLeft_eq
  unfold missingLeft at hruns
  split at hruns
  · cases hruns
  rename_i m hparse
  split at hruns
  · cases hruns
  rename_i exports s hload
  split at hruns
  · cases hruns
  rename_i err s' hcall
  simp only [Bool.and_eq_true, decide_eq_true_eq] at hruns
  obtain ⟨⟨rfl, hbefore⟩, hbehind⟩ := hruns
  refine ⟨m, exports, s, s', hparse, hload, hcall, fun heq => ?_⟩
  rw [depth, heq] at hbehind
  rw [depth, hbehind] at hbefore
  cases hbefore

end MarkupTrace.Eval
