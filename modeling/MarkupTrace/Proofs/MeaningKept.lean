import MarkupTrace.Proofs.SimulatedLoading
import MarkupTrace.Proofs.SimulatedRendering

/-!
# Annotation keeps the meaning of modules

A module as it was written and the same module annotated are loaded, called and rendered to the same
effect, if no code in reach looks at where elements come from.
-/

namespace MarkupTrace

open Source Annotate Store Eval Render

/-- Two runs, each a family by the depth it is allowed, come to the same: if one ends, so does the
other once it is allowed more than twice the depth, with the same error or with related results. -/
def Agree {σ τ ε α β : Type} (P : α → β → σ → τ → Prop) (x : Nat → Except (Stop ε) α × σ)
    (y : Nat → Except (Stop ε) β × τ) : Prop :=
  ∀ n k, 2 * n < k → Matches P (x n) (y k) ∧ Matches (fun b a t s => P a b s t) (y n) (x k)

section

variable {σ τ ε α β : Type} {P : α → β → σ → τ → Prop}

theorem Matches.ends {x : Except (Stop ε) α × σ} {y : Except (Stop ε) β × τ} (h : Matches P x y)
    (hx : x.1 ≠ .error .exhausted) : y.1 ≠ .error .exhausted := by
  cases h with
  | exhausted s y => exact absurd rfl hx
  | error e s t => simp
  | ok h => simp

/-- Of two runs that agree, one ends if and only if the other does. -/
theorem Agree.ends_iff {x : Nat → Except (Stop ε) α × σ} {y : Nat → Except (Stop ε) β × τ}
    (h : Agree P x y) :
    (∃ n, (x n).1 ≠ .error .exhausted) ↔ ∃ n, (y n).1 ≠ .error .exhausted := by
  constructor
  · rintro ⟨n, hn⟩
    exact ⟨2 * n + 1, (h n _ (by omega)).1.ends hn⟩
  · rintro ⟨n, hn⟩
    exact ⟨2 * n + 1, (h n _ (by omega)).2.ends hn⟩

end

/-- A comparison may begin where no module was loaded yet. -/
theorem alike_of_no_scopes {s : Store} (hs : s.scopes = #[]) (hlegible : Legible s.records) :
    Alike ⟨fun _ => none, fun _ => none, s.records, hlegible⟩ s s where
  left := sound_of_no_scopes hs
  right := sound_of_no_scopes hs
  next := rfl
  parents _ := rfl
  bindings i o₁ o₂ sc₁ sc₂ _ _ hsc₁ := by simp [hs] at hsc₁
  holds₁ := ⟨le_rfl, fun _ _ => rfl⟩
  holds₂ := ⟨le_rfl, fun _ _ => rfl⟩

theorem legible_empty : Legible #[] := ⟨fun _ => 0, fun _ => le_rfl, by simp⟩

section

variable {C : Comparison} {s t : Store}

theorem Onward.of_symm {s' t' : Store} (h : Onward C.symm t s t' s') : Onward C s t s' t' :=
  ⟨h.alike.symm, h.right, h.left⟩

theorem Comparison.SimilarItems.symm {vs ws : List Value} (h : C.SimilarItems s t vs ws) :
    C.symm.SimilarItems t s ws vs := h.flip.imp fun _ _ hv => Comparison.Similar.symm hv

theorem Comparison.SimilarFields.symm {fs gs : Fields} (h : C.SimilarFields s t fs gs) :
    C.symm.SimilarFields t s gs fs :=
  List.Forall₂.imp (fun _ _ hv => ⟨hv.1.symm, Comparison.Similar.symm hv.2⟩) (List.Forall₂.flip h)

theorem Comparison.SimilarModules.symm {ms ms' : Importable} (h : C.SimilarModules s t ms ms') :
    C.symm.SimilarModules t s ms' ms :=
  List.Forall₂.imp (fun _ _ hv => ⟨hv.1.symm, Comparison.SimilarFields.symm hv.2⟩)
    (List.Forall₂.flip h)

theorem load_agree {o₁ o₂ : Origin} {m : Module} {stack₁ stack₂ : StackId}
    {modules₁ modules₂ : Importable} (h : Alike C s t) (ho₁ : o₁.Of m stack₁) (ho₂ : o₂.Of m stack₂)
    (hm : Shared o₁ o₂ m.mentions) (hstack₁ : stack₁.index < s.stackEntries.length)
    (hstack₂ : stack₂.index < t.stackEntries.length)
    (hmodules : C.SimilarModules s t modules₁ modules₂) :
    Agree (Loaded C o₁ o₂ s t) (fun n => load n modules₁ stack₁ (o₁.code m) s)
      (fun n => load n modules₂ stack₂ (o₂.code m) t) := by
  intro n k hk
  refine ⟨load_matches h ho₁ ho₂ hm hstack₁ hstack₂ hmodules hk, ?_⟩
  refine (load_matches h.symm ho₂ ho₁ hm.symm hstack₂ hstack₁ hmodules.symm hk).imp ?_
  intro es es' t' s' hl
  exact ⟨hl.alike.symm, hl.exports.symm, fun v w hv => (hl.similar w v hv.symm).symm⟩

theorem call_agree {v w : Value} {vs ws : List Value} (h : Alike C s t) (hv : C.Similar s t v w)
    (hvs : C.SimilarItems s t vs ws) : Agree (Ends C C.Similar s t) (fun n => call n v vs s)
      (fun n => call n w ws t) := by
  intro n k hk
  refine ⟨(followsTo C n n le_rfl k hk).callWith h hv hvs, ?_⟩
  refine ((followsTo C.symm n n le_rfl k hk).callWith h.symm hv.symm hvs.symm).imp ?_
  rintro b a t' s' ⟨ho, hab⟩
  exact ⟨ho.of_symm, hab.symm⟩

theorem renderInto_agree {v w : Value} (h : Alike C s t) (hv : C.Similar s t v w)
    (container : NodeId) (d : Document) :
    Agree (fun _ _ (p q : Store × Document) => Onward C s t p.1 q.1 ∧ p.2 = q.2)
      (fun n => renderInto n container v s d) (fun n => renderInto n container w t d) := by
  intro n k hk
  refine ⟨renderInto_matches h hv container d hk, ?_⟩
  refine (renderInto_matches h.symm hv.symm container d hk).imp ?_
  rintro b a p q ⟨ho, hd⟩
  exact ⟨ho.of_symm, hd.symm⟩

end

/-- Whatever is to be rendered can be. -/
theorem exists_elementFor (v props : Value) (s : Store) :
    ∃ e s', elementFor v props s = (.ok e, s') := by
  cases v with
  | function f => cases props <;> exact ⟨_, _, rfl⟩
  | _ => exact ⟨_, _, rfl⟩

/-- Annotation keeps the meaning of a module. Let a module be read that looks at no `_self` and no
`_source`, and in which no generated name is a shorthand key or begins a tag, nor is `undefined`.
Loaded from similar modules in alike stores, the module and the annotated module come to the same:
the same error, or similar exports under the same names, in stores that are alike again. Similar
functions called with similar arguments come to the same, and so does rendering similar values with
similar props: to the same error or the same document. Values are similar that differ only in the
code of functions, as different origins have it, and in the owner and source of elements; so
nothing in reach may look at these either. -/
theorem annotation_keeps_meaning {source : String} {m : Module}
    (hparse : Module.parse source = .ok m) (fileName : String) (options : Options)
    (stack : StackId)
    (hshorthands : ∀ n, .shorthand n ∈ m.mentions → n ∉ (Names.ofModule m options).toList)
    (htags : ∀ n, .tag n ∈ m.mentions → n ∉ (Names.ofModule m options).toList)
    (hundefined : "undefined" ∉ (Names.ofModule m options).toList)
    (hdiscreet : ∀ n, .property n ∈ m.mentions → n ≠ "_self" ∧ n ≠ "_source") :
    let i : Instance :=
      ⟨m, source, fileName, options, stack, Module.written_of_parse hparse, hshorthands⟩
    ∀ (C : Comparison) (s t : Store), Alike C s t →
      (∀ modules modules', stack.index < s.stackEntries.length →
        stack.index < t.stackEntries.length → C.SimilarModules s t modules modules' →
          Agree (Loaded C .plain (.annotated i) s t) (fun n => load n modules stack m s)
            (fun n => load n modules' stack (annotate m source fileName options).module t)) ∧
      (∀ v w vs ws, C.Similar s t v w → C.SimilarItems s t vs ws →
        Agree (Ends C C.Similar s t) (fun n => call n v vs s) (fun n => call n w ws t)) ∧
      ∀ v w props props' container d, C.Similar s t v w → C.Similar s t props props' →
        ∃ e e' s' t', elementFor v props s = (.ok e, s') ∧ elementFor w props' t = (.ok e', t') ∧
          Agree (fun _ _ (p q : Store × Document) => Onward C s' t' p.1 q.1 ∧ p.2 = q.2)
            (fun n => renderInto n container e s' d) (fun n => renderInto n container e' t' d) := by
  intro i C s t h
  have hwritten := Module.written_of_parse hparse
  have hm : Shared .plain (.annotated i) m.mentions := by
    refine ⟨⟨hwritten, fun _ _ => List.not_mem_nil, List.not_mem_nil⟩, ⟨?_, htags, hundefined⟩,
      hdiscreet⟩
    exact List.Subset.refl _
  refine ⟨?_, ?_, ?_⟩
  · intro modules modules' hstack hstack' hmodules
    have hof : (Origin.annotated i).Of m stack := by
      intro j hj
      cases hj
      exact ⟨rfl, rfl⟩
    exact load_agree h nofun hof hm hstack hstack' hmodules
  · intro v w vs ws hv hvs
    exact call_agree h hv hvs
  · intro v w props props' container d hv hprops
    have hmade := elementFor_matches h hv hprops
    obtain ⟨e, s', he⟩ := exists_elementFor v props s
    obtain ⟨e', t', he'⟩ := exists_elementFor w props' t
    rw [he, he'] at hmade
    cases hmade with
    | ok hend =>
      exact ⟨e, e', s', t', he, he', renderInto_agree hend.1.alike hend.2 container d⟩

/-- A store with one stack and nothing else. -/
def oneStack : Store := Store.empty.newStack.2

def greetingSource : String :=
  "const Name = (p) => <b>\x7bp.first\x7d</b>;\n" ++
  "export const App = (p) => <p>Hello, <Name first=\x7bp.name\x7d/>!</p>;\n"

/-- The module is read, does without owners, sources and generated names, and can be loaded. -/
def greetingLoads : Bool :=
  match Module.parse greetingSource with
  | .error _ => false
  | .ok m =>
    decide (∀ n ∈ (Names.ofModule m {}).toList,
      .shorthand n ∉ m.mentions ∧ .tag n ∉ m.mentions ∧ n ≠ "undefined") &&
    decide (.property "_self" ∉ m.mentions ∧ .property "_source" ∉ m.mentions) &&
    match load 20 [] ⟨0⟩ m oneStack with
    | (.error _, _) => false
    | (.ok _, _) => true

set_option maxRecDepth 100000 in
theorem greetingLoads_eq : greetingLoads = true := by decide +kernel

/-- A component is exported alike with and without annotation, and its renderings agree. -/
theorem annotation_keeps_meaning_greeting : ∃ (m : Module) (exports exports' : Fields)
    (s t : Store), Module.parse greetingSource = .ok m ∧
      load 20 [] ⟨0⟩ m oneStack = (.ok exports, s) ∧
      load 41 [] ⟨0⟩ (annotate m greetingSource "g.jsx" {}).module oneStack = (.ok exports', t) ∧
      ∃ C : Comparison, Alike C s t ∧ C.SimilarFields s t exports exports' ∧
        ∀ name v w, exports.get? name = some v → exports'.get? name = some w →
          ∃ e e' s' t', elementFor v (.object 9 [("name", .text "you")]) s = (.ok e, s') ∧
            elementFor w (.object 9 [("name", .text "you")]) t = (.ok e', t') ∧
            ∀ n html s₁ d₁ tree, renderInto n ⟨0⟩ e s' (Document.empty.createContainer).2 =
              (.ok tree, s₁, d₁) → d₁.html ⟨0⟩ = html → ∃ tree' t₁ d₂,
                renderInto (2 * n + 1) ⟨0⟩ e' t' (Document.empty.createContainer).2 =
                  (.ok tree', t₁, d₂) ∧ d₂.html ⟨0⟩ = html := by
  have hloads := greetingLoads_eq
  unfold greetingLoads at hloads
  split at hloads
  · cases hloads
  rename_i m hparse
  rw [Bool.and_eq_true, Bool.and_eq_true, decide_eq_true_eq, decide_eq_true_eq] at hloads
  obtain ⟨⟨hnames, hself, hsource⟩, hload⟩ := hloads
  split at hload
  · cases hload
  rename_i exports s hload₁
  have hkept := annotation_keeps_meaning hparse "g.jsx" {} ⟨0⟩ (fun n hn hmem => (hnames n hmem).1 hn)
    (fun n hn hmem => (hnames n hmem).2.1 hn) (fun hmem => (hnames _ hmem).2.2 rfl) (by
      intro n hn
      constructor
      · rintro rfl
        exact hself hn
      · rintro rfl
        exact hsource hn)
  obtain ⟨hloaded, -⟩ := hkept _ _ _ (alike_of_no_scopes (s := oneStack) rfl legible_empty)
  have hmatch := (hloaded [] [] (by decide) (by decide) .nil 20 41 (by omega)).1
  dsimp only at hmatch
  rw [hload₁] at hmatch
  generalize hload₂ : load 41 [] ⟨0⟩ (annotate m greetingSource "g.jsx" {}).module oneStack = y
    at hmatch
  cases hmatch with
  | @ok _ exports' _ t hl =>
    refine ⟨m, exports, exports', s, t, hparse, hload₁, hload₂, _, hl.alike, hl.exports, ?_⟩
    intro name v w hv hw
    have hvw := hl.exports.get? name
    rw [hv, hw] at hvw
    cases hvw with
    | some hvw =>
      obtain ⟨-, -, hrender⟩ := hkept _ _ _ hl.alike
      obtain ⟨e, e', s', t', he, he', hagree⟩ := hrender v w (.object 9 [("name", .text "you")])
        (.object 9 [("name", .text "you")]) ⟨0⟩ (Document.empty.createContainer).2 hvw
        (Value.Similar.ofFields 9 (.cons ⟨rfl, Value.Similar.text "you"⟩ .nil))
      refine ⟨e, e', s', t', he, he', ?_⟩
      intro n html s₁ d₁ tree hrun hhtml
      have hdrawn := (hagree n (2 * n + 1) (by omega)).1
      dsimp only at hdrawn
      rw [hrun] at hdrawn
      generalize renderInto (2 * n + 1) ⟨0⟩ e' t' (Document.empty.createContainer).2 = y
        at hdrawn ⊢
      cases hdrawn with
      | @ok _ tree' _ drawn h =>
        obtain ⟨t₁, d₂⟩ := drawn
        obtain ⟨-, hdocument⟩ := h
        dsimp only at hdocument
        rw [hdocument] at hhtml
        exact ⟨tree', t₁, d₂, rfl, hhtml⟩

/-- A function that looks at the source of an element, and a module that imports it. -/
def peekingSource : String := "export const f = (e) => e._source;\n"

def peekedSource : String :=
  "import \x7b f \x7d from \"x\";\n" ++
  "export const a = f(<b/>);\n"

/-- The module itself keeps to all conditions, but its export is undefined without annotation and a
location with it. -/
def peeksApart : Bool :=
  match Module.parse peekingSource, Module.parse peekedSource with
  | .ok helper, .ok m =>
    match load 20 [] ⟨0⟩ helper oneStack with
    | (.error _, _) => false
    | (.ok imported, s) =>
      decide (∀ n ∈ (Names.ofModule m {}).toList,
        .shorthand n ∉ m.mentions ∧ .tag n ∉ m.mentions ∧ n ≠ "undefined") &&
      decide (.property "_self" ∉ m.mentions ∧ .property "_source" ∉ m.mentions) &&
      match load 20 [("x", imported)] ⟨0⟩ m s,
        load 20 [("x", imported)] ⟨0⟩ (annotate m peekedSource "p.jsx" {}).module s with
      | (.ok [("a", .undefined)], _), (.ok [("a", .location _)], _) => true
      | _, _ => false
  | _, _ => false

set_option maxRecDepth 100000 in
theorem peeksApart_eq : peeksApart = true := by decide +kernel

/-- Conditions on the module alone are not enough: an imported function may look at the source of an
element that the module hands to it. -/
theorem imported_function_tells_annotation : ∃ (m : Module) (modules : Importable) (s s' t' : Store)
    (Γ : Typing) (exports exports' : Fields), Module.parse peekedSource = .ok m ∧
      (∀ n ∈ (Names.ofModule m {}).toList,
        .shorthand n ∉ m.mentions ∧ .tag n ∉ m.mentions ∧ n ≠ "undefined") ∧
      (.property "_self" ∉ m.mentions ∧ .property "_source" ∉ m.mentions) ∧
      s.Sound Γ ∧ modules.Clean (s.Home Γ) ∧
      load 20 modules ⟨0⟩ m s = (.ok exports, s') ∧
      load 20 modules ⟨0⟩ (annotate m peekedSource "p.jsx" {}).module s = (.ok exports', t') ∧
      exports.get? "a" = some .undefined ∧ (∃ r, exports'.get? "a" = some (.location r)) ∧
      ∀ C : Comparison, ¬ C.SimilarFields s' t' exports exports' := by
  have happart := peeksApart_eq
  unfold peeksApart at happart
  split at happart
  case h_2 => cases happart
  rename_i helper m hhelper hparse
  split at happart
  · cases happart
  rename_i imported s himported
  rw [Bool.and_eq_true, Bool.and_eq_true, decide_eq_true_eq, decide_eq_true_eq] at happart
  obtain ⟨⟨hnames, hdiscreet⟩, hloads⟩ := happart
  split at hloads
  case h_2 => cases hloads
  rename_i s' r t' hplain hannotated
  obtain ⟨log, hlog⟩ := exists_loads himported
  have hfits : Origin.plain.Fits helper.mentions := Module.written_of_parse hhelper
  obtain ⟨hkeeps, hclean⟩ := Loads.keeps (o := .plain) (m := helper)
    (sound_of_no_scopes (s := oneStack) rfl) nofun hfits (by decide)
    (by simp [Importable.Clean]) hlog
  refine ⟨m, [("x", imported)], s, s', t', _, _, _, hparse, hnames, hdiscreet, hkeeps.sound, ?_,
    hplain, hannotated, rfl, ⟨r, rfl⟩, ?_⟩
  · simpa [Importable.Clean] using hclean
  · intro C h
    cases h with
    | cons hvw _ => cases hvw.2

end MarkupTrace
