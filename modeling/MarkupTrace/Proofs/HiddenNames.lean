import MarkupTrace.Proofs.EnclosedLoading
import MarkupTrace.Proofs.MeaningKept
import MarkupTrace.Proofs.OptionNames

/-!
# Generated names are hidden

No name that an author wrote is ever found among the declarations of annotation, be it an expression
of its own, a shorthand key or the beginning of a tag: while the annotated module is loaded and
whenever something is called later. So what is undefined without annotation stays so with it.
-/

namespace MarkupTrace

open Source Annotate Eval

/-! ## Where a name is found -/

namespace Store

/-- The name, looked up from a scope, is found in a scope. -/
inductive Finds (s : Store) (n : String) : Nat → Nat → Prop
  | here {i : Nat} {sc : Scope} {v : Value} (made : s.scopes[i]? = some sc)
      (bound : sc.bindings.get? n = some v) : Finds s n i i
  | outer {i j : Nat} {sc : Scope} {p : ScopeId} (made : s.scopes[i]? = some sc)
      (unbound : sc.bindings.get? n = none) (parent : sc.parent = some p) (earlier : p.index < i)
      (h : Finds s n p.index j) : Finds s n i j

variable {s : Store} {n : String} {i j : Nat}

/-- What a lookup gives is bound in the scope where the name is found. -/
theorem lookupFrom_eq_some_iff {v : Value} : s.lookupFrom n i = some v ↔
    ∃ j sc, s.Finds n i j ∧ s.scopes[j]? = some sc ∧ sc.bindings.get? n = some v := by
  constructor
  · intro h
    induction i using Nat.strongRecOn with
    | ind i ih =>
      rw [lookupFrom] at h
      split at h
      · cases h
      · rename_i sc hsc
        split at h
        · rename_i w hw
          cases h
          exact ⟨i, sc, .here hsc hw, hsc, hw⟩
        · rename_i hnone
          split at h
          · cases h
          · rename_i p hp
            split_ifs at h with hlt
            obtain ⟨j, sc', hfinds, hsc', hv⟩ := ih _ hlt h
            exact ⟨j, sc', .outer hsc hnone hp hlt hfinds, hsc', hv⟩
  · rintro ⟨j, sc', hfinds, hsc', hv⟩
    induction hfinds with
    | here made bound =>
      cases made.symm.trans hsc'
      rw [lookupFrom, hsc']
      simp only [hv]
    | outer made unbound parent earlier _ ih =>
      rw [lookupFrom, made]
      simp only [unbound, parent, earlier, if_true]
      exact ih hsc'

/-- A scope is inside of where its names are found. -/
theorem Finds.inside (h : s.Finds n i j) : s.Inside j i := by
  induction h with
  | here made _ => exact .root (Array.getElem?_eq_some_iff.mp made).1
  | outer made _ parent earlier _ ih => exact .inner made parent earlier ih

end Store

/-- If the visit is to an enclosed name, this is not found in the root scope. -/
def Enclosure.Hides (E : Enclosure) (v : Visit) : Prop :=
  ∀ n, v.code = .name n → n ∈ E.names → ¬ v.store.Finds n v.scope.index E.root

/-- Any use of other names than these. -/
def Source.Use.Shuns (names : List String) : Use → Prop
  | binds n => n ∉ names
  | reads n => n ∉ names

/-- Code that does without the enclosed names does not come to them inside, and from outside they are
not found. -/
theorem Enclosure.Oversees.hides {E : Enclosure} (hallows : E.allows = Use.Shuns E.names) {v : Visit}
    (h : E.Oversees v) : E.Hides v := by
  intro n hn hmem hfinds
  have huses := h.licensed.2 hfinds.inside
  rw [hn, Expr.uses, hallows] at huses
  exact huses _ List.mem_cons_self hmem

/-- Declaring a name is not looking it up, so all of a loading module hides the enclosed names. -/
theorem Enclosure.Loads.hides {E : Enclosure} (hallows : E.allows = Use.Shuns E.names) {front : Nat}
    {visits : List Visit} {result : Except (Stop EvalError) Fields × Store}
    (h : E.Loads front visits result) : ∀ v ∈ visits, E.Hides v := by
  intro v hv
  rw [← List.take_append_drop front visits] at hv
  rcases List.mem_append.mp hv with hv | hv
  · exact fun n hn => absurd hn (h.declared v hv n)
  · exact (h.behind v hv).hides hallows

/-- A module without generated names among its shorthand keys and tags does without them. -/
theorem uses_shun_generated {m : Module} {o : Options}
    (hshorthands : ∀ n, .shorthand n ∈ m.mentions → n ∉ (Names.ofModule m o).toList)
    (htags : ∀ n, .tag n ∈ m.mentions → n ∉ (Names.ofModule m o).toList) :
    ∀ u ∈ usesOfStatements m.body, Use.Shuns (Names.ofModule m o).toList u := by
  intro u hu
  cases u with
  | binds n => exact binds_not_generated o hu
  | reads n =>
    intro hmem
    rcases reads_generated hu hmem with hshorthand | htag
    · exact hshorthands n hshorthand hmem
    · exact htags n htag hmem

/-! ## Missing names -/

/-- Where the first run fails because a variable is undefined, so does the second, and where the
first succeeds, so does the second, with a related result; the second may be allowed any depth of more
than twice the first one's. -/
def Echoes {α β : Type} (P : α → β → Store → Store → Prop)
    (x : Nat → Except (Stop EvalError) α × Store) (y : Nat → Except (Stop EvalError) β × Store) :
    Prop :=
  ∀ n k, 2 * n < k →
    (∀ name, (x n).1 = .error (.error (.undefinedVariable name)) →
      (y k).1 = .error (.error (.undefinedVariable name))) ∧
    ∀ a s, x n = (.ok a, s) → ∃ b t, y k = (.ok b, t) ∧ P a b s t

theorem Agree.echoes {α β : Type} {P : α → β → Store → Store → Prop}
    {x : Nat → Except (Stop EvalError) α × Store} {y : Nat → Except (Stop EvalError) β × Store}
    (h : Agree P x y) : Echoes P x y := by
  intro n k hk
  have hmatch := (h n k hk).1
  refine ⟨fun name hx => ?_, fun a s hx => ?_⟩
  · generalize x n = r, y k = r' at hmatch hx
    cases hmatch with
    | exhausted s y => cases hx
    | error e s t =>
      cases hx
      rfl
    | ok h => cases hx
  · rw [hx] at hmatch
    generalize y k = r' at hmatch ⊢
    cases hmatch with
    | ok h => exact ⟨_, _, rfl, h⟩

/-- Let a module be read in which no generated name is a shorthand key or begins a tag. Loaded after
annotation into a store whose functions were all made there, it visits no name that is found among
its declarations, and no call and no other module does so later. And what fails without annotation
because a variable is undefined fails so with it, whether a module is loaded or a function called
later, if nothing in reach looks at the owners and sources of elements. -/
theorem generated_names_hidden {source : String} {m : Module}
    (hparse : Module.parse source = .ok m) (fileName : String) (stack : StackId)
    (hshorthands : ∀ n, .shorthand n ∈ m.mentions → n ∉ (Names.ofModule m {}).toList)
    (htags : ∀ n, .tag n ∈ m.mentions → n ∉ (Names.ofModule m {}).toList) :
    let a := annotate m source fileName {}
    (∀ (modules : Importable) (s : Store), s.Made → modules.Made s →
      let E := a.enclosure fileName stack s (Use.Shuns a.names.toList) fun _ h => h
      (∀ depth, (∀ v ∈ Visit.load depth modules stack a.module s, E.Hides v) ∧
        ∀ exports s', load depth modules stack a.module s = (.ok exports, s') →
          E.Kept s' ∧ E.TakesFields s' exports) ∧
      E.Lasts E.Hides) ∧
    ((∀ n, .property n ∈ m.mentions → n ≠ "_self" ∧ n ≠ "_source") →
      ∃ o : Origin, ∀ (C : Comparison) (s t : Store), Alike C s t →
        (∀ modules modules', stack.index < s.stackEntries.length →
          stack.index < t.stackEntries.length → C.SimilarModules s t modules modules' →
            Echoes (Loaded C .plain o s t) (fun n => load n modules stack m s)
              (fun n => load n modules' stack a.module t)) ∧
        ∀ v w vs ws, C.Similar s t v w → C.SimilarItems s t vs ws →
          Echoes (Ends C C.Similar s t) (fun n => call n v vs s) (fun n => call n w ws t)) := by
  intro a
  refine ⟨?_, ?_⟩
  · intro modules s hs hmodules E
    refine ⟨fun depth => ?_, E.lasts fun v hv => hv.hides rfl⟩
    have hloads := load_encloses source fileName {} depth stack hs hmodules (fun _ h => h)
      (uses_shun_generated hshorthands htags)
    refine ⟨hloads.hides rfl, ?_⟩
    intro exports s' hload
    have hgiven := hloads.given
    rw [hload] at hgiven
    exact hgiven exports rfl
  · intro hdiscreet
    have hwritten := Module.written_of_parse hparse
    let i : Instance := ⟨m, source, fileName, {}, stack, hwritten, hshorthands⟩
    have hundefined : "undefined" ∉ i.names.toList :=
      Names.not_mem_of_options (o := {}) (by decide) (by decide) m.names
    have hm : Shared .plain (.annotated i) m.mentions :=
      ⟨⟨hwritten, fun _ _ => List.not_mem_nil, List.not_mem_nil⟩,
        ⟨List.Subset.refl _, htags, hundefined⟩, hdiscreet⟩
    have hof : (Origin.annotated i).Of m stack := by
      intro j hj
      cases hj
      exact ⟨rfl, rfl⟩
    have hplain : Origin.plain.Of m stack := nofun
    refine ⟨.annotated i, fun C s t h => ⟨?_, ?_⟩⟩
    · intro modules modules' hstack hstack' hmodules
      exact (load_agree h hplain hof hm hstack hstack' hmodules).echoes
    · intro v w vs ws hv hvs
      exact (call_agree h hv hvs).echoes

def missingSource : String := "export const a = <b>\x7bmissing\x7d</b>;\n"

/-- The module does without owners, sources and generated names, and cannot be loaded. -/
def missingFails : Bool :=
  match Module.parse missingSource with
  | .error _ => false
  | .ok m =>
    decide (∀ n ∈ (Names.ofModule m {}).toList, .shorthand n ∉ m.mentions ∧ .tag n ∉ m.mentions) &&
    decide (.property "_self" ∉ m.mentions ∧ .property "_source" ∉ m.mentions) &&
    match load 20 [] ⟨0⟩ m oneStack with
    | (.error (.error (.undefinedVariable n)), _) => n == "missing"
    | _ => false

set_option maxRecDepth 100000 in
theorem missingFails_eq : missingFails = true := by decide +kernel

/-- A child that is undefined is still so where annotation records it. -/
theorem generated_names_hidden_missing : ∃ m : Module, Module.parse missingSource = .ok m ∧
    (load 20 [] ⟨0⟩ m oneStack).1 = .error (.error (.undefinedVariable "missing")) ∧
    (load 41 [] ⟨0⟩ (annotate m missingSource "m.jsx" {}).module oneStack).1 =
      .error (.error (.undefinedVariable "missing")) ∧
    ∀ depth, ∀ v ∈ Visit.load depth [] ⟨0⟩ (annotate m missingSource "m.jsx" {}).module oneStack,
      ∀ n, v.code = .name n → n ∈ (Names.ofModule m {}).toList →
        ¬ v.store.Finds n v.scope.index 0 := by
  have hfails := missingFails_eq
  unfold missingFails at hfails
  split at hfails
  · cases hfails
  rename_i m hparse
  rw [Bool.and_eq_true, Bool.and_eq_true, decide_eq_true_eq, decide_eq_true_eq] at hfails
  obtain ⟨⟨hnames, hself, hsource⟩, hload⟩ := hfails
  split at hload
  case h_2 => cases hload
  rename_i name s hplain
  rw [beq_iff_eq] at hload
  subst hload
  obtain ⟨hsafe, hmissing⟩ := generated_names_hidden hparse "m.jsx" ⟨0⟩
    (fun n hn hmem => (hnames n hmem).1 hn) (fun n hn hmem => (hnames n hmem).2 hn)
  have hfailed : (load 20 [] ⟨0⟩ m oneStack).1 = .error (.error (.undefinedVariable "missing")) := by
    rw [hplain]
  refine ⟨m, hparse, hfailed, ?_, ?_⟩
  · have hdiscreet : ∀ n, .property n ∈ m.mentions → n ≠ "_self" ∧ n ≠ "_source" := by
      intro n hn
      constructor
      · rintro rfl
        exact hself hn
      · rintro rfl
        exact hsource hn
    obtain ⟨o, hechoes⟩ := hmissing hdiscreet
    obtain ⟨hloads, -⟩ := hechoes _ _ _ (alike_of_no_scopes (s := oneStack) rfl legible_empty)
    exact (hloads [] [] (by decide) (by decide) .nil 20 41 (by omega)).1 "missing" hfailed
  · intro depth
    exact ((hsafe [] oneStack (Store.made_of_no_scopes rfl) nofun).1 depth).1

def spreadSource : String := "export const a = \x7b ...(<b/>)._source, x: missing \x7d;\n"

/-- The module keeps clear of the generated names. Without annotation it fails for want of a
variable, and with annotation before that. -/
def spreadsApart : Bool :=
  match Module.parse spreadSource with
  | .error _ => false
  | .ok m =>
    decide (∀ n ∈ (Names.ofModule m {}).toList, .shorthand n ∉ m.mentions ∧ .tag n ∉ m.mentions) &&
    match load 20 [] ⟨0⟩ m oneStack,
      load 20 [] ⟨0⟩ (annotate m spreadSource "p.jsx" {}).module oneStack with
    | (.error (.error (.undefinedVariable n)), _), (.error (.error (.spreadOf t)), _) =>
      n == "missing" && t == "location"
    | _, _ => false

set_option maxRecDepth 100000 in
theorem spreadsApart_eq : spreadsApart = true := by decide +kernel

/-- A module that looks at the source of an element can tell whether it was annotated before it comes
to the variable that is missing. -/
theorem source_read_precedes_missing_name : ∃ m : Module, Module.parse spreadSource = .ok m ∧
    (∀ n ∈ (Names.ofModule m {}).toList, .shorthand n ∉ m.mentions ∧ .tag n ∉ m.mentions) ∧
    (load 20 [] ⟨0⟩ m oneStack).1 = .error (.error (.undefinedVariable "missing")) ∧
    (load 20 [] ⟨0⟩ (annotate m spreadSource "p.jsx" {}).module oneStack).1 =
      .error (.error (.spreadOf "location")) := by
  have hspreads := spreadsApart_eq
  unfold spreadsApart at hspreads
  split at hspreads
  · cases hspreads
  rename_i m hparse
  rw [Bool.and_eq_true, decide_eq_true_eq] at hspreads
  obtain ⟨hnames, hloads⟩ := hspreads
  split at hloads
  case h_2 => cases hloads
  rename_i n s t s' hplain hannotated
  rw [Bool.and_eq_true, beq_iff_eq, beq_iff_eq] at hloads
  obtain ⟨rfl, rfl⟩ := hloads
  refine ⟨m, hparse, hnames, ?_, ?_⟩
  · rw [hplain]
  · rw [hannotated]

end MarkupTrace
