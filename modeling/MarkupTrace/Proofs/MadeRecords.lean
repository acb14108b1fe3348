import MarkupTrace.Eval.Module
import MarkupTrace.Proofs.StoreTyping

/-!
# Only records that were made are referred to

A reference to a record is handed out when the record is made, and from then on it is passed around.
So whatever code runs, and however it ends, no value ever refers to a record that is still to be
made, provided that this was so before.
-/

namespace MarkupTrace

open Source Eval

namespace Value

/-- The records that the value refers to are among the first `n`. -/
inductive Grounded (n : Nat) : Value → Prop
  | undefined : Grounded n .undefined
  | null : Grounded n .null
  | bool (b : Bool) : Grounded n (.bool b)
  | number (d : Double) : Grounded n (.number d)
  | text (s : String) : Grounded n (.text s)
  | array (identity : Nat) {items : List Value} (h : ∀ v ∈ items, Grounded n v) :
      Grounded n (.array identity items)
  | object (identity : Nat) {fields : Fields} (h : ∀ e ∈ fields, Grounded n e.2) :
      Grounded n (.object identity fields)
  | element {c : CreatedElement Value} (props : ∀ e ∈ c.props, Grounded n e.2)
      (owner : ∀ v, c.owner = some v → Grounded n v)
      (source : ∀ v, c.source = some v → Grounded n v) : Grounded n (.element c)
  | function (f : Function) : Grounded n (.function f)
  | builtin (b : Builtin) : Grounded n (.builtin b)
  | stack (id : StackId) : Grounded n (.stack id)
  | location {r : RecordRef} (made : r.index < n) : Grounded n (.location r)

namespace Grounded

variable {n m : Nat} {v w : Value}

theorem mono (h : v.Grounded n) (hle : n ≤ m) : v.Grounded m := by
  induction h with
  | undefined => exact .undefined
  | null => exact .null
  | bool b => exact .bool b
  | number d => exact .number d
  | text s => exact .text s
  | array identity _ ih => exact .array identity ih
  | object identity _ ih => exact .object identity ih
  | element _ _ _ props owner source => exact .element props owner source
  | function f => exact .function f
  | builtin b => exact .builtin b
  | stack id => exact .stack id
  | location made => exact .location (made.trans_le hle)

theorem getD {o : Option Value} (h : ∀ v, o = some v → v.Grounded n) :
    (o.getD .undefined).Grounded n := by
  cases o with
  | none => exact .undefined
  | some v => exact h v rfl

theorem keyed {fields : Fields} (h : ∀ e ∈ fields, e.2.Grounded n) (key : String) :
    ((fields.get? key).getD .undefined).Grounded n :=
  getD fun _ hv => h _ (Keyed.mem_of_get? hv)

theorem headD {vs : List Value} (h : ∀ v ∈ vs, v.Grounded n) :
    (vs.headD .undefined).Grounded n := by
  cases vs with
  | nil => exact .undefined
  | cons v vs => exact h v List.mem_cons_self

theorem get? (h : v.Grounded n) {p : String} (hp : v.get? p = some w) : w.Grounded n := by
  cases part_of_get? hp with
  | undefined => exact .undefined
  | number _ d => exact .number d
  | text _ s => exact .text s
  | item _ hw =>
    cases h with
    | array _ hitems => exact hitems _ hw
  | field _ he =>
    cases h with
    | object _ hfields => exact hfields _ he
  | props =>
    cases h with
    | element props _ _ => exact .object _ props
  | type _ => exact .function _
  | owner hv =>
    cases h with
    | element _ owner _ => exact owner _ hv
  | source hv =>
    cases h with
    | element _ _ source => exact source _ hv

end Grounded

end Value

/-- There are no fewer records, and as many stacks. -/
structure Store.Widens (s s' : Store) : Prop where
  records : s.records.size ≤ s'.records.size
  stackCount : s'.stackEntries.length = s.stackEntries.length

namespace Store

variable {s s₁ s₂ : Store}

theorem Widens.refl (s : Store) : s.Widens s := ⟨le_rfl, rfl⟩

theorem Widens.trans (h₁ : s.Widens s₁) (h₂ : s₁.Widens s₂) : s.Widens s₂ :=
  ⟨h₁.records.trans h₂.records, h₂.stackCount.trans h₁.stackCount⟩

theorem widens_newRecord (place : Location) (s : Store) : s.Widens (s.newRecord place).2 :=
  ⟨by simp [newRecord], rfl⟩

theorem widens_push (id : StackId) (r : RecordRef) (s : Store) : s.Widens (s.push id r) :=
  ⟨le_rfl, by simp [push]⟩

theorem widens_record (id : StackId) (x : Recorded) (isLast : Bool) (s : Store) :
    s.Widens (s.record id x isLast) := by
  unfold Store.record
  cases s.entries id with
  | nil => exact .refl s
  | cons top rest =>
    cases isLast
    · exact ⟨by simp [append], rfl⟩
    · exact ⟨by simp [append, pop], by simp [append, pop]⟩

end Store

/-- The records that the bindings of a store refer to are among those it has. -/
def Store.Grounded (s : Store) : Prop :=
  ∀ (i : Nat) (sc : Scope), s.scopes[i]? = some sc → ∀ e ∈ sc.bindings, e.2.Grounded s.records.size

namespace Store.Grounded

variable {s s' : Store}

theorem of_no_scopes (h : s.scopes = #[]) : s.Grounded := by
  intro i sc hsc
  simp [h] at hsc

theorem of_scopes_eq (h : s.Grounded) (hs : s'.scopes = s.scopes)
    (hsize : s.records.size ≤ s'.records.size) : s'.Grounded :=
  fun i sc hsc e he => (h i sc (hs ▸ hsc) e he).mono hsize

theorem newScope (h : s.Grounded) (p : Option ScopeId) (stack : StackId) :
    (s.newScope p stack).2.Grounded := by
  intro i sc hsc
  rw [getElem?_newScope] at hsc
  split_ifs at hsc
  · cases hsc
    exact nofun
  · exact h i sc hsc

theorem declare (h : s.Grounded) (scope : ScopeId) (n : String) {v : Value}
    (hv : v.Grounded s.records.size) : (s.declare scope n v).Grounded := by
  intro i sc' hsc'
  rw [getElem?_declare scope.index] at hsc'
  obtain ⟨sc, hsc, rfl⟩ := Option.map_eq_some_iff.mp hsc'
  split_ifs
  · exact Keyed.forall_mem_insert (h i sc hsc) hv n
  · exact h i sc hsc

theorem lookupFrom {n : String} {i : Nat} {v : Value} (h : s.Grounded)
    (hv : s.lookupFrom n i = some v) : v.Grounded s.records.size := by
  induction i using Nat.strongRecOn with
  | ind i ih =>
    rw [Store.lookupFrom] at hv
    split at hv
    · cases hv
    · rename_i sc hsc
      split at hv
      · rename_i w hw
        cases hv
        exact h i sc hsc _ (Keyed.mem_of_get? hw)
      · split at hv
        · cases hv
        · split_ifs at hv with hlt
          exact ih _ hlt hv

theorem newRecord (h : s.Grounded) (place : Location) : (s.newRecord place).2.Grounded :=
  h.of_scopes_eq rfl (widens_newRecord place s).records

theorem record (h : s.Grounded) (id : StackId) (x : Recorded) (isLast : Bool) :
    (s.record id x isLast).Grounded := by
  refine h.of_scopes_eq ?_ (widens_record id x isLast s).records
  unfold Store.record
  cases s.entries id with
  | nil => rfl
  | cons top rest => cases isLast <;> rfl

end Store.Grounded

/-! ## Lists of values -/

def GroundedItems (n : Nat) (vs : List Value) : Prop := ∀ v ∈ vs, v.Grounded n

def GroundedFields (n : Nat) (fields : Fields) : Prop := ∀ e ∈ fields, e.2.Grounded n

theorem GroundedItems.mono {n m : Nat} {vs : List Value} (h : GroundedItems n vs) (hle : n ≤ m) :
    GroundedItems m vs := fun v hv => (h v hv).mono hle

theorem GroundedItems.cons {n : Nat} {v : Value} {vs : List Value} (hv : v.Grounded n)
    (hvs : GroundedItems n vs) : GroundedItems n (v :: vs) := List.forall_mem_cons.mpr ⟨hv, hvs⟩

namespace GroundedFields

variable {n m : Nat} {fields : Fields}

theorem nil (n : Nat) : GroundedFields n [] := by
  intro e he
  cases he

theorem mono (h : GroundedFields n fields) (hle : n ≤ m) : GroundedFields m fields :=
  fun e he => (h e he).mono hle

theorem insert (h : GroundedFields n fields) {v : Value} (hv : v.Grounded n) (key : String) :
    GroundedFields n (fields.insert key v) := Keyed.forall_mem_insert h hv key

end GroundedFields

namespace Eval

/-- What attributes gave refers to the first `n` records only. -/
structure Given.Grounded (n : Nat) (g : Given) : Prop where
  props : GroundedFields n g.props
  owner : ∀ v, g.owner = some v → v.Grounded n
  source : ∀ v, g.source = some v → v.Grounded n

namespace Given.Grounded

variable {n m : Nat} {g : Given} {v : Value}

theorem mono (h : g.Grounded n) (hle : n ≤ m) : g.Grounded m :=
  ⟨h.props.mono hle, fun v hv => (h.owner v hv).mono hle, fun v hv => (h.source v hv).mono hle⟩

theorem take (h : g.Grounded n) (hv : v.Grounded n) (name : String) :
    (g.take name v).Grounded n := by
  unfold Given.take
  split_ifs
  · exact ⟨h.props, fun w hw => by cases hw; exact hv, h.source⟩
  · exact ⟨h.props, h.owner, fun w hw => by cases hw; exact hv⟩
  · exact ⟨h.props.insert hv name, h.owner, h.source⟩

end Given.Grounded

/-- The importable modules refer to the first `n` records only. -/
def Importable.Grounded (n : Nat) (modules : Importable) : Prop := ∀ m ∈ modules, GroundedFields n m.2

theorem Importable.Grounded.mono {n m : Nat} {modules : Importable} (h : modules.Grounded n)
    (hle : n ≤ m) : modules.Grounded m := fun entry hentry => (h entry hentry).mono hle

end Eval

/-! ## Runs -/

/-- From a store with at least `n` records, in which only these are referred to, a run goes on to such
a store, however it ends. What it gives fulfils `P` for the records that there are then. -/
def Run.Grounds {α : Type} (n : Nat) (P : Nat → α → Prop) (x : Run α) : Prop :=
  ∀ s : Store, s.Grounded → n ≤ s.records.size → s.Widens (x s).2 ∧ (x s).2.Grounded ∧
    ∀ a, (x s).1 = .ok a → P (x s).2.records.size a

namespace Run.Grounds

variable {α β : Type} {n : Nat} {P : Nat → α → Prop} {Q : Nat → β → Prop}

theorem pure {a : α} (h : ∀ m, n ≤ m → P m a) : Grounds n P (Pure.pure a) := by
  intro s hs hn
  refine ⟨.refl s, hs, ?_⟩
  intro b hb
  cases hb
  exact h _ hn

theorem fail (e : Stop EvalError) : Grounds n P (Attempt.fail e) :=
  fun s hs _ => ⟨.refl s, hs, nofun⟩

theorem bind {x : Run α} {f : α → Run β} (hx : Grounds n P x)
    (hf : ∀ m a, n ≤ m → P m a → Grounds m Q (f a)) : Grounds n Q (x >>= f) := by
  intro s hs hn
  obtain ⟨hwidens, hground, hgiven⟩ := hx s hs hn
  rw [Attempt.bind_apply]
  generalize x s = result at hwidens hground hgiven ⊢
  rcases result with ⟨e | a, s₁⟩
  · exact ⟨hwidens, hground, nofun⟩
  · obtain ⟨hwidens', hrest⟩ :=
      hf s₁.records.size a (hn.trans hwidens.records) (hgiven a rfl) s₁ hground le_rfl
    exact ⟨hwidens.trans hwidens', hrest⟩

theorem gets {f : Store → α}
    (h : ∀ s : Store, s.Grounded → n ≤ s.records.size → P s.records.size (f s)) :
    Grounds n P (Attempt.gets f) := by
  intro s hs hn
  refine ⟨.refl s, hs, ?_⟩
  intro a ha
  cases ha
  exact h s hs hn

theorem modify {f : Store → Store} (h : ∀ s : Store, s.Grounded → n ≤ s.records.size →
    s.Widens (f s) ∧ (f s).Grounded) : Grounds n (fun _ _ => True) (Attempt.modify f) := by
  intro s hs hn
  obtain ⟨hwidens, hground⟩ := h s hs hn
  exact ⟨hwidens, hground, fun _ _ => trivial⟩

theorem identity : Grounds n (fun _ _ => True) (Attempt.update Store.identity) :=
  fun _ hs _ => ⟨⟨le_rfl, rfl⟩, hs.of_scopes_eq rfl le_rfl, fun _ _ => trivial⟩

theorem newScope (p : Option ScopeId) (stack : StackId) :
    Grounds n (fun _ _ => True) (Attempt.update (Store.newScope p stack)) :=
  fun _ hs _ => ⟨⟨le_rfl, rfl⟩, hs.newScope p stack, fun _ _ => trivial⟩

theorem newRecord (place : Location) :
    Grounds n (fun m r => r.index < m) (Attempt.update (Store.newRecord place)) := by
  intro s hs hn
  refine ⟨Store.widens_newRecord place s, hs.newRecord place, ?_⟩
  intro r hr
  cases hr
  simp [Attempt.update, Store.newRecord]

theorem push (id : StackId) (r : RecordRef) :
    Grounds n (fun _ _ => True) (Attempt.modify (Store.push id r)) :=
  modify fun s hs _ => ⟨Store.widens_push id r s, hs.of_scopes_eq rfl le_rfl⟩

/-! ### Steps without evaluation -/

theorem array {items : List Value} (h : GroundedItems n items) :
    Grounds n Value.Grounded (Run.array items) :=
  identity.bind fun _ _ hle _ => pure fun _ hle' => .array _ (h.mono (hle.trans hle'))

theorem object {fields : Fields} (h : GroundedFields n fields) :
    Grounds n Value.Grounded (Run.object fields) :=
  identity.bind fun _ _ hle _ => pure fun _ hle' => .object _ (h.mono (hle.trans hle'))

theorem closure (name : Option String) (params : List Param) (b : Body) (scope : ScopeId) :
    Grounds n Value.Grounded (Run.closure name params b scope) :=
  identity.bind fun _ _ _ _ => pure fun _ _ => .function _

theorem record (place : Location) : Grounds n Value.Grounded (Run.record place) :=
  (newRecord place).bind fun _ _ _ hr => pure fun _ hle => .location (hr.trans_le hle)

theorem lookup (name : String) (scope : ScopeId) :
    Grounds n Value.Grounded (Run.lookup name scope) := by
  have hfound : Grounds n (fun m o => ∀ v, o = some v → v.Grounded m)
      (Attempt.gets (Store.lookup name scope)) := gets fun s hs _ v hv => hs.lookupFrom hv
  refine hfound.bind fun m o _ ho => ?_
  cases o with
  | none => exact fail _
  | some v => exact pure fun _ hle => (ho v rfl).mono hle

theorem property (name : String) {target : Value} (h : target.Grounded n) :
    Grounds n Value.Grounded (Run.property name target) := by
  unfold Run.property
  split
  · rename_i v hv
    exact pure fun _ hle => (h.get? hv).mono hle
  · exact fail _

theorem declare (scope : ScopeId) (name : String) {v : Value} (h : v.Grounded n) :
    Grounds n (fun _ _ => True) (Run.declare scope name v) :=
  modify fun _ hs hle => ⟨⟨le_rfl, rfl⟩, hs.declare scope name (h.mono hle)⟩

theorem spread {fields : Fields} {v : Value} (hfields : GroundedFields n fields)
    (hv : v.Grounded n) : Grounds n GroundedFields (Run.spread fields v) := by
  cases hv with
  | undefined => exact pure fun _ hle => hfields.mono hle
  | null => exact pure fun _ hle => hfields.mono hle
  | object identity hadded =>
    exact pure fun _ hle => GroundedFields.mono (Keyed.forall_mem_extend hfields hadded) hle
  | _ => exact fail _

theorem boundStack (name : String) (scope : ScopeId) :
    Grounds n (fun _ _ => True) (Eval.boundStack name scope) := by
  refine (gets fun _ _ _ => trivial : Grounds n (fun _ _ => True) _).bind fun _ o _ _ => ?_
  split
  · exact pure fun _ _ => trivial
  · exact fail _
  · exact fail _

theorem helper (scope : ScopeId) (x : Helper) :
    Grounds n Value.Grounded (Eval.helper scope x) := by
  cases x with
  | newStack =>
    exact (gets fun _ _ _ => trivial : Grounds n (fun _ _ => True) _).bind fun _ _ _ _ =>
      pure fun _ _ => .stack _
  | recordParent name =>
    exact (boundStack name scope).bind fun _ _ _ _ => pure fun _ _ => .builtin _
  | recordExpression name =>
    exact (boundStack name scope).bind fun _ _ _ _ => pure fun _ _ => .builtin _

theorem callBuiltin (b : Builtin) {arguments : List Value} (h : GroundedItems n arguments) :
    Grounds n Value.Grounded (Eval.callBuiltin b arguments) := by
  cases b with
  | recordParent id =>
    have hfirst := Value.Grounded.headD h
    rw [Eval.callBuiltin]
    generalize arguments.headD .undefined = v at hfirst ⊢
    split
    · rename_i r
      exact (push id r).bind fun _ _ hle _ => pure fun _ hle' => hfirst.mono (hle.trans hle')
    · split
      · rename_i place _
        refine (newRecord place).bind fun _ r _ hr => (push id r).bind fun _ _ hle _ => ?_
        exact pure fun _ hle' => .location (hr.trans_le (hle.trans hle'))
      · exact pure fun _ hle => hfirst.mono hle
  | recordExpression id =>
    have hvalue : Value.Grounded n (arguments[1]?.getD Value.undefined) :=
      .getD fun v hv => h v (List.mem_of_getElem? hv)
    exact (modify fun s hs _ =>
        ⟨Store.widens_record _ _ _ s, hs.record _ _ _⟩).bind fun _ _ hle _ =>
      pure fun _ hle' => hvalue.mono (hle.trans hle')

theorem bindProperties (scope : ScopeId) {argument : Value} (h : argument.Grounded n)
    (names : List String) :
    Grounds n (fun _ _ => True) (Eval.bindProperties scope argument names) := by
  induction names generalizing n with
  | nil => exact pure fun _ _ => trivial
  | cons name names ih =>
    exact (property name h).bind fun _ v hle hv => (declare scope name hv).bind fun _ _ hle' _ =>
      ih (h.mono (hle.trans hle'))

theorem bindParams (scope : ScopeId) (params : List Param) {arguments : List Value}
    (h : GroundedItems n arguments) :
    Grounds n (fun _ _ => True) (Eval.bindParams scope params arguments) := by
  induction params generalizing n arguments with
  | nil => exact pure fun _ _ => trivial
  | cons p params ih =>
    have hfirst := Value.Grounded.headD h
    have hrest : ∀ m, n ≤ m →
        Grounds m (fun _ _ => True) (Eval.bindParams scope params arguments.tail) :=
      fun m hle => ih fun v hv => (h v (List.mem_of_mem_tail hv)).mono hle
    cases p with
    | name name => exact (declare scope name hfirst).bind fun m _ hle _ => hrest m hle
    | properties names => exact (bindProperties scope hfirst names).bind fun m _ hle _ => hrest m hle

theorem nameValue (scope : ScopeId) (name : String) :
    Grounds n Value.Grounded (Eval.nameValue scope name) := by
  unfold Eval.nameValue
  split_ifs
  · exact pure fun _ _ => .undefined
  · exact lookup name scope

theorem follow {target : Value} (h : target.Grounded n) (names : List String) :
    Grounds n Value.Grounded (Eval.follow target names) := by
  induction names generalizing n target with
  | nil => exact pure fun _ hle => h.mono hle
  | cons name names ih => exact (property name h).bind fun _ _ _ hv => ih hv

theorem elementType (scope : ScopeId) (name : String) :
    Grounds n (fun _ _ => True) (Eval.elementType scope name) := by
  unfold Eval.elementType
  split_ifs
  · exact pure fun _ _ => trivial
  · split
    · exact fail _
    · refine (lookup _ scope).bind fun _ _ _ hv => (follow hv _).bind fun _ w _ _ => ?_
      split
      · exact pure fun _ _ => trivial
      · exact fail _

theorem withChildren {props : Fields} {vs : List Value} (hprops : GroundedFields n props)
    (hvs : GroundedItems n vs) : Grounds n GroundedFields (Eval.withChildren props vs) := by
  match vs, hvs with
  | [], _ => exact pure fun _ hle => hprops.mono hle
  | [v], hvs =>
    have hv := hvs v List.mem_cons_self
    exact pure fun _ hle => (hprops.insert hv _).mono hle
  | _ :: _ :: _, hvs =>
    exact (array hvs).bind fun _ _ hle ha => pure fun _ hle' =>
      ((hprops.mono hle).insert ha _).mono hle'

/-! ### Evaluation -/

section

variable {ev : Evaluator} (hev : ∀ n scope e, Grounds n Value.Grounded (ev scope e))
include hev

theorem named (name : String) (scope : ScopeId) (e : Expr) :
    Grounds n Value.Grounded (Eval.named ev name scope e) := by
  unfold Eval.named
  split
  · exact closure _ _ _ scope
  · exact hev n scope _

theorem block (scope : ScopeId) (ss : List Statement) :
    Grounds n Value.Grounded (Eval.block ev scope ss) := by
  induction ss generalizing n with
  | nil => exact pure fun _ _ => .undefined
  | cons st ss ih =>
    cases st with
    | imports decl => exact fail _
    | const exported name e =>
      exact (named hev name scope e).bind fun _ _ _ hv =>
        (declare scope name hv).bind fun _ _ _ _ => ih
    | expr e => exact (hev n scope e).bind fun _ _ _ _ => ih
    | returns e => exact hev n scope e
    | returnsNothing => exact pure fun _ _ => .undefined

theorem bodyOf (scope : ScopeId) (b : Body) :
    Grounds n Value.Grounded (Eval.bodyOf ev scope b) := by
  cases b with
  | result e => exact hev n scope e
  | block ss => exact block hev scope ss

theorem callWith {callee : Value} {arguments : List Value} (h : GroundedItems n arguments) :
    Grounds n Value.Grounded (Eval.callWith ev callee arguments) := by
  have hgets : ∀ {β : Type} (f : Store → β), Grounds n (fun _ _ => True) (Attempt.gets f) :=
    fun f => gets fun _ _ _ => trivial
  cases callee with
  | function f =>
    exact (hgets _).bind fun _ stack hle _ => (newScope _ stack).bind fun _ scope hle' _ =>
      (bindParams scope f.params (h.mono (hle.trans hle'))).bind fun _ _ _ _ =>
        bodyOf hev scope f.body
  | builtin b => exact callBuiltin b h
  | _ => exact (hgets _).bind fun _ _ _ _ => fail _

theorem all (scope : ScopeId) (es : List Expr) :
    Grounds n GroundedItems (Eval.all ev scope es) := by
  induction es generalizing n with
  | nil => exact pure fun _ _ => nofun
  | cons e es ih =>
    exact (hev n scope e).bind fun _ _ _ hv => ih.bind fun _ _ hle hvs => pure fun _ hle' =>
      .cons (hv.mono (hle.trans hle')) (hvs.mono hle')

theorem objectFields (scope : ScopeId) {fields : Fields} (h : GroundedFields n fields)
    (ps : List Property) : Grounds n GroundedFields (Eval.objectFields ev scope fields ps) := by
  induction ps generalizing n fields with
  | nil => exact pure fun _ hle => h.mono hle
  | cons p ps ih =>
    cases p with
    | entry key e =>
      exact (hev n scope e).bind fun _ _ hle hv => ih ((h.mono hle).insert hv key)
    | shorthand name =>
      exact (nameValue scope name).bind fun _ _ hle hv =>
        ih ((h.mono hle).insert hv name)
    | spread e =>
      exact (hev n scope e).bind fun _ _ hle hv => (spread (h.mono hle) hv).bind fun _ _ _ hadded =>
        ih hadded

theorem attributes (scope : ScopeId) {g : Given} (h : g.Grounded n) (as : List Attribute) :
    Grounds n Given.Grounded (Eval.attributes ev scope g as) := by
  induction as generalizing n g with
  | nil => exact pure fun _ hle => h.mono hle
  | cons a as ih =>
    cases a with
    | bare name => exact ih (h.take (.bool true) name)
    | text name raw => exact ih (h.take (.text raw) name)
    | value name e => exact (hev n scope e).bind fun _ _ hle hv => ih ((h.mono hle).take hv name)
    | spread e =>
      refine (hev n scope e).bind fun _ _ hle hv => ?_
      refine (spread (h.mono hle).props hv).bind fun _ _ hle' hprops => ?_
      have hrest := h.mono (hle.trans hle')
      exact ih ⟨hprops, hrest.owner, hrest.source⟩

theorem childValues (scope : ScopeId) (cs : List Child) :
    Grounds n GroundedItems (Eval.childValues ev scope cs) := by
  induction cs generalizing n with
  | nil => exact pure fun _ _ => nofun
  | cons c cs ih =>
    have hcons : ∀ e, Grounds n GroundedItems
        (do let v ← ev scope e; return v :: (← Eval.childValues ev scope cs)) := fun e =>
      (hev n scope e).bind fun _ _ _ hv => ih.bind fun _ _ hle hvs => pure fun _ hle' =>
        .cons (hv.mono (hle.trans hle')) (hvs.mono hle')
    cases c with
    | text t =>
      refine ih.bind fun _ vs _ hvs => pure fun _ hle => ?_
      split_ifs
      · exact hvs.mono hle
      · exact .cons (.text _) (hvs.mono hle)
    | emptyContainer span => exact ih
    | container e span => exact hcons e
    | element e => exact hcons (.markup e)

theorem createElement (scope : ScopeId) (e : Element) :
    Grounds n Value.Grounded (Eval.createElement ev scope e) := by
  have hnone : ∀ m, Given.Grounded m ⟨[], none, none⟩ := fun m => ⟨.nil m, nofun, nofun⟩
  refine (elementType scope e.name).bind fun m type _ _ => ?_
  refine (attributes hev scope (hnone m) e.attributes).bind fun _ g _ hg => ?_
  refine (childValues hev scope e.content.toList).bind fun _ vs hle hvs => ?_
  refine (withChildren (hg.props.mono hle) hvs).bind fun _ props hle' hprops => ?_
  refine identity.bind fun _ _ hle₁ _ => identity.bind fun _ _ hle₂ _ => pure fun _ hle₃ => ?_
  have hend := hle₁.trans (hle₂.trans hle₃)
  have hg := hg.mono (hle.trans (hle'.trans hend))
  exact .element (hprops.mono hend) hg.owner hg.source

theorem step (scope : ScopeId) (e : Expr) : Grounds n Value.Grounded (Eval.step ev scope e) := by
  cases e with
  | text s => exact pure fun _ _ => .text s
  | number d => exact pure fun _ _ => .number d
  | bool b => exact pure fun _ _ => .bool b
  | null => exact pure fun _ _ => .null
  | this => exact pure fun _ _ => .undefined
  | name name => exact nameValue scope name
  | member e name => exact (hev n scope e).bind fun _ _ _ hv => property name hv
  | call callee arguments =>
    exact (hev n scope callee).bind fun _ _ _ _ => (all hev scope arguments).bind fun _ _ _ hvs =>
      callWith hev hvs
  | arrow params b => exact closure none params b scope
  | object ps => exact (objectFields hev scope (.nil _) ps).bind fun _ _ _ hfields => object hfields
  | array items => exact (all hev scope items).bind fun _ _ _ hvs => array hvs
  | paren e => exact hev n scope e
  | markup e => exact createElement hev scope e
  | location l =>
    exact (gets fun _ _ _ => trivial : Grounds n (fun _ _ => True) _).bind fun _ place _ _ =>
      record place
  | helper x => exact helper scope x

end

theorem eval (depth n : Nat) (scope : ScopeId) (e : Expr) :
    Grounds n Value.Grounded (Eval.eval depth scope e) := by
  induction depth generalizing n scope e with
  | zero => exact fail _
  | succ depth ih => exact step ih scope e

theorem call (depth : Nat) {callee : Value} {arguments : List Value}
    (h : GroundedItems n arguments) : Grounds n Value.Grounded (Eval.call depth callee arguments) :=
  callWith (eval depth) h

/-! ### Loading -/

theorem importedValue {found : Option Fields} (h : ∀ fields, found = some fields →
    GroundedFields n fields) (imported : Imported) :
    Grounds n Value.Grounded (Eval.importedValue found imported) := by
  have hget : ∀ key, ((found.bind (Keyed.get? key)).getD .undefined).Grounded n := by
    intro key
    cases found with
    | none => exact .undefined
    | some fields => exact .keyed (h fields rfl) key
  cases imported with
  | default => exact pure fun _ hle => (hget "default").mono hle
  | named name => exact pure fun _ hle => (hget name).mono hle
  | everything =>
    cases found with
    | none => exact pure fun _ _ => .undefined
    | some fields => exact object (h fields rfl)

theorem bindImports (scope : ScopeId) {found : Option Fields} (h : ∀ fields, found = some fields →
    GroundedFields n fields) (bs : List Binding) :
    Grounds n (fun _ _ => True) (Eval.bindImports scope found bs) := by
  induction bs generalizing n with
  | nil => exact pure fun _ _ => trivial
  | cons b bs ih =>
    exact (importedValue h b.imported).bind fun _ _ hle hv =>
      (declare scope b.name hv).bind fun _ _ hle' _ =>
        ih fun fields hf => (h fields hf).mono (hle.trans hle')

theorem topLevel {ev : Evaluator} (hev : ∀ n scope e, Grounds n Value.Grounded (ev scope e))
    {modules : Importable} (hmodules : modules.Grounded n) (scope : ScopeId)
    {exports : Fields} (hexports : GroundedFields n exports) (ss : List Statement) :
    Grounds n GroundedFields (Eval.topLevel ev modules scope exports ss) := by
  induction ss generalizing n exports with
  | nil => exact pure fun _ hle => hexports.mono hle
  | cons st ss ih =>
    cases st with
    | imports decl =>
      have hfound : ∀ fields, (modules.find? fun m => m.1 == decl.specifier).map (·.2) =
          some fields → GroundedFields n fields := by
        intro fields hf
        obtain ⟨m, hm, rfl⟩ := Option.map_eq_some_iff.mp hf
        exact hmodules m (List.mem_of_find?_eq_some hm)
      exact (bindImports scope hfound decl.bindings).bind fun _ _ hle _ =>
        ih (hmodules.mono hle) (hexports.mono hle)
    | const exported name e =>
      refine (named hev name scope e).bind fun _ v hle hv => ?_
      refine (declare scope name hv).bind fun _ _ hle' _ => ?_
      have hboth := hle.trans hle'
      refine ih (hmodules.mono hboth) ?_
      split_ifs
      · exact (hexports.mono hboth).insert (hv.mono hle') name
      · exact hexports.mono hboth
    | expr e =>
      exact (hev n scope e).bind fun _ _ hle _ =>
        ih (hmodules.mono hle) (hexports.mono hle)
    | returns e => exact fail _
    | returnsNothing => exact fail _

/-- However loading ends, only records that were made are referred to, and so it is with the exports. -/
theorem load (depth : Nat) {modules : Importable} (h : modules.Grounded n) (stack : StackId)
    (m : Module) : Grounds n GroundedFields (Eval.load depth modules stack m) :=
  (newScope none stack).bind fun _ scope hle _ =>
    topLevel (eval depth) (h.mono hle) scope (.nil _) m.body

end Run.Grounds

end MarkupTrace
