import MarkupTrace.Proofs.MatchedChildren
import MarkupTrace.Proofs.Positions
import MarkupTrace.Proofs.RenderedAttribution

/-!
# The structure tells the children

An annotated module is loaded and something made by it is rendered. Where the children of a host
element each stand for one node, the structure tells them one by one: there is one entry for each
child, at its place among the nodes, and it ends with what was recorded for this child, even where
other children have the same value.
-/

namespace MarkupTrace

open Source Annotate Eval Render Structure

/-- A value that is mounted as one node with a fiber. -/
def Value.Single (v : Value) : Prop :=
  v.Prints ∨ ∃ e tag, v = .element e ∧ e.type = .host tag

namespace Render

/-! ## Items with one node -/

/-- The entry of an item by itself: it has a node, and the fiber of that is all that contributed. -/
structure Own (v : Value) (e : Entry) : Prop where
  node : e.node.isSome
  contributor : ∃ f, e.contributors = [.ofFiber f] ∧
    ∀ c, v = .element c → ∃ n s, f = hostFiber c n s

variable {depth n : Nat} {parent : NodeId} {m m' : Mounting} {l : List Creation}

theorem ItemPlanted.of_single {v : Value} {x : Forest}
    (h : ItemPlanted (Plants depth n) parent v m x m' l) (hv : v.Single) :
    ∃ f below node, x = .cons f below .nil ∧ f.node = some node ∧
      ∀ e, v = .element e → ∃ n s, f = hostFiber e n s := by
  cases h with
  | nested mounted =>
    rcases hv with ⟨hshown, -⟩ | ⟨e, tag, he, -⟩
    · cases hshown
    · cases he
  | other single mounted =>
    cases n with
    | zero => exact mounted.elim
    | succ n =>
      cases mounted with
      | absent nothing =>
        rcases hv with ⟨hshown, htruthy⟩ | ⟨e, tag, rfl, -⟩
        · rcases nothing with rfl | rfl | ⟨b, rfl⟩ | rfl
          · cases hshown
          · cases hshown
          · cases hshown
          · cases htruthy
        · simp at nothing
      | text shown filled =>
        refine ⟨_, _, _, rfl, rfl, ?_⟩
        rintro e rfl
        cases shown
      | array mounted => exact absurd rfl (single _ _)
      | host type content =>
        refine ⟨_, _, _, rfl, rfl, ?_⟩
        intro e he
        cases he
        exact ⟨_, _, rfl⟩
      | component type called mounted =>
        rcases hv with ⟨hshown, -⟩ | ⟨e, tag, he, htag⟩
        · cases hshown
        · cases he
          rw [type] at htag
          cases htag

/-- Each of the items has one entry, its own. -/
theorem ItemsPlanted.own_entries {vs : List Value} {xs : List Forest}
    (h : ItemsPlanted (Plants depth n) parent vs m xs m' l) (hvs : ∀ v ∈ vs, v.Single)
    (s : Store) (d : Document) (map : ExpressionMap) :
    List.Forall₂ Own vs ((Forest.join xs).entries s d map) := by
  induction h with
  | nil => exact .nil
  | cons head tail ih =>
    rw [List.forall_mem_cons] at hvs
    obtain ⟨f, below, node, rfl, hnode, hhost⟩ := head.of_single hvs.1
    rw [Forest.join, Forest.entries_append, Forest.entries, entriesOf, hnode]
    exact .cons ⟨rfl, f, rfl, hhost⟩ (ih hvs.2)

/-- The entries of the items have a node each. -/
theorem map_node_of_own {vs : List Value} {es : List Entry} (h : List.Forall₂ Own vs es) :
    es.map Entry.node = (es.filterMap Entry.node).map some := by
  induction h with
  | nil => rfl
  | @cons v e vs es hown _ ih =>
    obtain ⟨node, hnode⟩ := Option.isSome_iff_exists.mp hown.node
    rw [List.map_cons, List.filterMap_cons, hnode, ih]
    rfl

end Render

namespace Structure

/-- What the entry of a child tells of it. That of a text or an expression ends with a pseudo
component with its own place and its value. That of an element has nothing but the element, which was
created from this child. -/
def Told (i : Instance) (log : List Creation) : Child → Value → Entry → Prop
  | .text t, v, x => x.contributors.getLast? = some (.pseudo false (i.place t.trimmedSpan) v)
  | .container _ span, v, x => x.contributors.getLast? = some (.pseudo true (i.place span) v)
  | .emptyContainer _, _, _ => False
  | .element e, v, x => ∃ c ∈ log, c.element = (Origin.annotated i).element e ∧
      v = .element c.value ∧ c.value.type = .host e.name ∧
      ∃ n s, x.contributors = [.ofFiber (hostFiber c.value n s)]

/-- An entry has one entry below for each child that contributed something. Their nodes are the
children of its node in the document, in order. -/
structure TellsChildren (i : Instance) (log : List Creation) (d : Document) (node : NodeId)
    (children : List (Child × Value)) (e : Entry) : Prop where
  nodes : e.children.map Entry.node = (d.children node).map some
  told : List.Forall₂ (fun p child => Told i log p.1 p.2 child) children e.children

section

variable {i : Instance} {log : List Creation} {c : Child} {v : Value}

theorem told_of_own {e : Entry} (hsimple : Simple c (some v))
    (hc : Contributes (.annotated i) log c (some v)) (htyped : ∀ c ∈ log, c.Typed)
    (h : Own v e) (map : ExpressionMap) : Told i log c v (e.extend (i.groupOf map c v)) := by
  have hlast : ∀ x, x.value = v → v.Prints → i.recordOf? c (some v) = some x →
      (e.extend (i.groupOf map c v)).contributors.getLast? = some (.ofRecorded x) := by
    rintro x rfl hprints hx
    rw [Entry.contributors_extend, Instance.groupOf, hx, List.getLast?_append, Option.map_some,
      Option.getD_some, getLast?_matchGroup_self map hprints.2]
    rfl
  rcases hsimple.kinds hc i with ⟨hnone, -⟩ | ⟨w, x, hw, hprints, hx, hvalue⟩ |
    ⟨el, c', hc', rfl, hhost, helement, hv, hnone⟩
  · cases hnone
  · cases hw
    have hlast := hlast x hvalue hprints hx
    cases c with
    | text t =>
      rw [Instance.recordOf?] at hx
      split at hx
      · obtain rfl := Option.some.inj hx
        exact hlast
      · cases hx
    | container el span =>
      obtain rfl := Option.some.inj hx
      exact hlast
    | _ => cases hx
  · cases hv
    obtain ⟨f, hf, hfiber⟩ := h.contributor
    obtain ⟨n, s, rfl⟩ := hfiber _ rfl
    have hname : c'.element.name = el.name := by rw [helement, Origin.element_name]
    refine ⟨c', hc', helement, rfl, ?_, n, s, ?_⟩
    · rw [← hname]
      exact htyped c' hc' (hname ▸ hhost)
    · rw [Entry.contributors_extend, Instance.groupOf, hnone, hf]
      rfl

theorem single_of_simple (hsimple : Simple c (some v))
    (hc : Contributes (.annotated i) log c (some v)) (htyped : ∀ c ∈ log, c.Typed) : v.Single := by
  rcases hsimple.kinds hc i with ⟨hnone, -⟩ | ⟨w, x, hw, hprints, -, -⟩ |
    ⟨el, c', hc', -, hhost, helement, hv, -⟩
  · cases hnone
  · cases hw
    exact .inl hprints
  · cases hv
    have hname : c'.element.name = el.name := by rw [helement, Origin.element_name]
    exact .inr ⟨_, _, rfl, htyped c' hc' (hname ▸ hhost)⟩

end

/-- Attaching leaves all nodes, and each entry gets the group at its position. -/
theorem map_node_attach {es : List Entry} {nodes : List NodeId} (h : nodes.length ≤ es.length)
    (groups : List (List Contributor)) :
    (attach es nodes groups).map Entry.node = es.map Entry.node := by
  refine List.ext_getElem? fun k => ?_
  rw [List.getElem?_map, List.getElem?_map, getElem?_attach h]
  cases es[k]? with
  | none => rfl
  | some e => exact congrArg some (Entry.node_extend e _)

end Structure

namespace Eval

variable {o : Origin} {log : List Creation} {cs : List Child} {given : List (Option Value)}

/-- The children that contributed something did so. -/
theorem forall_contributions {R : Child → Option Value → Prop} (h : List.Forall₂ R cs given) :
    ∀ p ∈ contributions cs given, R p.1 (some p.2) := by
  induction h with
  | nil => nofun
  | @cons c v cs given hc _ ih =>
    refine List.forall_mem_append.mpr ⟨?_, ih⟩
    intro p hp
    cases v with
    | none => cases hp
    | some w =>
      rw [List.mem_singleton.mp hp]
      exact hc

/-- Several contributed values are an array. -/
theorem Gathered.array {props : Fields} {vs : List Value} (h : Gathered props vs)
    (hvs : 2 ≤ vs.length) : ∃ identity, props.get? "children" = some (.array identity vs) := by
  match vs, h with
  | _ :: _ :: _, h => exact h

end Eval

namespace Render

variable {depth : Nat} {container : NodeId} {v : Value} {s s' : Store} {d d' : Document}
  {x : Forest} {tree : FiberTree} {l log : List Creation} {i : Instance} {e : Element} {c : Creation}

theorem recordedFor_hostFiber (hsource : e.hasAttribute sourceAttribute = false)
    (h : c.From (.annotated i) e s log) (node : NodeId) (st : Store) :
    recordedFor s (hostFiber c.value node st) = i.recordsOf e.content.toList c.given := by
  obtain ⟨r, hr, -, -, -, hrecorded⟩ := h.attributed i rfl hsource
  rw [recordedFor, hostFiber, hr]
  exact hrecorded

/-- The entry of a host element tells its children, if each of them stands for one node and there are
two at least. -/
theorem Rendered.tellsChildren (h : Rendered depth container v s d x tree s' d' l)
    (hcontainer : container.index < d.size) {entries : List Entry}
    (hentries : ofTree? s' d' tree = some entries) (hfrom : c.From (.annotated i) e s' log)
    (htyped : ∀ c ∈ log, c.Typed) (hsource : e.hasAttribute sourceAttribute = false)
    (hsimple : List.Forall₂ Simple e.content.toList c.given)
    (htwo : 2 ≤ (contributions e.content.toList c.given).length) {node : NodeId} {st : Store}
    {below : Forest} (hf : Forest.Occurs (hostFiber c.value node st) below x) :
    (∃ entry : Entry, entry.Within entries ∧ entry.node = some node ∧
      entry.contributors.head? = some (.ofFiber (hostFiber c.value node st))) ∧
    ∀ entry : Entry, entry.Within entries → entry.node = some node →
      entry.contributors.head? = some (.ofFiber (hostFiber c.value node st)) →
      TellsChildren i log d' node (contributions e.content.toList c.given) entry := by
  obtain ⟨⟨e₀, he₀, map₀, hshows₀⟩, hshows⟩ := h.shows hcontainer hentries hf rfl
  refine ⟨⟨e₀, he₀, hshows₀.shown, hshows₀.first⟩, ?_⟩
  intro entry hentry hnode hfirst
  obtain ⟨map, hshows⟩ := hshows entry hentry hnode hfirst
  -- The children are an array of what was contributed, mounted item by item.
  have hvalues := map_snd_contributions hfrom.contributed.length_eq
  obtain ⟨identity, hprop⟩ := hfrom.gathered.array (by rwa [← hvalues, List.length_map])
  have hchildren : childrenProp (hostFiber c.value node st) =
      .array identity (c.given.filterMap id) := by
    rw [childrenProp_hostFiber, hprop]
    rfl
  obtain ⟨e₁, m₁, m₂, hhosted⟩ := h.hosts hcontainer hf rfl
  obtain ⟨hnode', hsurface, n, xs, m₃, m₄, l', rfl, hplanted⟩ := hhosted.items hchildren
  rw [← Option.some.inj hnode'] at hsurface hplanted
  have hcontributed := forall_contributions hfrom.contributed
  have hsimple' := forall_contributions hsimple
  have hsingle : ∀ v ∈ c.given.filterMap id, v.Single := by
    rw [← hvalues]
    intro v hv
    obtain ⟨p, hp, rfl⟩ := List.mem_map.mp hv
    exact single_of_simple (hsimple' p hp) (hcontributed p hp) htyped
  have hown := hplanted.own_entries hsingle s' d' map
  have hnodes := map_node_of_own hown
  rw [Forest.filterMap_node_entries, ← hsurface] at hnodes
  have hlength : (d'.children node).length ≤ ((Forest.join xs).entries s' d' map).length := by
    rw [← List.length_map (f := some), ← hnodes, List.length_map]
  refine ⟨?_, ?_⟩
  · rw [hshows.children, map_node_attach hlength, hnodes]
  · -- Each entry gets the group of its own child.
    rw [hshows.children, hchildren, recordedFor_hostFiber hsource hfrom]
    rw [← hvalues, List.forall₂_map_left_iff] at hown
    obtain ⟨hcount, hown⟩ := List.forall₂_iff_get.mp hown
    refine List.forall₂_iff_get.mpr ⟨by rw [length_attach hlength, hcount], ?_⟩
    intro k hk hk'
    have hmem := List.get_mem (contributions e.content.toList c.given) ⟨k, hk⟩
    have hother : ∀ x ∈ i.recordsOf e.content.toList c.given,
        x.value.strictEq (.array identity (c.given.filterMap id)) = false := fun x hx =>
      (i.prints_of_mem_recordsOf hfrom.contributed hsimple x hx).strictEq_array _ _
    have hgroup := getD_reconcile_array map hother k
    rw [Instance.matchItems_recordsOf hfrom.contributed hsimple, List.getElem?_map,
      List.getElem?_eq_getElem hk, Option.map_some, Option.getD_some] at hgroup
    have hchild := getElem?_attach hlength (reconcile (.array identity (c.given.filterMap id))
      (i.recordsOf e.content.toList c.given) map) k
    rw [hgroup, List.getElem?_eq_getElem hk', List.getElem?_eq_getElem (hcount ▸ hk)] at hchild
    rw [List.get_eq_getElem, List.get_eq_getElem, Option.some.inj hchild]
    exact told_of_own (hsimple' _ hmem) (hcontributed _ hmem) htyped (hown k hk (hcount ▸ hk)) map

/-- The structure tells the children. A module that was read and annotated, and has no generated name
as a shorthand key, is loaded onto a stack that is there, with clean values to import. Whatever is
made with it afterwards, when a clean value is rendered then every element that was created comes from
known code; and take a host element that was created from an annotated one without a `__source` of the
author's. If its children are simple and two of them or more contributed something, then each of its
fibers has an entry, and this tells the children: they have one entry each, in order, at the nodes
below, with what was recorded for this child in the end. -/
theorem structure_tells_children {source : String} {m : Module}
    (hparse : Module.parse source = .ok m) (fileName : String) (options : Options) (stack : StackId)
    (hshorthands : ∀ n, .shorthand n ∈ m.mentions → n ∉ (Names.ofModule m options).toList)
    {Γ : Typing} {s s₁ : Store} (hs : s.Sound Γ) (hstack : stack.index < s.stackEntries.length)
    {depth : Nat} {modules : Importable} {exports : Fields} (hmodules : modules.Clean (s.Home Γ))
    (hload : load depth modules stack (annotate m source fileName options).module s =
      (.ok exports, s₁)) :
    let i : Instance :=
      ⟨m, source, fileName, options, stack, Module.written_of_parse hparse, hshorthands⟩
    let Γ' := Γ.open s (.annotated i)
    let code := (annotate m source fileName options).module
    (∃ log₁, Loads depth modules stack code s exports s₁ log₁) ∧
      (∀ e ∈ exports, e.2.Clean (s₁.Home Γ')) ∧
      ∀ log₁, Loads depth modules stack code s exports s₁ log₁ →
        ∀ s₂ log₂, Uses Γ' s₁ s₂ log₂ →
          ∀ depth container v d tree s₃ d', v.Clean (s₂.Home Γ') → container.index < d.size →
            renderInto depth container v s₂ d = (.ok tree, s₃, d') →
            (∃ x l, Rendered depth container v s₂ d x tree s₃ d' l) ∧
              ∀ x l, Rendered depth container v s₂ d x tree s₃ d' l →
                (∀ c ∈ log₁ ++ log₂ ++ l, ∃ o e, s₃.Home Γ' c.scope.index o ∧ o.Fits e.mentions ∧
                  c.From o e s₃ (log₁ ++ log₂ ++ l)) ∧
                ∀ entries, ofTree? s₃ d' tree = some entries → ∀ c ∈ log₁ ++ log₂ ++ l, ∀ i' e,
                  c.From (.annotated i') e s₃ (log₁ ++ log₂ ++ l) →
                  e.hasAttribute sourceAttribute = false →
                  List.Forall₂ Simple e.content.toList c.given →
                  2 ≤ (contributions e.content.toList c.given).length →
                  ∀ node st below, Forest.Occurs (hostFiber c.value node st) below x →
                    (∃ entry : Entry, entry.Within entries ∧ entry.node = some node ∧
                      entry.contributors.head? = some (.ofFiber (hostFiber c.value node st))) ∧
                    ∀ entry : Entry, entry.Within entries → entry.node = some node →
                      entry.contributors.head? = some (.ofFiber (hostFiber c.value node st)) →
                      TellsChildren i' (log₁ ++ log₂ ++ l) d' node
                        (contributions e.content.toList c.given) entry := by
  intro i Γ' code
  have hloaded : ∀ log₁, Loads depth modules stack code s exports s₁ log₁ →
      Keeps Γ' s s₁ log₁ ∧ ∀ e ∈ exports, e.2.Clean (s₁.Home Γ') := by
    intro log₁ h
    refine Loads.keeps (o := .annotated i) (m := m) hs ?_ (List.Subset.refl _) hstack hmodules h
    exact fun j hj => by cases hj; exact ⟨rfl, rfl⟩
  obtain ⟨log, hlog⟩ := exists_loads hload
  refine ⟨⟨log, hlog⟩, (hloaded log hlog).2, ?_⟩
  intro log₁ hload₁ s₂ log₂ huses depth' container v d tree s₃ d' hv hcontainer hrender
  refine ⟨exists_rendered hrender, ?_⟩
  intro x l hrendered
  have k₁ := (hloaded log₁ hload₁).1
  have htyped₁ := TopLevel.typed (typed_derives depth) hload₁
  obtain ⟨k₂, htyped₂⟩ := huses.keepsBooks k₁.sound
  obtain ⟨k₃, htyped₃⟩ := hrendered.keepsBooks k₂.sound hv
  have htyped : ∀ c ∈ log₁ ++ log₂ ++ l, c.Typed :=
    List.forall_mem_append.mpr ⟨List.forall_mem_append.mpr ⟨htyped₁, htyped₂⟩, htyped₃⟩
  constructor
  · intro c hc
    exact (((k₁.trans k₂).trans k₃).accounted c hc).2
  · intro entries hentries c _ i' e hfrom hsource hsimple htwo node st below hf
    exact hrendered.tellsChildren hcontainer hentries hfrom htyped hsource hsimple htwo hf

end Render

/-! ## A text and an expression with the same value -/

namespace Annotate.Origin

variable {o : Origin}

theorem length_children (o : Origin) (records : Bool) (cs : List Child) :
    (o.children records cs).length = cs.length := by
  induction cs with
  | nil => rw [children_nil]
  | cons c cs ih => rw [children_cons, List.length_cons, ih, List.length_cons]

/-- Written code does not come out as a call with a location. -/
theorem expr_ne_located {e : Expr} (h : o.Fits e.mentions) {n : String} {p : LocationLiteral}
    {es : List Expr} : o.expr e ≠ .call (.name n) (.location p :: es) := by
  intro he
  cases e with
  | call callee arguments =>
    rw [expr_call, Expr.call.injEq] at he
    rw [Expr.mentions] at h
    cases arguments with
    | nil => simp at he
    | cons x xs =>
      rw [exprs_cons, List.cons.injEq] at he
      rw [mentionsOfItems] at h
      cases x with
      | location q => exact h.right.left.written (by simp [Expr.mentions])
      | _ => simp at he
  | _ => simp at he

/-- An element with a recorded child has its place from annotation. -/
theorem annotated_of_recorded {e : Element} (h : o.Fits e.mentions) {n : String}
    {p : LocationLiteral} {es : List Expr} {span : Text.Span} {cs : List Child}
    (hcontent : (o.element e).content.toList =
      .container (.call (.name n) (.location p :: es)) span :: cs) :
    ∃ i, o = .annotated i ∧ e.hasAttribute sourceAttribute = false := by
  rw [element_content] at hcontent
  rw [Element.mentions_eq] at h
  cases hrecords : o.records e with
  | true =>
    cases o with
    | plain => cases hrecords
    | annotated i =>
      refine ⟨i, rfl, ?_⟩
      have hboth : recordsChildren e = true := hrecords
      rw [recordsChildren, Bool.and_eq_true, Bool.not_eq_true'] at hboth
      exact hboth.1
  | false =>
    rw [hrecords] at hcontent
    have hmentions := h.right.right.right
    cases hlist : e.content.toList with
    | nil =>
      rw [hlist, children_nil] at hcontent
      cases hcontent
    | cons c rest =>
      rw [hlist, children_cons, List.cons.injEq] at hcontent
      rw [hlist, mentionsOfChildren] at hmentions
      cases c with
      | container x other =>
        rw [child_container_unrecorded, Child.container.injEq] at hcontent
        exact absurd hcontent.1.1 (expr_ne_located hmentions.left)
      | text t =>
        rw [child_text_unrecorded] at hcontent
        cases hcontent.1
      | emptyContainer other =>
        rw [child_emptyContainer] at hcontent
        cases hcontent.1
      | element other =>
        rw [child_element] at hcontent
        cases hcontent.1

end Annotate.Origin

namespace Eval

/-- Children that all come out in braces, with something in them, are recorded. -/
theorem isWrappable_of_containers {o : Origin} {records : Bool} {cs : List Child}
    (h : ∀ c ∈ o.children records cs, ∃ x span, c = .container x span) :
    ∀ c ∈ cs, c.isWrappable = true := by
  induction cs with
  | nil => exact nofun
  | cons c cs ih =>
    rw [Origin.children_cons, List.forall_mem_cons] at h
    refine List.forall_mem_cons.mpr ⟨?_, ih h.2⟩
    obtain ⟨x, span, hx⟩ := h.1
    cases c with
    | text t =>
      cases o with
      | plain => cases hx
      | annotated i =>
        rw [Origin.child, Annotate.child] at hx
        split at hx
        · rename_i hboth
          exact (Bool.and_eq_true _ _ ▸ hboth).2
        · cases hx
    | container e span => rfl
    | emptyContainer span =>
      rw [Origin.child_emptyContainer] at hx
      cases hx
    | element e =>
      rw [Origin.child_element] at hx
      cases hx

/-- Children that all come out in braces contribute something each, and are simple if that is a text or
a number. -/
theorem exists_given_of_containers {o : Origin} {log : List Creation} {records : Bool}
    {cs : List Child} {given : List (Option Value)}
    (h : List.Forall₂ (Contributes o log) cs given)
    (hcontainers : ∀ c ∈ o.children records cs, ∃ x span, c = .container x span) :
    ∃ vs : List Value, given = vs.map some ∧ ((∀ v ∈ vs, v.Prints) → List.Forall₂ Simple cs given) := by
  replace hcontainers := isWrappable_of_containers hcontainers
  induction h with
  | nil => exact ⟨[], rfl, fun _ => .nil⟩
  | @cons c v cs given hc hcs ih =>
    rw [List.forall_mem_cons] at hcontainers
    obtain ⟨vs, rfl, ih⟩ := ih hcontainers.2
    obtain ⟨w, rfl, hsimple⟩ : ∃ w, v = some w ∧ (w.Prints → Simple c v) := by
      cases c with
      | text t =>
        have hsignificant : t.isSignificant = true := hcontainers.1
        rw [Contributes, if_neg (MarkupText.cooked_ne_empty hsignificant)] at hc
        exact ⟨_, hc, fun _ => .inl hsignificant⟩
      | container e span =>
        obtain ⟨w, rfl⟩ := hc
        exact ⟨w, rfl, fun hw => ⟨w, rfl, hw⟩⟩
      | _ => cases hcontainers.1
    refine ⟨w :: vs, rfl, fun hprints => ?_⟩
    rw [List.forall_mem_cons] at hprints
    exact .cons (hsimple hprints.1) (ih hprints.2)

/-- What a module exports last was created from its last statement. -/
theorem TopLevel.exists_creation {J : Judgement} (hreg : Regular J) {modules : Importable}
    {scope : ScopeId} {exports exports' : Fields} {front : List Statement} {name : String}
    {e : Element} {s s' : Store} {l : List Creation}
    (h : TopLevel J modules scope exports (front ++ [.const true name (.markup e)]) s exports' s' l) :
    ∃ c ∈ l, c.element = e ∧ exports'.get? name = some (.element c.value) := by
  induction front generalizing exports s l with
  | nil =>
    cases h with
    | const bound further =>
      cases further
      cases bound with
      | other unnamed evaluated =>
        obtain ⟨c, hc, helement, rfl⟩ := hreg.markup evaluated
        exact ⟨c, List.mem_append_left _ hc, helement, Keyed.get?_insert_self _ _ _⟩
  | cons st front ih =>
    cases h with
    | imports bound further => exact ih further
    | const bound further =>
      obtain ⟨c, hc, hrest⟩ := ih further
      exact ⟨c, List.mem_append_right _ hc, hrest⟩
    | expr evaluated further =>
      obtain ⟨c, hc, hrest⟩ := ih further
      exact ⟨c, List.mem_append_right _ hc, hrest⟩

end Eval

namespace Render

/-- An element with a text and an expression that are shown alike. -/
def equalSource : String := "export const App = <p>x\x7b\"x\"\x7d</p>;\n"

/-- The module is read and loaded, and its element is rendered with two texts in it. -/
def equalRuns : Bool :=
  match Module.parse equalSource with
  | .error _ => false
  | .ok m =>
    let code := (annotate m equalSource "s.jsx" {}).module
    decide (∀ n ∈ (Names.ofModule m {}).toList, .shorthand n ∉ m.mentions) &&
      match code.body.getLast?, load 9 [] ⟨0⟩ code blankStore with
      | some (.const true "App" (.markup e)), (.ok exports, s) =>
        match e.content.toList, exports.get? "App" with
        | [.container (.call (.name _) (.location _ :: _)) _, .container _ _], some (.element v) =>
          match v.type, Keyed.get? "children" v.props, renderInto 9 ⟨0⟩ (.element v) s blankDocument with
          | .host _, some (.array _ [.text a, .text b]), (.ok _, _, _) =>
            decide (a ≠ "" ∧ b ≠ "")
          | _, _, _ => false
        | _, _ => false
      | _, _ => false

set_option maxRecDepth 100000 in
theorem equalRuns_eq : equalRuns = true := by decide +kernel

/-- In the rendering of the element, the entries of its two children are told apart. -/
theorem structure_tells_children_equal : ∃ (m : Module) (exports : Fields) (v : CreatedElement Value)
    (s₁ s₃ : Store) (d' : Document) (tree : FiberTree) (entries : List Entry) (i : Instance)
    (e : Element) (c : Creation) (log : List Creation) (entry : Entry),
    Module.parse equalSource = .ok m ∧
      load 9 [] ⟨0⟩ (annotate m equalSource "s.jsx" {}).module blankStore = (.ok exports, s₁) ∧
      exports.get? "App" = some (.element v) ∧
      renderInto 9 ⟨0⟩ (.element v) s₁ blankDocument = (.ok tree, s₃, d') ∧
      ofTree? s₃ d' tree = some entries ∧ c.value = v ∧ c.From (.annotated i) e s₃ log ∧
      (contributions e.content.toList c.given).length = 2 ∧ entry.Within entries ∧
      TellsChildren i log d' ⟨1⟩ (contributions e.content.toList c.given) entry := by
  have hruns := equalRuns_eq
  unfold equalRuns at hruns
  split at hruns
  · cases hruns
  rename_i m hparse
  dsimp only at hruns
  rw [Bool.and_eq_true, decide_eq_true_eq] at hruns
  obtain ⟨hnames, hruns⟩ := hruns
  split at hruns
  case h_2 => cases hruns
  rename_i el exports s₁ hlast hload
  split at hruns
  case h_2 => cases hruns
  rename_i n p es span x span' v hcontent hget
  split at hruns
  case h_2 => cases hruns
  rename_i tag identity a b tree s₃ d' htype hchildren hrender
  obtain ⟨ha, hb⟩ := of_decide_eq_true hruns
  have hshorthands : ∀ n, .shorthand n ∈ m.mentions → n ∉ (Names.ofModule m {}).toList :=
    fun n hn hmem => hnames n hmem hn
  have hsound : blankStore.Sound fun _ => none := Store.sound_of_no_scopes rfl
  obtain ⟨⟨log₁, hlog₁⟩, hexports, htells⟩ := structure_tells_children hparse "s.jsx" {} ⟨0⟩
    hshorthands hsound (by decide) (by simp [Importable.Clean]) hload
  -- The rendered element was created from the last statement.
  obtain ⟨front, hfront⟩ := List.getLast?_eq_some_iff.mp hlast
  have hcode := hlog₁
  rw [Loads, hfront] at hcode
  obtain ⟨c, hc, rfl, hvalue⟩ := TopLevel.exists_creation (regular_derives 9) hcode
  rw [hget] at hvalue
  cases hvalue
  obtain ⟨⟨xs, l, hrendered⟩, htells⟩ := htells log₁ hlog₁ s₁ [] .start 9 ⟨0⟩ _ blankDocument tree
    s₃ d' (hexports _ (Keyed.mem_of_get? hget)) (by decide) hrender
  obtain ⟨hfrom, htells⟩ := htells xs l hrendered
  have hmem : c ∈ log₁ ++ [] ++ l := List.mem_append_left _ (List.mem_append_left _ hc)
  obtain ⟨o, e, -, hfits, hfrom⟩ := hfrom c hmem
  rw [hfrom.element] at hcontent
  obtain ⟨i, rfl, hsource⟩ := Origin.annotated_of_recorded hfits hcontent
  rw [Origin.element_content] at hcontent
  have hcontainers : ∀ c ∈ (Origin.annotated i).children ((Origin.annotated i).records e)
      e.content.toList, ∃ x span, c = .container x span := by
    rw [hcontent]
    simp
  obtain ⟨vs, hgiven, hsimple⟩ := exists_given_of_containers hfrom.contributed hcontainers
  -- Its two children are the two texts.
  have hvalues : c.given.filterMap id = vs := by simp [hgiven]
  have hcount : vs.length = 2 := by
    have hlength := hfrom.contributed.length_eq
    rw [hgiven, List.length_map, ← Origin.length_children, hcontent] at hlength
    exact hlength.symm
  obtain ⟨identity', hprop⟩ := hfrom.gathered.array (by rw [hvalues, hcount])
  rw [hvalues] at hprop
  obtain ⟨-, rfl⟩ : identity' = identity ∧ vs = [.text a, .text b] := by
    simpa using hprop.symm.trans hchildren
  have hsimple := hsimple (by simpa using ⟨Value.prints_text ha, Value.prints_text hb⟩)
  have hcontributions : (contributions e.content.toList c.given).length = 2 := by
    rw [← List.length_map (f := Prod.snd), map_snd_contributions hfrom.contributed.length_eq, hvalues]
    rfl
  obtain ⟨t, hplants, -⟩ := hrendered.planted
  obtain ⟨below, rfl⟩ := hplants.of_host htype
  obtain ⟨⟨entry, hentry, hnode, hfirst⟩, htells⟩ := htells _ hrendered.ofTree?_eq c hmem i e hfrom
    hsource hsimple hcontributions.ge _ _ _ .here
  exact ⟨m, exports, c.value, s₁, s₃, d', tree, _, i, e, c, _, entry, hparse, hload, hget, hrender,
    hrendered.ofTree?_eq, rfl, hfrom, hcontributions, hentry, htells entry hentry hnode hfirst⟩

end Render

end MarkupTrace
