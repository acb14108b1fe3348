import MarkupTrace.Proofs.ForestEntries
import MarkupTrace.Annotate.Compile
import MarkupTrace.Eval.Module

/-!
# Which items the groups reach

The groups of an element's children are handed out by position: the entry at a position gets the
group at that position. An item of the children may have no entry, or several, and then the entries
behind it do not stand at the position of their item.
-/

namespace MarkupTrace

open Source Annotate Eval Render Structure

namespace Structure

theorem Component.isPseudo_ofType (type : Option ElementType) :
    (Component.ofType type).isPseudo = false := by
  cases type with
  | none => rfl
  | some type => cases type <;> rfl

end Structure

namespace Render

namespace Forest

variable {x : Forest} {f f' : Fiber} {below below' : Forest} {n : NodeId}

theorem mem_nodes_of_occurs (h : Occurs f below x) (hf : f.node = some n) : n ∈ x.nodes := by
  induction h with
  | here =>
    rw [nodes, hf]
    exact List.mem_append_left _ (List.mem_singleton.mpr rfl)
  | under _ ih => exact List.mem_append_right _ (List.mem_append_left _ ih)
  | after _ ih => exact List.mem_append_right _ (List.mem_append_right _ ih)

theorem nodes_sublist (h : Occurs f below x) : below.nodes.Sublist x.nodes := by
  induction h with
  | here => exact (List.sublist_append_left _ _).trans (List.sublist_append_right _ _)
  | under _ ih =>
    exact ih.trans ((List.sublist_append_left _ _).trans (List.sublist_append_right _ _))
  | after _ ih =>
    exact ih.trans ((List.sublist_append_right _ _).trans (List.sublist_append_right _ _))

/-- No two visual fibers have one node. -/
theorem Lies.eq_of_node {path path' : List Fiber}
    (hx : x.nodes.Pairwise fun a b => a.index < b.index) (h : Lies f below path x)
    (h' : Lies f' below' path' x) (hf : f.node = some n) (hf' : f'.node = some n) :
    f = f' ∧ below = below' ∧ path = path' := by
  induction x generalizing path path' with
  | nil => cases h
  | cons g w behind ihw ihbehind =>
    rw [nodes, List.pairwise_append, List.pairwise_append] at hx
    obtain ⟨-, ⟨hw, hbehind, hbetween⟩, hfirst⟩ := hx
    have hhead : ∀ {u : Fiber} {y : Forest}, g.node = some n → u.node = some n →
        Occurs u y w ∨ Occurs u y behind → False := by
      intro u y hg hu hoccurs
      have hmem : n ∈ w.nodes ++ behind.nodes := by
        rcases hoccurs with hoccurs | hoccurs
        · exact List.mem_append_left _ (mem_nodes_of_occurs hoccurs hu)
        · exact List.mem_append_right _ (mem_nodes_of_occurs hoccurs hu)
      exact Nat.lt_irrefl _ (hfirst n (by simp [hg]) n hmem)
    have hapart : ∀ {u v : Fiber} {y z : Forest}, u.node = some n → v.node = some n →
        Occurs u y w → Occurs v z behind → False := by
      intro u v y z hu hv hleft hright
      exact Nat.lt_irrefl _
        (hbetween n (mem_nodes_of_occurs hleft hu) n (mem_nodes_of_occurs hright hv))
    cases h with
    | here =>
      cases h' with
      | here => exact ⟨rfl, rfl, rfl⟩
      | under h' => exact (hhead hf hf' (.inl h'.occurs)).elim
      | after h' => exact (hhead hf hf' (.inr h'.occurs)).elim
    | under h =>
      cases h' with
      | here => exact (hhead hf' hf (.inl h.occurs)).elim
      | under h' =>
        obtain ⟨hfiber, hbelow, rfl⟩ := ihw hw h h'
        exact ⟨hfiber, hbelow, rfl⟩
      | after h' => exact (hapart hf hf' h.occurs h'.occurs).elim
    | after h =>
      cases h' with
      | here => exact (hhead hf' hf (.inr h.occurs)).elim
      | under h' => exact (hapart hf' hf h'.occurs h.occurs).elim
      | after h' => exact ihbehind hbehind h h'

/-- An entry for the node of a visual fiber that starts with it is its own. -/
theorem Lies.shows_of_within {s : Store} {d : Document} {map : ExpressionMap} {path : List Fiber}
    {e : Entry} (hx : x.nodes.Pairwise fun a b => a.index < b.index) (h : Lies f below path x)
    (hf : f.node = some n) (he : e.Within (x.entries s d map)) (hshown : e.node = some n)
    (hfirst : e.contributors.head? = some (.ofFiber f)) :
    Shows s d f below n (mapAt s map path) e := by
  rcases Forest.explains_of_within he with hexplains | ⟨-, hpseudo⟩
  · rcases hexplains with ⟨hnone, -⟩ | ⟨f', below', node', path', hf', hshows⟩
    · rw [hnone] at hshown
      cases hshown
    · rw [hshows.shown] at hshown
      cases hshown
      obtain ⟨rfl, rfl, rfl⟩ := h.eq_of_node hx hf' hf hshows.visual
      exact hshows
  · have hfalse := hpseudo _ (List.mem_of_mem_head? hfirst)
    rw [Contributor.ofFiber, Component.isPseudo_ofType] at hfalse
    cases hfalse

/-- How many entries the forests before a position have. -/
def offset : List Forest → Nat → Nat
  | [], _ | _ :: _, 0 => 0
  | x :: xs, i + 1 => x.count + offset xs i

@[simp] theorem offset_zero (xs : List Forest) : offset xs 0 = 0 := by cases xs <;> rfl

theorem offset_cons (x : Forest) (xs : List Forest) (i : Nat) :
    offset (x :: xs) (i + 1) = x.count + offset xs i := rfl

/-- An entry belongs to the forest at a position if and only if it comes behind the entries of those
before and not behind its own. -/
theorem mem_nodes_iff_offset {s : Store} {d : Document} {map : ExpressionMap} {xs : List Forest}
    (hxs : (Forest.join xs).nodes.Pairwise fun a b => a.index < b.index) {k : Nat} {e : Entry}
    (he : ((Forest.join xs).entries s d map)[k]? = some e) (hn : e.node = some n) (i : Nat) :
    n ∈ (xs.getD i .nil).nodes ↔ offset xs i ≤ k ∧ k < offset xs (i + 1) := by
  induction xs generalizing k i with
  | nil => cases he
  | cons x xs ih =>
    have hnodes : (Forest.join (x :: xs)).nodes = x.nodes ++ (Forest.join xs).nodes :=
      nodes_append x _
    rw [hnodes, List.pairwise_append] at hxs
    obtain ⟨-, hrest, hbetween⟩ := hxs
    rw [show Forest.join (x :: xs) = x.append (.join xs) from rfl, entries_append,
      List.getElem?_append, length_entries] at he
    have hitem : ∀ j, n ∈ (xs.getD j .nil).nodes → n ∈ (Forest.join xs).nodes := by
      clear ih he hrest hbetween hnodes
      induction xs with
      | nil =>
        intro j h
        cases h
      | cons y ys ih =>
        intro j h
        rw [show Forest.join (y :: ys) = y.append (.join ys) from rfl, nodes_append]
        cases j with
        | zero => exact List.mem_append_left _ h
        | succ j => exact List.mem_append_right _ (ih j h)
    rw [offset_cons]
    split at he
    · rename_i hk
      have hmem : n ∈ x.nodes := mem_nodes_of_mem_entries (List.mem_of_getElem? he) hn
      cases i with
      | zero =>
        rw [offset_zero, offset_zero]
        exact ⟨fun _ => ⟨Nat.zero_le _, hk⟩, fun _ => hmem⟩
      | succ i =>
        rw [offset_cons]
        constructor
        · intro h
          exact absurd (hbetween n hmem n (hitem i h)) (Nat.lt_irrefl _)
        · rintro ⟨h, -⟩
          omega
    · rename_i hk
      have hmem : n ∈ (Forest.join xs).nodes :=
        mem_nodes_of_mem_entries (List.mem_of_getElem? he) hn
      cases i with
      | zero =>
        rw [offset_zero, offset_zero]
        constructor
        · intro h
          exact absurd (hbetween n h n hmem) (Nat.lt_irrefl _)
        · rintro ⟨-, h⟩
          omega
      | succ i =>
        have := ih hrest he i
        rw [offset_cons]
        rw [show ((x :: xs).getD (i + 1) .nil) = xs.getD i .nil from rfl, this]
        omega

end Forest

theorem childrenProp_hostFiber (e : CreatedElement Value) (node : NodeId) (s : Store) :
    childrenProp (hostFiber e node s) = (Keyed.get? "children" e.props).getD .undefined := rfl

theorem Forest.Drawn.children_eq {parent : NodeId} {d d' : Document} {x : Forest}
    (h : x.Drawn parent d d') (hparent : parent.index < d.size) :
    d'.children parent = d.children parent ++ x.surface := by
  have hsome : d.get? parent = some d.nodes[parent.index] := Array.getElem?_eq_getElem hparent
  rw [Document.children, Document.children, h.children, hsome]
  rfl

/-- A host element with several children: they were mounted one after the other, and all that is on
top of them is among its children in the document. -/
theorem Hosted.items {depth : Nat} {f : Fiber} {below : Forest} {e : CreatedElement Value}
    {m m' : Mounting} {d : Document} {identity : Nat} {items : List Value}
    (h : Hosted depth f below e m m' d) (hchildren : childrenProp f = .array identity items) :
    f.node = some ⟨m.document.size⟩ ∧ d.children ⟨m.document.size⟩ = below.surface ∧
      ∃ n xs m₁ m₂ l, below = .join xs ∧
        ItemsPlanted (Plants depth n) ⟨m.document.size⟩ items m₁ xs m₂ l := by
  obtain ⟨n, l, tag, parent, -, hparent, hcontent⟩ := h.content
  have hfiber := h.fiber
  subst hfiber
  rw [childrenProp_hostFiber] at hchildren
  have hprop : Keyed.get? "children" e.props = some (.array identity items) := by
    cases hget : Keyed.get? "children" e.props with
    | none =>
      rw [hget] at hchildren
      cases hchildren
    | some v =>
      rw [hget] at hchildren
      exact congrArg some hchildren
  rw [hprop] at hcontent
  have hnew : m.document.size < (m.host e tag parent).document.size := by
    have := @Mounting.size_appendElement m parent tag (attributesOf e.props)
    exact Nat.lt_of_lt_of_eq (Nat.lt_succ_self _) this.symm
  refine ⟨rfl, ?_, ?_⟩
  · cases hcontent with
    | empty hidden => cases hidden
    | shown shown filled => cases shown
    | @other _ _ m₁ _ _ composed mounted =>
      have hdrawn := Plants.draws depth n _ _ _ _ _ _ mounted hnew
      have hnone : (m.host e tag parent).document.children ⟨m.document.size⟩ = [] :=
        Mounting.children_appendElement hparent tag (attributesOf e.props)
      have hsame := h.same ⟨m.document.size⟩ (Nat.le_refl _)
        (Nat.lt_of_lt_of_le hnew hdrawn.size)
      have hall := hdrawn.children_eq hnew
      rw [hnone, List.nil_append] at hall
      rw [Document.children, hsame]
      exact hall
  · cases hcontent with
    | empty hidden => cases hidden
    | shown shown filled => cases shown
    | other composed mounted =>
      cases n with
      | zero => exact mounted.elim
      | succ n =>
        cases mounted with
        | absent nothing => simp at nothing
        | text shown filled => cases shown
        | array mounted => exact ⟨n, _, _, _, _, rfl, mounted⟩

theorem Document.size_clearChildren (id : NodeId) (d : Document) :
    (d.clearChildren id).size = d.size := by
  unfold Document.clearChildren
  generalize d.children id = ids
  have hfold : ∀ d' : Document, d'.size = d.size →
      (ids.foldl (fun d child => d.modify child fun n => { n with parent := none }) d').size =
        d.size := by
    induction ids with
    | nil => exact fun _ h => h
    | cons id ids ih => exact fun d' h => ih _ (by rw [Document.size_modify, h])
  exact hfold _ (Document.size_modify _ _ _)

section

variable {depth : Nat} {container : NodeId} {v : Value} {s s' : Store} {d d' : Document}
  {x : Forest} {tree : FiberTree} {l : List Creation}

theorem Rendered.draws (h : Rendered depth container v s d x tree s' d' l)
    (hcontainer : container.index < d.size) : x.Drawn container (d.clearChildren container) d' := by
  obtain ⟨t, hplants, -⟩ := h.planted
  refine Plants.draws depth depth _ _ _ _ _ _ hplants ?_
  exact Nat.lt_of_lt_of_eq hcontainer (Document.size_clearChildren container d).symm

theorem Rendered.hosts (h : Rendered depth container v s d x tree s' d' l)
    (hcontainer : container.index < d.size) {f : Fiber} {below : Forest}
    (hf : Forest.Occurs f below x) (hkind : f.kind = .element) :
    ∃ e m₁ m₂, Hosted depth f below e m₁ m₂ d' := by
  obtain ⟨t, hplants, -⟩ := h.planted
  obtain ⟨e, m₁, m₂, -, hhosted⟩ := Plants.hosts depth depth _ _ _ _ _ _ hplants
    (Nat.lt_of_lt_of_eq hcontainer (Document.size_clearChildren container d).symm) _ _ hf hkind
  exact ⟨e, m₁, m₂, hhosted⟩

/-- The fibers of a rendered tree have their nodes in order. -/
theorem Rendered.nodes_sorted (h : Rendered depth container v s d x tree s' d' l)
    (hcontainer : container.index < d.size) :
    (Forest.cons (rootFiber v) x .nil).nodes.Pairwise fun a b => a.index < b.index := by
  have hsorted := (h.draws hcontainer).numbered.1
  rwa [Forest.nodes, Forest.nodes, List.append_nil]

/-- The entries of a rendering for the node of a visual fiber that start with it are its own. -/
theorem Rendered.shows (h : Rendered depth container v s d x tree s' d' l)
    (hcontainer : container.index < d.size) {entries : List Entry}
    (hentries : ofTree? s' d' tree = some entries) {f : Fiber} {below : Forest} {node : NodeId}
    (hf : Forest.Occurs f below x) (hnode : f.node = some node) :
    (∃ e : Entry, e.Within entries ∧ ∃ map, Shows s' d' f below node map e) ∧
      ∀ e : Entry, e.Within entries → e.node = some node → e.contributors.head? = some (.ofFiber f) →
        ∃ map, Shows s' d' f below node map e := by
  rw [h.ofTree?_eq] at hentries
  split at hentries
  · cases hentries
  cases hentries
  obtain ⟨path, hlies⟩ := hf.exists_lies
  have hlies : Forest.Lies f below _ (.cons (rootFiber v) x .nil) := .under hlies
  obtain ⟨e₀, he₀, hshows₀⟩ := Forest.exists_shows (s := s') (d := d') hlies hnode .empty
  refine ⟨⟨e₀, he₀, _, hshows₀⟩, ?_⟩
  intro e he hshown hfirst
  exact ⟨_, hlies.shows_of_within (h.nodes_sorted hcontainer) hnode he hshown hfirst⟩

/-- Which item a group reaches. In the structure of a rendering take the entry of a host element with
several children. Its entries below are those of the forests that the items grew into, in order, and
the entry at each position gets the group that reconciling gives the item at this position. The node
of that entry was mounted by this item if and only if the items before have no more entries than the
position says, and with the item itself there are more. -/
theorem group_reaches_item_iff (hcontainer : container.index < d.size)
    (h : renderInto depth container v s d = (.ok tree, s', d')) :
    (∃ x l, Rendered depth container v s d x tree s' d' l) ∧
      ∀ x l, Rendered depth container v s d x tree s' d' l →
        ∀ entries, ofTree? s' d' tree = some entries →
          ∀ f below, Forest.Occurs f below x → f.kind = .element →
            ∀ identity items, childrenProp f = .array identity items →
              ∃ node xs, f.node = some node ∧ below = .join xs ∧
                (∃ n m m' l, ItemsPlanted (Plants depth n) node items m xs m' l) ∧
                (∃ e : Entry, e.Within entries ∧ e.node = some node ∧
                  e.contributors.head? = some (.ofFiber f)) ∧
                ∀ e : Entry, e.Within entries → e.node = some node →
                  e.contributors.head? = some (.ofFiber f) →
                  ∃ map, (∀ i : Nat, e.children[i]? =
                      ((below.entries s' d' map)[i]?).map (Entry.extend
                        ((reconcile (.array identity items) (recordedFor s' f) map).getD i []))) ∧
                    ∀ (i : Nat) (c : Entry) (n : NodeId), e.children[i]? = some c →
                      c.node = some n →
                      (n ∈ (xs.getD i .nil).nodes ↔
                        Forest.offset xs i ≤ i ∧ i < Forest.offset xs (i + 1)) := by
  refine ⟨exists_rendered h, ?_⟩
  intro x l hrendered entries hentries f below hf hkind identity items hchildren
  obtain ⟨e, m, m', hhosted⟩ := hrendered.hosts hcontainer hf hkind
  obtain ⟨hnode, hsurface, n, xs, m₁, m₂, l', hbelow, hplanted⟩ := hhosted.items hchildren
  obtain ⟨⟨e₀, he₀, map₀, hshows₀⟩, hshows⟩ := hrendered.shows hcontainer hentries hf hnode
  refine ⟨_, xs, hnode, hbelow, ⟨n, m₁, m₂, l', hplanted⟩,
    ⟨e₀, he₀, hshows₀.shown, hshows₀.first⟩, ?_⟩
  intro e he hshown hfirst
  obtain ⟨map, hshows⟩ := hshows e he hshown hfirst
  have hlength : (d'.children ⟨m.document.size⟩).length ≤ (below.entries s' d' map).length := by
    rw [hsurface, Forest.length_entries]
    exact below.length_surface_le
  have hchild : ∀ i, e.children[i]? = ((below.entries s' d' map)[i]?).map (Entry.extend
      ((reconcile (.array identity items) (recordedFor s' f) map).getD i [])) := by
    intro i
    rw [hshows.children, hchildren]
    exact getElem?_attach hlength _ i
  refine ⟨map, hchild, ?_⟩
  intro i c n hc hn
  rw [hchild] at hc
  obtain ⟨c₀, hc₀, rfl⟩ := Option.map_eq_some_iff.mp hc
  rw [Entry.node_extend] at hn
  rw [hbelow] at hc₀
  have hsorted := (hrendered.draws hcontainer).numbered.1.sublist (Forest.nodes_sublist hf)
  rw [hbelow] at hsorted
  exact Forest.mem_nodes_iff_offset hsorted hc₀ hn i

end

/-! ## A list and a text -/

/-- A store with one stack. -/
def blankStore : Store := Store.empty.newStack.2

/-- A document with one container. -/
def blankDocument : Document := Document.empty.createContainer.2

/-- An element whose first child is a list of two elements and whose second is a text. -/
def pairSource : String := "export const App = <p>\x7b[<a/>, <b/>]\x7d\x7b\"x\"\x7d</p>;\n"

/-- The export of the module is rendered, and both children of the element were recorded. -/
def pairRuns : Bool :=
  match Module.parse pairSource with
  | .error _ => false
  | .ok m =>
    match load 9 [] ⟨0⟩ (annotate m pairSource "s.jsx" {}).module blankStore with
    | (.error _, _) => false
    | (.ok exports, s) =>
      match exports.get? "App" with
      | some (.element e) =>
        match e.type, Keyed.get? "children" e.props with
        | .host _, some (.array i [.array j [.element a, .element b], .text x]) =>
          match a.type, b.type, renderInto 9 ⟨0⟩ (.element e) s blankDocument with
          | .host _, .host _, (.ok _, s', _) =>
            match recordedFor s' (hostFiber e ⟨1⟩ s) with
            | [⟨.array j' _, _, true⟩, ⟨.text y, _, true⟩] =>
              decide (j' = j ∧ j ≠ i ∧ y = x ∧ x ≠ "")
            | _ => false
          | _, _, _ => false
        | _, _ => false
      | _ => false

set_option maxRecDepth 100000 in
theorem pairRuns_eq : pairRuns = true := by decide +kernel

/-- The rendering of the module, with what is known of its value and of what was recorded. -/
structure PairRun (m : Module) (exports : Fields) (e a b : CreatedElement Value) (s s' : Store)
    (d' : Document) (tree : FiberTree) (i j : Nat) (y : String) : Prop where
  parsed : Module.parse pairSource = .ok m
  loaded : load 9 [] ⟨0⟩ (annotate m pairSource "s.jsx" {}).module blankStore = (.ok exports, s)
  found : exports.get? "App" = some (.element e)
  rendered : renderInto 9 ⟨0⟩ (.element e) s blankDocument = (.ok tree, s', d')
  hosts : ∃ tag₁ tag₂ tag₃, e.type = .host tag₁ ∧ a.type = .host tag₂ ∧ b.type = .host tag₃
  children : Keyed.get? "children" e.props =
    some (.array i [.array j [.element a, .element b], .text y])
  recorded : ∃ items p q, recordedFor s' (hostFiber e ⟨1⟩ s) =
    [⟨.array j items, p, true⟩, ⟨.text y, q, true⟩]
  apart : j ≠ i
  filled : y ≠ ""

theorem exists_pairRun : ∃ m exports e a b s s' d' tree i j y,
    PairRun m exports e a b s s' d' tree i j y := by
  have hruns := pairRuns_eq
  unfold pairRuns at hruns
  split at hruns
  · cases hruns
  rename_i m hparse
  split at hruns
  · cases hruns
  rename_i exports s hload
  split at hruns
  case h_2 => cases hruns
  rename_i e hget
  split at hruns
  case h_2 => cases hruns
  rename_i tag i j a b text htype hchildren
  split at hruns
  case h_2 => cases hruns
  rename_i taga tagb tree s' d' ha hb hrender
  split at hruns
  case h_2 => cases hruns
  rename_i j' items' p y q hrecorded
  obtain ⟨rfl, hij, rfl, hx⟩ := of_decide_eq_true hruns
  exact ⟨m, exports, e, a, b, s, s', d', tree, i, j', y, hparse, hload, hget, hrender,
    ⟨_, _, _, htype, ha, hb⟩, hchildren, ⟨_, _, _, hrecorded⟩, hij, hx⟩

theorem PairRun.childrenProp_eq {m : Module} {exports : Fields} {e a b : CreatedElement Value}
    {s s' : Store} {d' : Document} {tree : FiberTree} {i j : Nat} {y : String}
    (h : PairRun m exports e a b s s' d' tree i j y) (node : NodeId) :
    childrenProp (hostFiber e node s) =
      .array i [.array j [.element a, .element b], .text y] := by
  rw [childrenProp_hostFiber, h.children]
  rfl

theorem reconcile_pair_ne_nil {map : ExpressionMap} {i j : Nat} {items items' : List Value}
    {x : String} {p q : Location} (hij : j ≠ i) (hx : x ≠ "") :
    (reconcile (.array i [.array j items, .text x])
      [⟨.array j items', p, true⟩, ⟨.text x, q, true⟩] map).getD 1 [] ≠ [] := by
  have hwhole : matchGroup map (.array i [.array j items, .text x]) ⟨.array j items', p, true⟩ = [] := by
    simp [matchGroup, Value.strictEq, hij]
  have hfirst : matchGroup map (.array j items) ⟨.array j items', p, true⟩ ≠ [] := by
    simp [matchGroup, Value.strictEq]
  have hsecond : matchGroup map (.text x) ⟨.text x, q, true⟩ ≠ [] := by
    simp [matchGroup, Value.strictEq]
  rw [reconcile_cons, hwhole]
  have hempty : (matchGroup map (.array j items) ⟨.array j items', p, true⟩).isEmpty = false := by
    simpa using hfirst
  simpa [Value.isTruthy, matchItems, hempty, hx] using hsecond

/-- A host element is planted as one fiber with a node. -/
theorem Plants.of_host {depth n : Nat} {e : CreatedElement Value} {tag : String} {parent : NodeId}
    {m m' : Mounting} {x : Forest} {l : List Creation}
    (h : Plants depth n (.element e) parent m x m' l) (htype : e.type = .host tag) :
    ∃ below, x = .cons (hostFiber e ⟨m.document.size⟩ m.store) below .nil := by
  cases n with
  | zero => exact h.elim
  | succ n =>
    cases h with
    | absent nothing => simp at nothing
    | text shown => cases shown
    | host type content => exact ⟨_, rfl⟩
    | component type => rw [htype] at type; cases type

/-- Two elements in a list, and a text behind it: three entries for two items. -/
theorem ItemsPlanted.of_pair {depth n j : Nat} {a b : CreatedElement Value} {tag tag' y : String}
    {parent : NodeId} {m m' : Mounting} {xs : List Forest} {l : List Creation}
    (h : ItemsPlanted (Plants depth n) parent [.array j [.element a, .element b], .text y] m xs m' l)
    (ha : a.type = .host tag) (hb : b.type = .host tag') :
    ∃ f g g' below below' node node' x, f.node = none ∧ g.node = some node ∧ g'.node = some node' ∧
      xs = [.cons f (.cons g below (.cons g' below' .nil)) .nil, x] := by
  cases h with
  | cons first behind =>
    cases behind with
    | cons text rest =>
      cases rest
      cases first with
      | other single => exact absurd rfl (single _ _)
      | nested mounted =>
        cases n with
        | zero => exact mounted.elim
        | succ n =>
          cases mounted with
          | absent nothing => simp at nothing
          | text shown => cases shown
          | array mounted =>
            cases mounted with
            | cons first behind =>
              cases behind with
              | cons second rest =>
                cases rest
                cases first with
                | other single first =>
                  cases second with
                  | other single second =>
                    obtain ⟨below, rfl⟩ := first.of_host ha
                    obtain ⟨below', rfl⟩ := second.of_host hb
                    exact ⟨_, _, _, below, below', _, _, _, rfl, rfl, rfl, rfl⟩

/-- In the rendering of the list and the text, every entry below the element is told apart. -/
theorem group_reaches_item_iff_pair : ∃ (v : Value) (s s' : Store) (d' : Document)
    (tree : FiberTree) (x : Forest) (l : List Creation) (entry : Entry) (xs : List Forest),
    (⟨0⟩ : NodeId).index < blankDocument.size ∧
      renderInto 9 ⟨0⟩ v s blankDocument = (.ok tree, s', d') ∧
      Rendered 9 ⟨0⟩ v s blankDocument x tree s' d' l ∧
      (∃ f, Forest.Occurs f (.join xs) x ∧ entry.contributors.head? = some (.ofFiber f)) ∧
      ∀ (i : Nat) (c : Entry) (n : NodeId), entry.children[i]? = some c → c.node = some n →
        (n ∈ (xs.getD i .nil).nodes ↔ Forest.offset xs i ≤ i ∧ i < Forest.offset xs (i + 1)) := by
  obtain ⟨m, exports, e, a, b, s, s', d', tree, i, j, y, hrun⟩ := exists_pairRun
  obtain ⟨tag, _, _, htype, -, -⟩ := hrun.hosts
  have hcontainer : (⟨0⟩ : NodeId).index < blankDocument.size := by decide
  obtain ⟨⟨x, l, hrendered⟩, hreach⟩ := group_reaches_item_iff hcontainer hrun.rendered
  obtain ⟨t, hplants, -⟩ := hrendered.planted
  obtain ⟨below, rfl⟩ := hplants.of_host htype
  have hf : Forest.Occurs (hostFiber e ⟨1⟩ s) below (.cons (hostFiber e ⟨1⟩ s) below .nil) := .here
  obtain ⟨node, xs, -, rfl, -, ⟨entry, hentry, hnode, hfirst⟩, hall⟩ :=
    hreach _ l hrendered _ hrendered.ofTree?_eq _ _ hf rfl _ _ (hrun.childrenProp_eq ⟨1⟩)
  obtain ⟨map, -, hiff⟩ := hall entry hentry hnode hfirst
  exact ⟨_, s, s', d', tree, _, l, entry, xs, hcontainer, hrun.rendered, hrendered,
    ⟨_, hf, hfirst⟩, hiff⟩

/-- The group of a text reaches the second element of the list before it. -/
theorem group_of_text_reaches_element : ∃ (m : Module) (exports : Fields) (e : CreatedElement Value)
    (s s' : Store) (d' : Document) (tree : FiberTree) (x : Forest) (l : List Creation)
    (entries : List Entry) (f : Fiber) (xs : List Forest) (identity : Nat) (items : List Value)
    (node : NodeId), Module.parse pairSource = .ok m ∧
      load 9 [] ⟨0⟩ (annotate m pairSource "s.jsx" {}).module blankStore = (.ok exports, s) ∧
      exports.get? "App" = some (.element e) ∧
      renderInto 9 ⟨0⟩ (.element e) s blankDocument = (.ok tree, s', d') ∧
      Rendered 9 ⟨0⟩ (.element e) s blankDocument x tree s' d' l ∧
      ofTree? s' d' tree = some entries ∧ Forest.Occurs f (.join xs) x ∧ f.kind = .element ∧
      childrenProp f = .array identity items ∧ f.node = some node ∧
      (∃ n m m' l, ItemsPlanted (Plants 9 n) node items m xs m' l) ∧
      ∃ (entry c : Entry) (map : ExpressionMap) (n : NodeId), entry.Within entries ∧
        entry.node = some node ∧ entry.contributors.head? = some (.ofFiber f) ∧
        (reconcile (.array identity items) (recordedFor s' f) map).getD 1 [] ≠ [] ∧
        entry.children[1]? = some
          (c.extend ((reconcile (.array identity items) (recordedFor s' f) map).getD 1 [])) ∧
        c.node = some n ∧ n ∉ (xs.getD 1 .nil).nodes := by
  obtain ⟨m, exports, e, a, b, s, s', d', tree, i, j, y, hrun⟩ := exists_pairRun
  obtain ⟨_, _, _, htype, ha, hb⟩ := hrun.hosts
  obtain ⟨items, p, q, hrecorded⟩ := hrun.recorded
  obtain ⟨x, l, hrendered⟩ := exists_rendered hrun.rendered
  obtain ⟨t, hplants, -⟩ := hrendered.planted
  obtain ⟨below, rfl⟩ := hplants.of_host htype
  have hf : Forest.Occurs (hostFiber e ⟨1⟩ s) below (.cons (hostFiber e ⟨1⟩ s) below .nil) := .here
  have hprop := hrun.childrenProp_eq ⟨1⟩
  have hcontainer : (⟨0⟩ : NodeId).index < blankDocument.size := by decide
  obtain ⟨e', m₁, m₂, hhosted⟩ := hrendered.hosts hcontainer hf rfl
  obtain ⟨hnode, hsurface, n, xs, m₃, m₄, l', rfl, hitems⟩ := hhosted.items hprop
  rw [← Option.some.inj hnode] at hsurface hitems
  obtain ⟨f, g, g', y₁, y₂, n₁, n₂, z, hnone, hn₁, hn₂, rfl⟩ := hitems.of_pair ha hb
  have hentries : ofTree? s' d' tree = some _ := hrendered.ofTree?_eq
  obtain ⟨⟨entry, hentry, map, hshows⟩, -⟩ := hrendered.shows hcontainer hentries hf rfl
  obtain ⟨c, hc, hchild⟩ : ∃ c : Entry, c.node = some n₂ ∧ (Forest.entries s' d'
      (.join [.cons f (.cons g y₁ (.cons g' y₂ .nil)) .nil, z]) map)[1]? = some c := by
    refine ⟨visualEntry s' d' g' n₂ (y₂.entries s' d' (map.insertAll (recordedFor s' f)))
      (map.insertAll (recordedFor s' f)), rfl, ?_⟩
    simp [Forest.join, Forest.append, Forest.entries, entriesOf, hnone, hn₁, hn₂, Forest.isNil,
      contribute]
  have hlength : (d'.children ⟨1⟩).length ≤ (Forest.entries s' d'
      (.join [.cons f (.cons g y₁ (.cons g' y₂ .nil)) .nil, z]) map).length := by
    rw [hsurface, Forest.length_entries]
    exact Forest.length_surface_le _
  have hsorted := (hrendered.draws hcontainer).numbered.1.sublist (Forest.nodes_sublist hf)
  refine ⟨m, exports, e, s, s', d', tree, _, l, _, _, _, i, _, ⟨1⟩, hrun.parsed, hrun.loaded, hrun.found,
    hrun.rendered, hrendered, hentries, hf, rfl, hprop, rfl, ⟨n, m₃, m₄, l', hitems⟩, entry,
    c, map, n₂, hentry, hshows.shown, hshows.first, ?_, ?_, hc, ?_⟩
  · rw [hrecorded]
    exact reconcile_pair_ne_nil hrun.apart hrun.filled
  · rw [hshows.children, getElem?_attach, hprop, hchild]
    · rfl
    · exact hlength
  · intro hmem
    have hbounds := (Forest.mem_nodes_iff_offset hsorted hchild hc 1).mp hmem
    simp [Forest.offset, Forest.count, hnone, hn₁, hn₂] at hbounds

end Render

end MarkupTrace
