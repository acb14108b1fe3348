import Mathlib.Data.List.Chain
import MarkupTrace.Proofs.MirroredStructure

/-!
# What the entries gather

In a structure every fiber is named once, except for a virtual one with nothing below it, which leaves
an entry without a node. An entry names a visual fiber and then virtual fibers above it, each the
parent of the one before; pseudo components stand behind all these.
-/

namespace MarkupTrace

open Render Structure

namespace Structure

/-! ## Entries at any depth -/

mutual

/-- An entry and those below it from front to back. -/
def Entry.all : Entry → List Entry
  | .mk node contributors children => .mk node contributors children :: allEntries children

def allEntries : List Entry → List Entry
  | [] => []
  | e :: es => e.all ++ allEntries es

end

theorem Entry.all_eq (e : Entry) : e.all = e :: allEntries e.children := by
  cases e
  rfl

theorem allEntries_cons (e : Entry) (es : List Entry) :
    allEntries (e :: es) = e :: (allEntries e.children ++ allEntries es) := by
  rw [allEntries, Entry.all_eq, List.cons_append]

theorem allEntries_append (es es' : List Entry) :
    allEntries (es ++ es') = allEntries es ++ allEntries es' := by
  induction es with
  | nil => rfl
  | cons e es ih => rw [List.cons_append, allEntries, allEntries, ih, List.append_assoc]

mutual

theorem Entry.within_of_mem_all {e : Entry} : ∀ c : Entry, e ∈ c.all → e.Within [c]
  | .mk node contributors children, h => by
    rw [Entry.all_eq] at h
    rcases List.mem_cons.mp h with rfl | h
    · exact .here List.mem_cons_self
    · exact .under List.mem_cons_self (within_of_mem_allEntries children h)

theorem within_of_mem_allEntries {e : Entry} : ∀ es : List Entry, e ∈ allEntries es → e.Within es
  | [], h => by cases h
  | c :: es, h => by
    rcases List.mem_append.mp h with h | h
    · exact (Entry.within_of_mem_all c h).mono (by simp)
    · exact (within_of_mem_allEntries es h).mono (List.subset_cons_self c es)

end

/-- The contributors of an entry without the pseudo components. -/
def Entry.named (e : Entry) : List Contributor :=
  e.contributors.filter fun c => !c.component.isPseudo

theorem filter_pseudo {added : List Contributor} (h : ∀ c ∈ added, c.component.isPseudo = true) :
    added.filter (fun c => !c.component.isPseudo) = [] := by
  rw [List.filter_eq_nil_iff]
  intro c hc
  simp [h c hc]

theorem Entry.named_extend_pseudo {added : List Contributor}
    (h : ∀ c ∈ added, c.component.isPseudo = true) (e : Entry) : (e.extend added).named = e.named := by
  rw [named, contributors_extend, List.filter_append, filter_pseudo h, List.append_nil, named]

/-- Attaching groups of pseudo components adds the entries of nodes and names nothing else. -/
theorem map_named_attach (groups : List (List Contributor)) (es : List Entry) (nodes : List NodeId)
    (h : ∀ g ∈ groups, ∀ c ∈ g, c.component.isPseudo = true) :
    (allEntries (attach es nodes groups)).map Entry.named = (allEntries es).map Entry.named ++
      List.replicate (min nodes.length groups.length - es.length) [] := by
  induction groups generalizing es nodes with
  | nil => simp
  | cons g groups ih =>
    obtain ⟨hg, hgroups⟩ := List.forall_mem_cons.mp h
    cases es with
    | nil =>
      cases nodes with
      | nil => simp [attach]
      | cons n nodes =>
        have hleaf : (Entry.leaf n g).named = [] := filter_pseudo hg
        have hcount : min (n :: nodes).length (g :: groups).length - 0 =
            min nodes.length groups.length - 0 + 1 := by
          rw [List.length_cons, List.length_cons]
          omega
        rw [attach, allEntries_cons, List.map_cons, hleaf, List.map_append, ih _ _ hgroups,
          List.length_nil, hcount, List.replicate_succ]
        rfl
    | cons e es =>
      have hcount : min nodes.length (g :: groups).length - (e :: es).length =
          min nodes.tail.length groups.length - es.length := by
        rw [List.length_cons, List.length_cons, List.length_tail]
        omega
      rw [attach, allEntries_cons, allEntries_cons, hcount, Entry.children_extend, List.map_cons,
        List.map_cons, Entry.named_extend_pseudo hg, List.map_append, List.map_append,
        ih _ _ hgroups,
        List.cons_append, List.append_assoc]

/-- A contributor is added once, and no entry if there is one already. -/
theorem named_contribute (c : Contributor) (hc : c.component.isPseudo = false) {es : List Entry}
    (hes : es ≠ []) :
    (allEntries (contribute c es)).length = (allEntries es).length ∧
      ((allEntries (contribute c es)).flatMap Entry.named).Perm
        (c :: (allEntries es).flatMap Entry.named) := by
  cases es with
  | nil => exact absurd rfl hes
  | cons e es =>
    have hnamed : (e.extend [c]).named = e.named ++ [c] := by
      rw [Entry.named, Entry.contributors_extend, List.filter_append, Entry.named]
      simp [hc]
    rw [contribute, allEntries_cons, allEntries_cons, Entry.children_extend, List.flatMap_cons,
      List.flatMap_cons, hnamed, List.append_assoc]
    exact ⟨rfl, List.perm_middle⟩

/-! ## Lines of fibers -/

/-- The parent of a fiber. -/
def parentOf? (t : FiberTree) (f : Fiber) : Option Fiber := f.parent.bind fun id => t.get? id

/-- A fiber that an entry is made for, a visual one or a virtual one with nothing below it, and
virtual fibers above it: each fiber is the parent of the one before. -/
structure Line (t : FiberTree) (f : Fiber) (above : List Fiber) : Prop where
  fiber : ∃ id, t.get? id = some f
  bare : f.node = none → f.child = none
  virtual : ∀ g ∈ above, g.node = none
  rising : (f :: above).IsChain fun g h => parentOf? t g = some h

/-- Who stands in the entry of a line, the innermost first. A virtual fiber with nothing below it is
not named. -/
def lineContributors (f : Fiber) (above : List Fiber) : List Contributor :=
  (if f.isVisual then [.ofFiber f] else []) ++ above.map .ofFiber

/-- The line of a fiber alone. -/
theorem Line.single {t : FiberTree} {f : Fiber} {id : FiberId} (hf : t.get? id = some f)
    (hbare : f.node = none → f.child = none) : Line t f [] :=
  ⟨⟨id, hf⟩, hbare, fun _ hg => absurd hg List.not_mem_nil, .singleton f⟩

/-- A line that ends below a virtual fiber is continued by it. -/
theorem Line.continue {t : FiberTree} {f g : Fiber} {above : List Fiber} {id : FiberId}
    (h : Line t f above) (hlast : ∀ k ∈ (f :: above).getLast?, k.parent = some id)
    (hg : t.get? id = some g) (hnode : g.node = none) : Line t f (above ++ [g]) := by
  refine ⟨h.fiber, h.bare, ?_, ?_⟩
  · intro k hk
    rcases List.mem_append.mp hk with hk | hk
    · exact h.virtual k hk
    · rw [List.mem_singleton.mp hk, hnode]
  · rw [← List.cons_append, List.isChain_append]
    refine ⟨h.rising, .singleton g, ?_⟩
    intro k hk g' hg'
    obtain rfl : g = g' := Option.some.inj hg'
    rw [parentOf?, hlast k hk, Option.bind_some, hg]

theorem lineContributors_append (f g : Fiber) (above : List Fiber) :
    lineContributors f (above ++ [g]) = lineContributors f above ++ [.ofFiber g] := by
  simp [lineContributors]

/-- An entry gathers a line of fibers; pseudo components stand behind it. -/
structure Entry.Gathers (t : FiberTree) (e : Entry) (f : Fiber) (above : List Fiber) : Prop where
  line : Line t f above
  node : e.node = f.node
  contributors : ∃ pseudo : List Contributor, (∀ c ∈ pseudo, c.component.isPseudo = true) ∧
    e.contributors = lineContributors f above ++ pseudo

theorem Entry.Gathers.extend {t : FiberTree} {e : Entry} {f : Fiber} {above : List Fiber}
    (h : e.Gathers t f above) {added : List Contributor}
    (hadded : ∀ c ∈ added, c.component.isPseudo = true) : (e.extend added).Gathers t f above := by
  obtain ⟨pseudo, hpseudo, hcontributors⟩ := h.contributors
  refine ⟨h.line, ?_, pseudo ++ added, ?_, ?_⟩
  · rw [node_extend, h.node]
  · intro c hc
    exact (List.mem_append.mp hc).elim (hpseudo c) (hadded c)
  · rw [contributors_extend, hcontributors, List.append_assoc]

end Structure

namespace Render

open Structure

/-- A text was put directly into the element of the fiber, and it is matched by what was recorded. -/
def Fiber.tellsText (s : Store) (d : Document) (f : Fiber) : Bool :=
  f.child.isNone && f.isMatched s && f.node.any fun n => !(d.children n).isEmpty

namespace Forest

variable {s : Store} {d : Document} {t : FiberTree} {above : Option FiberId} {n : Nat} {x : Forest}
  {map : ExpressionMap} {e : Entry}

/-! ## The fibers of a tree -/

/-- A fiber as it stands in a tree. -/
def linked (above : Option FiberId) (n : Nat) (f : Fiber) (below behind : Forest) : Fiber :=
  { f with
    parent := above
    child := (below.roots (n + 1)).head?
    sibling := if above.isSome then (behind.roots (n + below.size + 1)).head? else none }

section

variable (above : Option FiberId) (n : Nat) (f : Fiber) (below behind : Forest)

@[simp] theorem linked_node : (linked above n f below behind).node = f.node := rfl

@[simp] theorem linked_parent : (linked above n f below behind).parent = above := rfl

@[simp] theorem isVisual_linked : (linked above n f below behind).isVisual = f.node.isSome := rfl

@[simp] theorem isNone_linked_child : (linked above n f below behind).child.isNone = below.isNil := by
  cases below <;> rfl

@[simp] theorem isSome_linked_child :
    (linked above n f below behind).child.isSome = !below.isNil := by
  cases below <;> rfl

@[simp] theorem ofFiber_linked :
    Contributor.ofFiber (linked above n f below behind) = .ofFiber f := rfl

@[simp] theorem tellsText_linked : (linked above n f below behind).tellsText s d =
    (below.isNil && f.isMatched s && f.node.any fun n => !(d.children n).isEmpty) := by
  rw [Fiber.tellsText, isNone_linked_child]
  rfl

end

/-- The fibers of a forest in order, as they stand in a tree. -/
def stored (above : Option FiberId) (n : Nat) : Forest → List Fiber
  | nil => []
  | cons f below behind => linked above n f below behind ::
      (below.stored (some ⟨n⟩) (n + 1) ++ behind.stored above (n + below.size + 1))

theorem Stands.drop_fibers (h : x.Stands t above n) :
    t.fibers.toList.drop n = x.stored above n ++ t.fibers.toList.drop (n + x.size) := by
  induction x generalizing above n with
  | nil => rfl
  | cons f below behind ihbelow ihbehind =>
    obtain ⟨hf, hbelow, hbehind⟩ := h
    have hf : t.fibers.toList[n]? = some (linked above n f below behind) :=
      Array.getElem?_toList.trans hf
    obtain ⟨hlt, hget⟩ := List.getElem?_eq_some_iff.mp hf
    rw [List.drop_eq_getElem_cons hlt, hget, ihbelow hbelow,
      show n + 1 + below.size = n + below.size + 1 by omega, ihbehind hbehind, stored, size,
      show n + below.size + 1 + behind.size = n + (below.size + behind.size + 1) by omega,
      List.cons_append, List.append_assoc]

theorem entriesOf_ne_nil (s : Store) (d : Document) (f : Fiber) (isBare : Bool)
    (below : ExpressionMap → List Entry) (map : ExpressionMap) :
    entriesOf s d f isBare below map ≠ [] := by
  rw [entriesOf]
  cases f.node with
  | some node => exact List.cons_ne_nil _ _
  | none =>
    dsimp only
    split
    · exact List.cons_ne_nil _ _
    · cases below (map.insertAll (recordedFor s f)) <;> exact List.cons_ne_nil _ _

theorem entries_ne_nil (s : Store) (d : Document) (map : ExpressionMap) (hx : x.isNil = false) :
    x.entries s d map ≠ [] := by
  cases x with
  | nil => cases hx
  | cons f below behind => exact List.append_ne_nil_of_left_ne_nil (entriesOf_ne_nil _ _ _ _ _ _) _

/-- Every fiber is named once, but for virtual ones with nothing below them. -/
theorem named_entries (s : Store) (d : Document) (above : Option FiberId) (n : Nat) (x : Forest)
    (map : ExpressionMap) :
    ((allEntries (x.entries s d map)).flatMap Entry.named).Perm
      (((x.stored above n).filter fun f => f.isVisual || f.child.isSome).map .ofFiber) := by
  induction x generalizing above n map with
  | nil => exact .nil
  | cons f below behind ihbelow ihbehind =>
    have hown : ∀ f : Fiber, (Contributor.ofFiber f).component.isPseudo = false :=
      fun f => Component.isPseudo_ofType f.type
    rw [entries, allEntries_append, List.flatMap_append, stored, List.filter_cons, List.filter_append]
    rw [isVisual_linked, isSome_linked_child]
    have hbehind := ihbehind above (n + below.size + 1) map
    cases hf : f.node with
    | some node =>
      have hattach := map_named_attach (reconcile (childrenProp f) (recordedFor s f) map)
        (below.entries s d map) (d.children node) fun g hg c hc => isPseudo_of_mem_reconcile hg hc
      have hvisual : (allEntries (entriesOf s d f below.isNil (below.entries s d) map)).flatMap
          Entry.named = .ofFiber f :: (allEntries (below.entries s d map)).flatMap Entry.named := by
        rw [entriesOf, hf]
        dsimp only
        rw [visualEntry, allEntries_cons, List.flatMap_cons, List.flatMap_append]
        rw [show (Entry.mk (some node) [.ofFiber f] _).named = [.ofFiber f] by
          simp [Entry.named, Entry.contributors, hown]]
        rw [Entry.children, List.flatMap_def (l := allEntries (attach _ _ _)), hattach]
        simp [allEntries, List.flatMap_def]
      rw [hvisual, if_pos (by rfl), List.map_cons, List.map_append, List.cons_append]
      exact ((ihbelow (some ⟨n⟩) (n + 1) map).append hbehind).cons _
    | none =>
      rw [entriesOf, hf]
      dsimp only
      cases hbelow : below.isNil with
      | true =>
        cases below with
        | cons _ _ _ => cases hbelow
        | nil => exact hbehind
      | false =>
        have hgathered := (named_contribute (.ofFiber f) (hown f)
          (entries_ne_nil s d (map.insertAll (recordedFor s f)) hbelow)).2
        rw [if_neg Bool.false_ne_true, if_pos (by rfl), List.map_cons, List.map_append]
        have hboth := (hgathered.trans ((ihbelow (some ⟨n⟩) (n + 1) _).cons _)).append hbehind
        rwa [List.cons_append] at hboth

/-- The children of a node are no more than the entries below its fiber, or there is a single text. -/
def Covers (d : Document) (f : Fiber) (below : Forest) (node : NodeId) : Prop :=
  (d.children node).length ≤ below.count ∨
    below = .nil ∧ ∃ text, d.children node = [text] ∧ DirectText d f text

/-- The children of all nodes are covered. -/
def Covered (d : Document) (x : Forest) : Prop :=
  ∀ f below node, Occurs f below x → f.node = some node → Covers d f below node

theorem Mirrored.covered {p : NodeId} {least bound : Nat} (h : Mirrored d p least bound x) :
    Covered d x := by
  intro f below node hf hnode
  induction h with
  | nil => cases hf
  | virtual bare inside rest ihinside ihrest =>
    cases hf with
    | here => rw [bare] at hnode; cases hnode
    | under hf => exact ihinside hf
    | after hf => exact ihrest hf
  | text node' unrecorded order has rest ihrest =>
    cases hf with
    | here =>
      obtain rfl := Option.some.inj (node'.symm.trans hnode)
      exact .inl (Nat.le_of_eq (congrArg List.length has.children_eq))
    | under hf => cases hf
    | after hf => exact ihrest hf
  | host node' order has inside rest ihinside ihrest =>
    cases hf with
    | here =>
      obtain rfl := Option.some.inj (node'.symm.trans hnode)
      refine .inl ?_
      rw [has.children_eq]
      exact below.length_surface_le
    | under hf => exact ihinside hf
    | after hf => exact ihrest hf
  | direct node' element shown order has text rest ihrest =>
    cases hf with
    | here =>
      obtain rfl := Option.some.inj (node'.symm.trans hnode)
      refine .inr ⟨rfl, _, has.children_eq, element, shown, ⟨_, node', has.children_eq⟩, ?_⟩
      exact text.kind_eq
    | under hf => cases hf
    | after hf => exact ihrest hf

/-- The number of entries that attaching groups adds to those of a visual fiber. -/
theorem leaves_eq {f : Fiber} {below : Forest} {node : NodeId} (h : Covers d f below node)
    (s : Store) (map : ExpressionMap) :
    min (d.children node).length
        (reconcile (childrenProp f) (recordedFor s f) map).length - below.count =
      if below.isNil && f.isMatched s && !(d.children node).isEmpty then 1 else 0 := by
  rcases h with hle | ⟨rfl, text, hchildren, hdirect⟩
  · have hnone : (below.isNil && f.isMatched s && !(d.children node).isEmpty) = false := by
      cases below with
      | cons _ _ _ => rfl
      | nil =>
        rw [count, Nat.le_zero, List.length_eq_zero_iff] at hle
        simp [hle]
    rw [hnone, if_neg Bool.false_ne_true]
    omega
  · rw [hchildren, Fiber.isMatched]
    rcases reconcile_of_shown hdirect.shown (recordedFor s f) map .empty with
      ⟨hmap, hempty⟩ | ⟨g, g', hmap, hempty⟩
    · rw [hmap, hempty]
      rfl
    · rw [hmap, hempty]
      rfl

/-- An entry stands for every visual fiber, for every virtual one with nothing below it, and for
every text that was put directly into an element and is matched. -/
theorem length_allEntries (hx : Covered d x) (s : Store) (above : Option FiberId) (n : Nat)
    (map : ExpressionMap) :
    (allEntries (x.entries s d map)).length = (x.stored above n).countP Fiber.isVisual +
      (x.stored above n).countP (fun f => !f.isVisual && f.child.isNone) +
      (x.stored above n).countP (Fiber.tellsText s d) := by
  induction x generalizing above n map with
  | nil => rfl
  | cons f below behind ihbelow ihbehind =>
    have hbelow := fun map => ihbelow (fun f y node h => hx f y node (.under h)) (some ⟨n⟩) (n + 1) map
    have hbehind := ihbehind (fun f y node h => hx f y node (.after h)) above (n + below.size + 1) map
    rw [entries, allEntries_append, List.length_append, hbehind, stored]
    simp only [List.countP_cons, List.countP_append]
    rw [isVisual_linked, isNone_linked_child, tellsText_linked]
    rw [entriesOf]
    cases hf : f.node with
    | some node =>
      have hattach := congrArg List.length (map_named_attach
        (reconcile (childrenProp f) (recordedFor s f) map) (below.entries s d map)
        (d.children node) fun g hg c hc => isPseudo_of_mem_reconcile hg hc)
      rw [List.length_append, List.length_map, List.length_map, List.length_replicate,
        length_entries, leaves_eq (hx f below node .here hf) s map, hbelow] at hattach
      dsimp only
      rw [visualEntry, allEntries_cons, List.length_cons, List.length_append, Entry.children, hattach,
        allEntries, List.length_nil, Option.any_some, Option.isSome_some, if_pos rfl, Bool.not_true,
        Bool.false_and, if_neg Bool.false_ne_true]
      omega
    | none =>
      cases hnil : below.isNil with
      | true =>
        cases below with
        | cons _ _ _ => cases hnil
        | nil =>
          simp [stored, allEntries, Entry.placeholder, Entry.all]
          omega
      | false =>
        have hgathered := (named_contribute (.ofFiber f) (Component.isPseudo_ofType f.type)
          (entries_ne_nil s d (map.insertAll (recordedFor s f)) hnil)).1
        dsimp only
        rw [if_neg Bool.false_ne_true, hgathered, hbelow]
        simp
        omega

/-! ## Lines -/

/-- An entry gathers a line and nothing else. -/
def IsLined (t : FiberTree) (e : Entry) (f : Fiber) (line : List Fiber) : Prop :=
  Line t f line ∧ e.node = f.node ∧ e.contributors = lineContributors f line

theorem IsLined.contribute {f g : Fiber} {line : List Fiber} {id : FiberId}
    (h : IsLined t e f line) (hlast : ∀ k ∈ (f :: line).getLast?, k.parent = some id)
    (hg : t.get? id = some g) (hnode : g.node = none) :
    IsLined t (e.extend [.ofFiber g]) f (line ++ [g]) := by
  obtain ⟨hline, hsame, hcontributors⟩ := h
  refine ⟨hline.continue hlast hg hnode, ?_, ?_⟩
  · rw [Entry.node_extend, hsame]
  · rw [Entry.contributors_extend, hcontributors, lineContributors_append]

/-- The line of a fiber that an entry is made for. -/
theorem isLined_fiber {f : Fiber} {id : FiberId} (hf : t.get? id = some f)
    (hbare : f.node = none → f.child = none) (es : List Entry) :
    IsLined t (.mk f.node (if f.isVisual then [.ofFiber f] else []) es) f [] :=
  ⟨.single hf hbare, rfl, (List.append_nil _).symm⟩

/-- Every entry gathers a line, the first one a line up to a fiber with this parent. -/
def AllLined (t : FiberTree) (above : Option FiberId) (es : List Entry) : Prop :=
  (∀ e ∈ es, ∃ f line, IsLined t e f line) ∧
    ∀ e ∈ es.head?, ∃ f line, IsLined t e f line ∧ ∀ k ∈ (f :: line).getLast?, k.parent = above

theorem AllLined.fiber {f : Fiber} {id : FiberId} (hf : t.get? id = some f)
    (hbare : f.node = none → f.child = none) (habove : f.parent = above) (es : List Entry) :
    AllLined t above [.mk f.node (if f.isVisual then [.ofFiber f] else []) es] := by
  have hlined := isLined_fiber hf hbare es
  refine ⟨?_, ?_⟩
  · intro e he
    rw [List.mem_singleton.mp he]
    exact ⟨f, [], hlined⟩
  · intro e he
    cases he
    refine ⟨f, [], hlined, ?_⟩
    intro k hk
    cases hk
    exact habove

theorem AllLined.contribute {g : Fiber} {id : FiberId} {es : List Entry}
    (h : AllLined t (some id) es) (hes : es ≠ []) (hg : t.get? id = some g) (hnode : g.node = none)
    (habove : g.parent = above) : AllLined t above (contribute (.ofFiber g) es) := by
  obtain ⟨e, es, rfl⟩ := List.exists_cons_of_ne_nil hes
  obtain ⟨f, line, hlined, hlast⟩ := h.2 e rfl
  have hhead := hlined.contribute hlast hg hnode
  refine ⟨?_, ?_⟩
  · intro e' he'
    rcases List.mem_cons.mp he' with rfl | he'
    · exact ⟨f, _, hhead⟩
    · exact h.1 e' (List.mem_cons_of_mem _ he')
  · intro e' he'
    cases he'
    refine ⟨f, _, hhead, ?_⟩
    intro k hk
    rw [← List.cons_append, List.getLast?_concat] at hk
    cases hk
    exact habove

theorem Stands.allLined (h : x.Stands t above n) (s : Store) (d : Document) (map : ExpressionMap) :
    AllLined t above (x.entries s d map) := by
  induction x generalizing above n map with
  | nil => exact ⟨fun _ he => absurd he List.not_mem_nil, fun _ he => nomatch he⟩
  | cons f below behind ihbelow ihbehind =>
    obtain ⟨hf, hbelow, hbehind⟩ := h
    have hf : t.get? ⟨n⟩ = some (linked above n f below behind) := hf
    have hown : AllLined t above (entriesOf s d f below.isNil (below.entries s d) map) := by
      rw [entriesOf]
      cases hnode : f.node with
      | some node =>
        have hlined := AllLined.fiber hf (by simp [hnode]) (linked_parent above n f below behind)
          (attach (below.entries s d map) (d.children node)
            (reconcile (childrenProp f) (recordedFor s f) map))
        rwa [linked_node, isVisual_linked, hnode, Option.isSome_some, if_pos rfl,
          ofFiber_linked] at hlined
      | none =>
        cases hnil : below.isNil with
        | true =>
          have hbare : (linked above n f below behind).child = none := by
            rw [← Option.isNone_iff_eq_none, isNone_linked_child, hnil]
          have hlined :=
            AllLined.fiber hf (fun _ => hbare) (linked_parent above n f below behind) []
          rwa [linked_node, isVisual_linked, hnode, Option.isSome_none,
            if_neg Bool.false_ne_true] at hlined
        | false =>
          rw [← ofFiber_linked above n f below behind]
          exact (ihbelow hbelow _).contribute (entries_ne_nil s d _ hnil) hf hnode rfl
    obtain ⟨e, es, hes⟩ := List.exists_cons_of_ne_nil
      (entriesOf_ne_nil s d f below.isNil (below.entries s d) map)
    refine ⟨?_, ?_⟩
    · intro e he
      rcases List.mem_append.mp he with he | he
      · exact hown.1 e he
      · exact (ihbehind hbehind map).1 e he
    · rw [entries, hes, List.cons_append]
      rw [hes] at hown
      exact hown.2

theorem exists_occurs_of_mem_stored {g : Fiber} (h : g ∈ x.stored above n) :
    ∃ above' n' f below behind, Occurs f below x ∧ g = linked above' n' f below behind := by
  induction x generalizing above n with
  | nil => cases h
  | cons f below behind ihbelow ihbehind =>
    rcases List.mem_cons.mp h with rfl | h
    · exact ⟨above, n, f, below, behind, .here, rfl⟩
    rcases List.mem_append.mp h with h | h
    · obtain ⟨above', n', f', below', behind', hf, hg⟩ := ihbelow h
      exact ⟨above', n', f', below', behind', .under hf, hg⟩
    · obtain ⟨above', n', f', below', behind', hf, hg⟩ := ihbehind h
      exact ⟨above', n', f', below', behind', .after hf, hg⟩

/-- Where a text is told, it was put directly into an element. -/
theorem directText_of_tellsText {g : Fiber} (hx : Covered d x) (hg : g ∈ x.stored above n)
    (htells : g.tellsText s d = true) : ∃ text, DirectText d g text := by
  obtain ⟨above', n', f, below, behind, hf, rfl⟩ := exists_occurs_of_mem_stored hg
  rw [tellsText_linked, Bool.and_eq_true, Bool.and_eq_true] at htells
  obtain ⟨⟨hbelow, -⟩, hany⟩ := htells
  cases hnode : f.node with
  | none =>
    rw [hnode] at hany
    cases hany
  | some node =>
  rw [hnode, Option.any_some] at hany
  rcases hx f below node hf hnode with hle | ⟨-, text, -, hdirect⟩
  · cases below with
    | cons _ _ _ => cases hbelow
    | nil =>
      rw [count, Nat.le_zero, List.length_eq_zero_iff] at hle
      simp [hle] at hany
  · exact ⟨text, hdirect.element, hdirect.shown, hdirect.only, hdirect.text⟩

/-- The entry of a text that was put directly into the element of a fiber. -/
structure IsTextOf (s : Store) (d : Document) (e : Entry) (f : Fiber) (text : NodeId) : Prop where
  told : f.tellsText s d = true
  direct : DirectText d f text
  node : e.node = some text
  children : e.children = []
  contributors : ∀ c ∈ e.contributors, c.component.isPseudo = true

/-- Every entry at any depth gathers a line or is that of a directly set text. -/
theorem Stands.gathers (h : x.Stands t above n) (hx : Covered d x)
    (he : e.Within (x.entries s d map)) :
    (∃ f line, e.Gathers t f line) ∨
      ∃ id f text, t.get? id = some f ∧ IsTextOf s d e f text := by
  have hlined : ∀ {e : Entry} {f : Fiber} {line : List Fiber}, IsLined t e f line →
      e.Gathers t f line := by
    rintro e f line ⟨hline, hnode, hcontributors⟩
    refine ⟨hline, hnode, [], fun _ hc => absurd hc List.not_mem_nil, ?_⟩
    rw [hcontributors, List.append_nil]
  rcases he.mem_or_exists with he | ⟨e', he', hmem⟩
  · obtain ⟨f, line, hline⟩ := (h.allLined s d map).1 e he
    exact .inl ⟨f, line, hlined hline⟩
  rcases explains_of_within he' with (⟨-, hnil⟩ | ⟨f, below, node, path, hf, hshows⟩) | ⟨hnil, -⟩
  · rw [hnil] at hmem
    cases hmem
  · obtain ⟨above', n', behind, hstands⟩ := h.occurs hf.occurs
    rw [hshows.children] at hmem
    rcases mem_attach hmem with ⟨e₀, he₀, added, hadded, rfl⟩ | ⟨hlt, text, htext, g, hg, rfl⟩
    · obtain ⟨f₀, line, hline⟩ := (hstands.2.1.allLined s d _).1 e₀ he₀
      refine .inl ⟨f₀, line, (hlined hline).extend ?_⟩
      intro c hc
      rcases hadded with rfl | hadded
      · cases hc
      · exact isPseudo_of_mem_reconcile hadded hc
    · rw [length_entries] at hlt
      rcases hx f below node hf.occurs hshows.visual with hle | ⟨rfl, text', hchildren, hdirect⟩
      · exact absurd hlt (Nat.not_lt_of_le hle)
      · rw [hchildren] at htext
        obtain rfl := List.mem_singleton.mp htext
        refine .inr ⟨⟨n'⟩, linked above' n' f .nil behind, text, hstands.1, ?_, ?_, rfl, rfl,
          fun c hc => isPseudo_of_mem_reconcile hg hc⟩
        · have hmatched : f.isMatched s = true := by
            rw [Fiber.isMatched]
            rcases reconcile_of_shown hdirect.shown (recordedFor s f) (mapAt s map path) .empty with
              ⟨hnone, -⟩ | ⟨_, _, -, hsome⟩
            · rw [hnone] at hg
              cases hg
            · rw [hsome]
              rfl
          rw [tellsText_linked, hmatched, hshows.visual, Option.any_some, hchildren]
          rfl
        · exact ⟨hdirect.element, hdirect.shown, hdirect.only, hdirect.text⟩
  · rw [hnil] at hmem
    cases hmem

end Forest

variable {depth : Nat} {container : NodeId} {v : Value} {s s' : Store} {d d' : Document}
  {x : Forest} {tree : FiberTree} {l : List Eval.Creation}

/-- The fibers of a rendered tree are those of its forest. -/
theorem Rendered.fibers_eq (h : Rendered depth container v s d x tree s' d' l) :
    tree.fibers.toList = (Forest.cons (rootFiber v) x .nil).stored none 0 := by
  have hadded := h.stands
  have hsize : tree.fibers.toList.length = 0 + (Forest.cons (rootFiber v) x .nil).size := by
    rw [Array.length_toList]
    exact hadded.size
  have hall := hadded.stands.drop_fibers
  rw [show FiberTree.empty.size = 0 from rfl, List.drop_zero, List.drop_of_length_le
    (Nat.le_of_eq hsize), List.append_nil] at hall
  exact hall

theorem Rendered.covered (h : Rendered depth container v s d x tree s' d' l)
    (hcontainer : container.index < d.size) :
    Forest.Covered d' (.cons (rootFiber v) x .nil) := by
  intro f below node hf hnode
  cases hf with
  | here => cases hnode
  | under hf => exact (h.mirrored hcontainer).covered f below node hf hnode
  | after hf => cases hf

/-- No contributor is lost and none is doubled. In the structure of a rendered tree, walked with any
map, every fiber is named exactly once, but for virtual ones with nothing below them. There is an
entry for every visual fiber, for every virtual one with nothing below it and for every text that was
put directly into an element and is matched. An entry of such a text has nothing but pseudo
components; any other one names its visual fiber, if it has one, and then virtual fibers, each the
parent of the one before, and pseudo components behind these. -/
theorem structure_names_every_fiber_once (hcontainer : container.index < d.size)
    (h : renderInto depth container v s d = (.ok tree, s', d')) (store : Store)
    (map : ExpressionMap) :
    let entries := allEntries (walk store d' tree FiberTree.rootId map)
    let fibers := tree.fibers.toList
    (entries.flatMap Entry.named).Perm
        ((fibers.filter fun f => f.isVisual || f.child.isSome).map .ofFiber) ∧
      entries.length = fibers.countP Fiber.isVisual +
        fibers.countP (fun f => !f.isVisual && f.child.isNone) +
        fibers.countP (Fiber.tellsText store d') ∧
      (∀ f ∈ fibers, f.tellsText store d' = true → ∃ text, Forest.DirectText d' f text) ∧
      ∀ e ∈ entries, (∃ f line, e.Gathers tree f line) ∨
        ∃ f ∈ fibers, ∃ text, Forest.IsTextOf store d' e f text := by
  obtain ⟨x, l, hrendered⟩ := exists_rendered h
  have hcovered := hrendered.covered hcontainer
  dsimp only
  rw [hrendered.walk_eq, hrendered.fibers_eq]
  refine ⟨Forest.named_entries store d' none 0 _ map,
    Forest.length_allEntries hcovered store none 0 map,
    fun f hf htells => Forest.directText_of_tellsText hcovered hf htells, ?_⟩
  intro e he
  rcases hrendered.stands.stands.gathers hcovered (within_of_mem_allEntries _ he) with
    hgathers | ⟨id, f, text, hf, htext⟩
  · exact .inl hgathers
  · refine .inr ⟨f, ?_, text, htext⟩
    rw [← hrendered.fibers_eq]
    exact List.mem_of_getElem? (Array.getElem?_toList.trans hf)

/-- In the rendering of a list and a text, every fiber is named once. -/
theorem structure_names_every_fiber_once_pair : ∃ (v : Value) (s s' : Store) (d' : Document)
    (tree : FiberTree), (⟨0⟩ : NodeId).index < blankDocument.size ∧
      renderInto 9 ⟨0⟩ v s blankDocument = (.ok tree, s', d') ∧
      ((allEntries (walk s' d' tree FiberTree.rootId .empty)).flatMap Entry.named).Perm
        ((tree.fibers.toList.filter fun f => f.isVisual || f.child.isSome).map .ofFiber) := by
  obtain ⟨m, exports, e, a, b, s, s', d', tree, i, j, y, hrun⟩ := exists_pairRun
  have hcontainer : (⟨0⟩ : NodeId).index < blankDocument.size := by decide
  exact ⟨_, s, s', d', tree, hcontainer, hrun.rendered,
    (structure_names_every_fiber_once hcontainer hrun.rendered s' .empty).1⟩

end Render

end MarkupTrace
