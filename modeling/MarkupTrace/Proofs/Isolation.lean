import MarkupTrace.Proofs.Contributors

/-!
# What may flow to a child

The groups that the entries right below an entry get come from what was recorded for the fiber of the
entry and for virtual fibers above it. What was recorded for any other fiber, beside it, below it or
a visual one above it, has no part in them.
-/

namespace MarkupTrace

open Render Structure

namespace Structure

/-! ## Where groups come from -/

/-- What a map finds under a value was there before or stems from what was added. -/
theorem mem_get_insertLeaf {m : ExpressionMap} {x y : Recorded} {v : Value}
    (h : y ∈ (m.insertLeaf x).get v) : y ∈ m.get v ∨ y = x := by
  unfold ExpressionMap.get ExpressionMap.insertLeaf at *
  cases hx : Key.of? x.value with
  | none =>
    rw [hx] at h
    exact .inl h
  | some key =>
    rw [hx] at h
    cases hv : Key.of? v with
    | none =>
      rw [hv] at h
      cases h
    | some other =>
      rw [hv] at h
      dsimp only at h ⊢
      by_cases hsame : other = key
      · rw [hsame, ExpressionMap.find_put_self] at h
        rw [hsame]
        exact (List.mem_append.mp h).imp_right List.mem_singleton.mp
      · rw [ExpressionMap.find_put_of_ne hsame] at h
        exact .inl h

theorem mem_get_insert {m : ExpressionMap} {x y : Recorded} {v : Value}
    (h : y ∈ (m.insert x).get v) : y ∈ m.get v ∨ y.location = x.location := by
  rw [ExpressionMap.insert, flatten] at h
  generalize leaves x.value = values at h
  induction values generalizing m with
  | nil => exact .inl h
  | cons value values ih =>
    rcases ih h with h | h
    · rcases mem_get_insertLeaf h with h | rfl
      · exact .inl h
      · exact .inr rfl
    · exact .inr h

theorem mem_get_insertAll {m : ExpressionMap} {xs : List Recorded} {y : Recorded} {v : Value}
    (h : y ∈ (m.insertAll xs).get v) : y ∈ m.get v ∨ ∃ x ∈ xs, y.location = x.location := by
  rw [ExpressionMap.insertAll] at h
  induction xs generalizing m with
  | nil => exact .inl h
  | cons x xs ih =>
    rcases ih h with h | ⟨x', hx', h⟩
    · rcases mem_get_insert h with h | h
      · exact .inl h
      · exact .inr ⟨x, List.mem_cons_self, h⟩
    · exact .inr ⟨x', List.mem_cons_of_mem _ hx', h⟩

/-- A location that a map knows or that was recorded. -/
def Known (map : ExpressionMap) (xs : List Recorded) (place : Location) : Prop :=
  (∃ v, ∃ y ∈ map.get v, place = y.location) ∨ ∃ x ∈ xs, place = x.location

theorem known_of_mem_matchGroup {map : ExpressionMap} {v : Value} {x : Recorded}
    {xs : List Recorded} (hx : x ∈ xs) {c : Contributor} (h : c ∈ matchGroup map v x) :
    Known map xs c.location := by
  have hown : ∀ c ∈ [Contributor.ofRecorded x], Known map xs c.location := by
    intro c hc
    rw [List.mem_singleton.mp hc]
    exact .inr ⟨x, hx, rfl⟩
  unfold matchGroup at h
  split at h
  · split at h
    · rcases List.mem_append.mp h with h | h
      · rw [lookUp, List.mem_flatMap] at h
        obtain ⟨w, -, h⟩ := h
        obtain ⟨y, hy, rfl⟩ := List.mem_map.mp h
        exact .inl ⟨w, y, hy, rfl⟩
      · exact hown c h
    · exact hown c h
  · cases h

theorem known_of_mem_matchItems {map : ExpressionMap} {vs : List Value} {xs xs' : List Recorded}
    (hxs : xs ⊆ xs') {g : List Contributor} {c : Contributor} (hg : g ∈ matchItems map vs xs)
    (hc : c ∈ g) : Known map xs' c.location := by
  induction vs generalizing xs with
  | nil => cases hg
  | cons v vs ih =>
    cases xs with
    | nil =>
      rcases List.mem_cons.mp hg with rfl | hg
      · cases hc
      · exact ih (List.nil_subset _) hg
    | cons x xs =>
      rcases List.mem_cons.mp hg with rfl | hg
      · split at hc
        · exact known_of_mem_matchGroup (hxs List.mem_cons_self) hc
        · cases hc
      · have hrest : ∀ kept : Bool, (if kept then x :: xs else xs) ⊆ xs' := by
          intro kept
          cases kept with
          | true => exact hxs
          | false => exact fun _ h => hxs (List.mem_cons_of_mem _ h)
        exact ih (hrest _) hg

theorem known_of_mem_reconcile {map : ExpressionMap} {v : Value} {xs : List Recorded}
    {g : List Contributor} {c : Contributor} (hg : g ∈ reconcile v xs map) (hc : c ∈ g) :
    Known map xs c.location := by
  cases xs with
  | nil => cases hg
  | cons first rest =>
    rw [reconcile_cons] at hg
    split at hg
    · split at hg
      · split at hg
        · exact known_of_mem_matchItems (List.Subset.refl _) hg hc
        · cases hg
      · rw [List.mem_singleton.mp hg] at hc
        exact known_of_mem_matchGroup List.mem_cons_self hc
    · cases hg

/-! ## What is seen of an entry -/

/-- The node and the contributors of an entry, but not what is below it. -/
def Entry.heading (e : Entry) : Option NodeId × List Contributor := (e.node, e.contributors)

theorem Entry.heading_extend (e : Entry) (added : List Contributor) :
    (e.extend added).heading = (e.heading.1, e.heading.2 ++ added) := by
  rw [heading, node_extend, contributors_extend, heading]

theorem map_heading_contribute (c : Contributor) {es es' : List Entry}
    (h : es.map Entry.heading = es'.map Entry.heading) :
    (contribute c es).map Entry.heading = (contribute c es').map Entry.heading := by
  cases es with
  | nil =>
    cases es' with
    | nil => rfl
    | cons e' es' => cases h
  | cons e es =>
    cases es' with
    | nil => cases h
    | cons e' es' =>
      rw [List.map_cons, List.map_cons, List.cons.injEq] at h
      rw [contribute, contribute, List.map_cons, List.map_cons, Entry.heading_extend,
        Entry.heading_extend, h.1, h.2]

theorem map_heading_attach (groups : List (List Contributor)) (nodes : List NodeId)
    {es es' : List Entry} (h : es.map Entry.heading = es'.map Entry.heading) :
    (attach es nodes groups).map Entry.heading = (attach es' nodes groups).map Entry.heading := by
  induction groups generalizing es es' nodes with
  | nil => rwa [attach_nil, attach_nil]
  | cons g groups ih =>
    cases es with
    | nil =>
      cases es' with
      | nil => rfl
      | cons e' es' => cases h
    | cons e es =>
      cases es' with
      | nil => cases h
      | cons e' es' =>
        rw [List.map_cons, List.map_cons, List.cons.injEq] at h
        rw [attach, attach, List.map_cons, List.map_cons, Entry.heading_extend, Entry.heading_extend,
          h.1, ih _ h.2]

end Structure

namespace Render

/-! ## Fibers above others -/

namespace FiberTree

/-- A fiber of the tree has this parent. -/
def IsParent (t : FiberTree) (a b : FiberId) : Prop := ∃ f, t.get? b = some f ∧ f.parent = some a

/-- A fiber is above another: its parent, or the parent's parent, and so on. -/
def Above (t : FiberTree) : FiberId → FiberId → Prop := Relation.TransGen t.IsParent

/-- A fiber whose records may reach the children of another: the same, or a virtual one above it. -/
def Feeds (t : FiberTree) (a id : FiberId) : Prop :=
  a = id ∨ t.Above a id ∧ ∃ g, t.get? a = some g ∧ g.node = none

end FiberTree

namespace Forest

variable {s s' : Store} {d : Document} {t : FiberTree} {above : Option FiberId} {n : Nat}
  {x : Forest} {map : ExpressionMap} {e : Entry}

/-- Every fiber of a tree lies in the forest, and what lies above it is above it in the tree. -/
theorem Stands.exists_lies (h : x.Stands t above n) {id : FiberId} (hle : n ≤ id.index)
    (hlt : id.index < n + x.size) :
    (∀ a ∈ above, t.Above a id) ∧ ∃ f below path above' behind,
      Lies f below path x ∧ t.get? id = some (linked above' id.index f below behind) ∧
        below.Stands t (some id) (id.index + 1) ∧
        ∀ g ∈ path, ∃ a g', t.Above a id ∧ t.get? a = some g' ∧ g'.node = g.node ∧
          g'.source = g.source := by
  obtain ⟨i⟩ := id
  induction x generalizing above n with
  | nil =>
    rw [size] at hlt
    omega
  | cons f below behind ihbelow ihbehind =>
    obtain ⟨hf, hbelow, hbehind⟩ := h
    dsimp only at hle hlt ihbelow ihbehind
    rw [size] at hlt
    have hparent : ∀ a ∈ above, t.Above a ⟨n⟩ := by
      rintro a rfl
      exact .single ⟨_, hf, rfl⟩
    rcases Nat.eq_or_lt_of_le hle with rfl | hgt
    · refine ⟨hparent, f, below, [], above, behind, .here, hf, hbelow, ?_⟩
      exact fun _ hg => absurd hg List.not_mem_nil
    by_cases hinside : i < n + 1 + below.size
    · obtain ⟨habove, f', below', path, above', behind', hlies, hget, hstands, hpath⟩ :=
        ihbelow hbelow hgt hinside
      have hupper := habove _ rfl
      refine ⟨fun a ha => (hparent a ha).trans hupper, f', below', path ++ [f], above', behind',
        .under hlies, hget, hstands, ?_⟩
      intro g hg
      rcases List.mem_append.mp hg with hg | hg
      · exact hpath g hg
      · rw [List.mem_singleton.mp hg]
        exact ⟨⟨n⟩, _, hupper, hf, rfl, rfl⟩
    · obtain ⟨habove, f', below', path, above', behind', hlies, h⟩ :=
        ihbehind hbehind (by omega) (by omega)
      exact ⟨habove, f', below', path, above', behind', .after hlies, h⟩

/-- The map that a fiber sees is that of what was recorded for the virtual fibers above it. -/
theorem mapAt_congr {path : List Fiber}
    (h : ∀ g ∈ path, g.node = none → recordedFor s' g = recordedFor s g) (map : ExpressionMap) :
    mapAt s' map path = mapAt s map path := by
  induction path with
  | nil => rfl
  | cons g path ih =>
    have ih := ih fun k hk => h k (List.mem_cons_of_mem _ hk)
    rw [mapAt, mapAt, ih]
    cases hnode : g.node with
    | some node => rfl
    | none => rw [h g List.mem_cons_self hnode]

theorem mem_get_mapAt {path : List Fiber} {v : Value} {y : Recorded}
    (h : y ∈ (mapAt s map path).get v) :
    y ∈ map.get v ∨ ∃ g ∈ path, g.node = none ∧ ∃ x ∈ recordedFor s g, y.location = x.location := by
  induction path with
  | nil => exact .inl h
  | cons g path ih =>
    have hrest : y ∈ (mapAt s map path).get v → y ∈ map.get v ∨
        ∃ k ∈ g :: path, k.node = none ∧ ∃ x ∈ recordedFor s k, y.location = x.location := by
      intro h
      rcases ih h with h | ⟨k, hk, h⟩
      · exact .inl h
      · exact .inr ⟨k, List.mem_cons_of_mem _ hk, h⟩
    rw [mapAt] at h
    cases hnode : g.node with
    | some node =>
      rw [hnode] at h
      exact hrest h
    | none =>
      rw [hnode, Option.isSome_none, if_neg Bool.false_ne_true] at h
      rcases mem_get_insertAll h with h | ⟨x, hx, h⟩
      · exact hrest h
      · exact .inr ⟨g, List.mem_cons_self, hnode, x, hx, h⟩

/-- What the first entries of a forest show depends on its fibers alone. -/
theorem map_heading_entries (x : Forest) (s s' : Store) (d : Document) (map map' : ExpressionMap) :
    (x.entries s d map).map Entry.heading = (x.entries s' d map').map Entry.heading := by
  induction x generalizing map map' with
  | nil => rfl
  | cons f below behind ihbelow ihbehind =>
    rw [entries, entries, List.map_append, List.map_append, ihbehind map map', entriesOf, entriesOf]
    congr 1
    cases f.node with
    | some node => rfl
    | none =>
      cases below.isNil with
      | true => rfl
      | false => exact map_heading_contribute _ (ihbelow _ _)

/-- A pseudo component right below the entry of a fiber has a location that the map of the fiber
knows or that was recorded for the fiber. -/
theorem known_of_mem_children {f : Fiber} {below : Forest} {node : NodeId} {c : Entry}
    {p : Contributor} (hstands : below.Stands t above n) (h : Shows s d f below node map e)
    (hc : c ∈ e.children) (hp : p ∈ c.contributors) (hpseudo : p.component.isPseudo = true) :
    Known map (recordedFor s f) p.location := by
  rw [h.children] at hc
  rcases mem_attach hc with ⟨e₀, he₀, added, hadded, rfl⟩ | ⟨-, text, -, g, hg, rfl⟩
  · obtain ⟨f₀, line, -, -, hcontributors⟩ := (hstands.allLined s d map).1 e₀ he₀
    rw [Entry.contributors_extend, hcontributors] at hp
    rcases List.mem_append.mp hp with hp | hp
    · -- All that the entry gathered before stands for fibers.
      have hnamed : ∃ k, p = .ofFiber k := by
        rcases List.mem_append.mp hp with hp | hp
        · split at hp
          · exact ⟨f₀, List.mem_singleton.mp hp⟩
          · cases hp
        · obtain ⟨k, -, rfl⟩ := List.mem_map.mp hp
          exact ⟨k, rfl⟩
      obtain ⟨k, rfl⟩ := hnamed
      rw [Contributor.ofFiber, Component.isPseudo_ofType] at hpseudo
      cases hpseudo
    · rcases hadded with rfl | hadded
      · cases hp
      · exact known_of_mem_reconcile hadded hp
  · exact known_of_mem_reconcile hg hp

end Forest

variable {depth : Nat} {container : NodeId} {v : Value} {s s' : Store} {d d' : Document}
  {x : Forest} {tree : FiberTree} {l : List Eval.Creation}

/-- Subtrees do not contaminate one another. In a rendered tree, walked from the root with an empty
map, take the entry of a visual fiber. The location of every pseudo component on the entries right
below it was recorded for this fiber or for a virtual one above it. So in whatever else two stores
differ, these entries are as many, and have the same nodes and contributors. -/
theorem children_depend_on_feeding_fibers (hcontainer : container.index < d.size)
    (h : renderInto depth container v s d = (.ok tree, s', d')) {id : FiberId} {f : Fiber}
    {node : NodeId} (hf : tree.get? id = some f) (hnode : f.node = some node) (store : Store) :
    let isOwn := fun (store : Store) (e : Entry) =>
      e.Within (walk store d' tree FiberTree.rootId .empty) ∧ e.node = some node ∧
        e.contributors.head? = some (.ofFiber f)
    (∃ e, isOwn store e) ∧ ∀ e, isOwn store e →
      (∀ c ∈ e.children, ∀ p ∈ c.contributors, p.component.isPseudo = true →
        ∃ a g, tree.Feeds a id ∧ tree.get? a = some g ∧
          ∃ y ∈ recordedFor store g, p.location = y.location) ∧
      ∀ store', (∀ a g, tree.Feeds a id → tree.get? a = some g →
          recordedFor store' g = recordedFor store g) →
        ∀ e', isOwn store' e' → e'.children.map Entry.heading = e.children.map Entry.heading := by
  obtain ⟨x, l, hrendered⟩ := exists_rendered h
  have hstands := hrendered.stands.stands
  have hsize := hrendered.stands.size
  have hid : id.index < tree.size := (Array.getElem?_eq_some_iff.mp hf).1
  rw [hsize] at hid
  obtain ⟨-, f₀, below, path, above', behind, hlies, hget, hbelow, hpath⟩ :=
    hstands.exists_lies (Nat.zero_le id.index) hid
  obtain rfl := Option.some.inj (hf.symm.trans hget)
  have hsorted := hrendered.nodes_sorted hcontainer
  have hshows : ∀ (store : Store) (e : Entry),
      e.Within (walk store d' tree FiberTree.rootId .empty) → e.node = some node →
        e.contributors.head? = some (.ofFiber f₀) →
        Shows store d' f₀ below node (Forest.mapAt store .empty path) e := by
    intro store e he hshown hfirst
    rw [hrendered.walk_eq] at he
    exact hlies.shows_of_within hsorted hnode he hshown hfirst
  have hpathFeeds : ∀ g ∈ path, g.node = none → ∃ a g', tree.Feeds a id ∧ tree.get? a = some g' ∧
      ∀ store : Store, recordedFor store g' = recordedFor store g := by
    intro g hg hbare
    obtain ⟨a, g', habove, hg', hsame, hsource⟩ := hpath g hg
    refine ⟨a, g', .inr ⟨habove, g', hg', hsame.trans hbare⟩, hg', fun store => ?_⟩
    rw [recordedFor, hsource, recordedFor]
  dsimp only
  refine ⟨?_, ?_⟩
  · obtain ⟨e, he, hshows⟩ := Forest.exists_shows (s := store) (d := d') hlies hnode .empty
    rw [← hrendered.walk_eq] at he
    exact ⟨e, he, hshows.shown, hshows.first⟩
  rintro e ⟨he, hshown, hfirst⟩
  have hown := hshows store e he hshown hfirst
  refine ⟨?_, ?_⟩
  · intro c hc p hp hpseudo
    rcases Forest.known_of_mem_children hbelow hown hc hp hpseudo with
      ⟨w, y, hy, hlocation⟩ | ⟨y, hy, hlocation⟩
    · rcases Forest.mem_get_mapAt hy with hy | ⟨g, hg, hbare, y', hy', hsame⟩
      · unfold ExpressionMap.get at hy
        split at hy <;> cases hy
      · obtain ⟨a, g', hfeeds, hg', hrecorded⟩ := hpathFeeds g hg hbare
        exact ⟨a, g', hfeeds, hg', y', hrecorded store ▸ hy', hlocation.trans hsame⟩
    · exact ⟨id, _, .inl rfl, hf, y, hy, hlocation⟩
  · rintro store' hagree e' ⟨he', hshown', hfirst'⟩
    have hown' := hshows store' e' he' hshown' hfirst'
    have hagreed := hagree id _ (.inl rfl) hf
    have hrecorded : recordedFor store' f₀ = recordedFor store f₀ := hagreed
    have hmap : Forest.mapAt store' .empty path = Forest.mapAt store .empty path := by
      refine Forest.mapAt_congr (fun g hg hbare => ?_) .empty
      obtain ⟨a, g', hfeeds, hg', hsame⟩ := hpathFeeds g hg hbare
      rw [← hsame store', ← hsame store, hagree a g' hfeeds hg']
    rw [hown'.children, hown.children, hrecorded, hmap]
    exact map_heading_attach _ _ (below.map_heading_entries store' store d' _ _)

/-- In the rendering of a list and a text, the entry of the element and those right below it. -/
theorem children_depend_on_feeding_fibers_pair : ∃ (v : Value) (s s' : Store) (d' : Document)
    (tree : FiberTree) (id : FiberId) (f : Fiber) (node : NodeId) (e : Entry),
      (⟨0⟩ : NodeId).index < blankDocument.size ∧
      renderInto 9 ⟨0⟩ v s blankDocument = (.ok tree, s', d') ∧ tree.get? id = some f ∧
      f.node = some node ∧ e.Within (walk s' d' tree FiberTree.rootId .empty) ∧
      e.node = some node ∧
      ∀ c ∈ e.children, ∀ p ∈ c.contributors, p.component.isPseudo = true →
        ∃ a g, tree.Feeds a id ∧ tree.get? a = some g ∧
          ∃ y ∈ recordedFor s' g, p.location = y.location := by
  obtain ⟨m, exports, e, a, b, s, s', d', tree, i, j, y, hrun⟩ := exists_pairRun
  obtain ⟨tag, _, _, htype, -, -⟩ := hrun.hosts
  have hcontainer : (⟨0⟩ : NodeId).index < blankDocument.size := by decide
  obtain ⟨x, l, hrendered⟩ := exists_rendered hrun.rendered
  obtain ⟨t, hplants, -⟩ := hrendered.planted
  obtain ⟨below, rfl⟩ := hplants.of_host htype
  have hfiber := hrendered.stands.stands.2.1.1
  obtain ⟨⟨e', hwithin, hshown, hfirst⟩, hall⟩ :=
    children_depend_on_feeding_fibers hcontainer hrun.rendered hfiber rfl s'
  exact ⟨_, s, s', d', tree, _, _, _, e', hcontainer, hrun.rendered, hfiber, rfl, hwithin, hshown,
    (hall e' ⟨hwithin, hshown, hfirst⟩).1⟩

end Render

end MarkupTrace
