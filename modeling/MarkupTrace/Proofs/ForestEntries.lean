import MarkupTrace.Proofs.Placing

/-!
# The entries of a forest

Every entry of a structure is that of a visual fiber, a placeholder, or that of a text without a
fiber; and every visual fiber has one. Of several forests side by side each gives its own entries,
one behind the other.
-/

namespace MarkupTrace

open Render Structure

namespace Structure

/-! ## Attaching groups -/

@[simp] theorem Entry.extend_nil (e : Entry) : e.extend [] = e := by
  cases e with
  | mk node contributors children => rw [Entry.extend, List.append_nil]

@[simp] theorem Entry.node_extend (e : Entry) (added : List Contributor) :
    (e.extend added).node = e.node := by
  cases e
  rfl

@[simp] theorem Entry.children_extend (e : Entry) (added : List Contributor) :
    (e.extend added).children = e.children := by
  cases e
  rfl

@[simp] theorem Entry.contributors_extend (e : Entry) (added : List Contributor) :
    (e.extend added).contributors = e.contributors ++ added := by
  cases e
  rfl

@[simp] theorem attach_nil (es : List Entry) (nodes : List NodeId) : attach es nodes [] = es := by
  cases es <;> cases nodes <;> rfl

/-- Where there are as many entries as nodes, every group goes to the entry at its position. -/
theorem getElem?_attach {es : List Entry} {nodes : List NodeId} (h : nodes.length ≤ es.length)
    (groups : List (List Contributor)) (i : Nat) :
    (attach es nodes groups)[i]? = es[i]?.map fun e => e.extend (groups.getD i []) := by
  induction groups generalizing es nodes i with
  | nil => cases hi : es[i]? <;> simp [hi]
  | cons g groups ih =>
    cases es with
    | nil =>
      rw [List.length_nil, Nat.le_zero, List.length_eq_zero_iff] at h
      subst h
      rfl
    | cons e es =>
      cases i with
      | zero => rfl
      | succ i =>
        have hlength : nodes.tail.length ≤ es.length := by
          rw [List.length_tail]
          exact Nat.sub_le_of_le_add h
        exact ih hlength i

theorem length_attach {es : List Entry} {nodes : List NodeId} (h : nodes.length ≤ es.length)
    (groups : List (List Contributor)) : (attach es nodes groups).length = es.length := by
  induction groups generalizing es nodes with
  | nil => rw [attach_nil]
  | cons g groups ih =>
    cases es with
    | nil =>
      rw [List.length_nil, Nat.le_zero, List.length_eq_zero_iff] at h
      subst h
      rfl
    | cons e es =>
      have hlength : nodes.tail.length ≤ es.length := by
        rw [List.length_tail]
        exact Nat.sub_le_of_le_add h
      rw [attach, List.length_cons, ih hlength, List.length_cons]

/-- An attached entry is one of the entries, with or without a group, or that of a node; the latter
only if there are more nodes than entries. -/
theorem mem_attach {es : List Entry} {nodes : List NodeId} {groups : List (List Contributor)}
    {e : Entry} (h : e ∈ attach es nodes groups) :
    (∃ e' ∈ es, ∃ added, (added = [] ∨ added ∈ groups) ∧ e = e'.extend added) ∨
      es.length < nodes.length ∧ ∃ n ∈ nodes, ∃ g ∈ groups, e = .leaf n g := by
  induction groups generalizing es nodes with
  | nil =>
    rw [attach_nil] at h
    exact .inl ⟨e, h, [], .inl rfl, (Entry.extend_nil e).symm⟩
  | cons g groups ih =>
    cases es with
    | nil =>
      cases nodes with
      | nil => cases h
      | cons n nodes =>
        rcases List.mem_cons.mp h with rfl | h
        · exact .inr ⟨Nat.zero_lt_succ _, n, List.mem_cons_self, g, List.mem_cons_self, rfl⟩
        · rcases ih h with ⟨e', he', -⟩ | ⟨-, n', hn', g', hg', rfl⟩
          · cases he'
          · exact .inr ⟨Nat.zero_lt_succ _, n', List.mem_cons_of_mem _ hn', g',
              List.mem_cons_of_mem _ hg', rfl⟩
    | cons e' es =>
      rcases List.mem_cons.mp h with rfl | h
      · exact .inl ⟨e', List.mem_cons_self, g, .inr List.mem_cons_self, rfl⟩
      · rcases ih h with ⟨e'', he'', added, hadded, rfl⟩ | ⟨hlt, n', hn', g', hg', rfl⟩
        · exact .inl ⟨e'', List.mem_cons_of_mem _ he'', added,
            hadded.imp_right (List.mem_cons_of_mem _), rfl⟩
        · rw [List.length_tail] at hlt
          refine .inr ⟨?_, n', List.mem_of_mem_tail hn', g', List.mem_cons_of_mem _ hg', rfl⟩
          rw [List.length_cons]
          omega

theorem mem_contribute {c : Contributor} {es : List Entry} {e : Entry} (h : e ∈ contribute c es) :
    e = Entry.placeholder.extend [c] ∨ ∃ e' ∈ es, ∃ added, e = e'.extend added := by
  cases es with
  | nil => exact .inl (List.mem_singleton.mp h)
  | cons e' es =>
    rcases List.mem_cons.mp h with rfl | h
    · exact .inr ⟨e', List.mem_cons_self, [c], rfl⟩
    · exact .inr ⟨e, List.mem_cons_of_mem _ h, [], (Entry.extend_nil e).symm⟩

/-- Everything that reconciling gives is a pseudo component. -/
theorem isPseudo_of_mem_matchGroup {map : ExpressionMap} {v : Value} {x : Recorded}
    {c : Contributor} (h : c ∈ matchGroup map v x) : c.component.isPseudo = true := by
  have hpseudo : ∀ (b : Bool), (Component.pseudo b).isPseudo = true := by
    intro b
    cases b <;> rfl
  have hown : ∀ (x : Recorded), (Contributor.ofRecorded x).component.isPseudo = true :=
    fun x => hpseudo _
  unfold matchGroup at h
  split at h
  · split at h
    · rcases List.mem_append.mp h with h | h
      · rw [lookUp, List.mem_flatMap] at h
        obtain ⟨w, -, h⟩ := h
        obtain ⟨y, -, rfl⟩ := List.mem_map.mp h
        exact hpseudo _
      · rw [List.mem_singleton.mp h]
        exact hown x
    · rw [List.mem_singleton.mp h]
      exact hown x
  · cases h

theorem isPseudo_of_mem_matchItems {map : ExpressionMap} {vs : List Value} {xs : List Recorded}
    {g : List Contributor} {c : Contributor} (hg : g ∈ matchItems map vs xs) (hc : c ∈ g) :
    c.component.isPseudo = true := by
  induction vs generalizing xs with
  | nil => cases hg
  | cons v vs ih =>
    cases xs with
    | nil =>
      rcases List.mem_cons.mp hg with rfl | hg
      · cases hc
      · exact ih hg
    | cons x xs =>
      rcases List.mem_cons.mp hg with rfl | hg
      · split at hc
        · exact isPseudo_of_mem_matchGroup hc
        · cases hc
      · exact ih hg

/-- Whether a group is empty does not depend on the map. -/
theorem isEmpty_matchGroup (map : ExpressionMap) (v : Value) (x : Recorded) :
    (matchGroup map v x).isEmpty = !x.value.strictEq v := by
  unfold matchGroup
  cases x.value.strictEq v with
  | false => rfl
  | true => cases x.isExpression <;> simp

theorem reconcile_cons (v : Value) (first : Recorded) (rest : List Recorded) (map : ExpressionMap) :
    reconcile v (first :: rest) map =
      if v.isTruthy then
        if (matchGroup map v first).isEmpty then
          match v with
          | .array _ items => matchItems map items (first :: rest)
          | _ => []
        else [matchGroup map v first]
      else [] := rfl

theorem isPseudo_of_mem_reconcile {map : ExpressionMap} {v : Value} {xs : List Recorded}
    {g : List Contributor} {c : Contributor} (hg : g ∈ reconcile v xs map) (hc : c ∈ g) :
    c.component.isPseudo = true := by
  cases xs with
  | nil => cases hg
  | cons first rest =>
    rw [reconcile_cons] at hg
    split at hg
    · split at hg
      · split at hg
        · exact isPseudo_of_mem_matchItems hg hc
        · cases hg
      · rw [List.mem_singleton.mp hg] at hc
        exact isPseudo_of_mem_matchGroup hc
    · cases hg

/-- Entries at any depth. -/
inductive Entry.Within : List Entry → Entry → Prop
  | here {es : List Entry} {e : Entry} (h : e ∈ es) : Within es e
  | under {es : List Entry} {c e : Entry} (h : c ∈ es) (hw : Within c.children e) : Within es e

namespace Entry.Within

variable {es es' : List Entry} {e : Entry} {c : Contributor}

theorem append (h : Within (es ++ es') e) : Within es e ∨ Within es' e := by
  cases h with
  | here h =>
    rcases List.mem_append.mp h with h | h
    · exact .inl (.here h)
    · exact .inr (.here h)
  | under h hw =>
    rcases List.mem_append.mp h with h | h
    · exact .inl (.under h hw)
    · exact .inr (.under h hw)

theorem mono (h : Within es e) (hsub : es ⊆ es') : Within es' e := by
  cases h with
  | here h => exact .here (hsub h)
  | under h hw => exact .under (hsub h) hw

theorem contribute (h : Within (contribute c es) e) :
    (e.node = none ∧ e.children = []) ∨ (∃ e' ∈ es, ∃ added, e = e'.extend added) ∨
      Within es e := by
  cases h with
  | here h =>
    rcases mem_contribute h with rfl | h
    · exact .inl ⟨rfl, rfl⟩
    · exact .inr (.inl h)
  | under h hw =>
    rcases mem_contribute h with rfl | ⟨e', he', added, rfl⟩
    · cases hw with
      | here h => cases h
      | under h hw => cases h
    · rw [children_extend] at hw
      exact .inr (.inr (.under he' hw))

theorem attach {nodes : List NodeId} {groups : List (List Contributor)}
    (h : Within (attach es nodes groups) e) :
    (∃ n ∈ nodes, ∃ g ∈ groups, e = .leaf n g) ∨ (∃ e' ∈ es, ∃ added, e = e'.extend added) ∨
      Within es e := by
  cases h with
  | here h =>
    rcases mem_attach h with ⟨e', he', added, -, rfl⟩ | ⟨-, h⟩
    · exact .inr (.inl ⟨e', he', added, rfl⟩)
    · exact .inl h
  | under h hw =>
    rcases mem_attach h with ⟨e', he', added, -, rfl⟩ | ⟨-, n, hn, g, hg, rfl⟩
    · rw [children_extend] at hw
      exact .inr (.inr (.under he' hw))
    · cases hw with
      | here h => cases h
      | under h hw => cases h

/-- An entry at some depth is one of the first, or right below another. -/
theorem mem_or_exists (h : Within es e) : e ∈ es ∨ ∃ e', Within es e' ∧ e ∈ e'.children := by
  induction h with
  | here h => exact .inl h
  | under h hw ih =>
    rcases ih with hmem | ⟨e', he', hmem⟩
    · exact .inr ⟨_, .here h, hmem⟩
    · exact .inr ⟨e', .under h he', hmem⟩

/-- Entries that others are extended to stay what they are up to their extension. -/
theorem of_extended (h : Within es e)
    (hes : ∀ e ∈ es, ∃ added, e.extend added ∈ es') : ∃ added, Within es' (e.extend added) := by
  cases h with
  | here h =>
    obtain ⟨added, hmem⟩ := hes e h
    exact ⟨added, .here hmem⟩
  | @under _ c _ h hw =>
    obtain ⟨added, hmem⟩ := hes c h
    refine ⟨[], .under hmem ?_⟩
    rw [children_extend, extend_nil]
    exact hw

end Entry.Within

theorem extend_mem_attach {es : List Entry} {e : Entry} (h : e ∈ es) (nodes : List NodeId)
    (groups : List (List Contributor)) : ∃ added, e.extend added ∈ attach es nodes groups := by
  induction groups generalizing es nodes with
  | nil => exact ⟨[], by rwa [attach_nil, Entry.extend_nil]⟩
  | cons g groups ih =>
    cases es with
    | nil => cases h
    | cons e' es =>
      rcases List.mem_cons.mp h with rfl | h
      · exact ⟨g, List.mem_cons_self⟩
      · obtain ⟨added, hmem⟩ := ih h nodes.tail
        exact ⟨added, List.mem_cons_of_mem _ hmem⟩

theorem extend_mem_contribute {c : Contributor} {es : List Entry} {e : Entry} (h : e ∈ es) :
    ∃ added, e.extend added ∈ contribute c es := by
  cases es with
  | nil => cases h
  | cons e' es =>
    rcases List.mem_cons.mp h with rfl | h
    · exact ⟨[c], List.mem_cons_self⟩
    · exact ⟨[], by rw [Entry.extend_nil]; exact List.mem_cons_of_mem _ h⟩

end Structure

namespace Render

/-! ## Entries and fibers -/

/-- An entry is that of a visual fiber. -/
structure Shows (s : Store) (d : Document) (f : Fiber) (below : Forest) (node : NodeId)
    (map : ExpressionMap) (e : Entry) : Prop where
  visual : f.node = some node
  shown : e.node = some node
  first : e.contributors.head? = some (.ofFiber f)
  children : e.children = attach (below.entries s d map) (d.children node)
    (reconcile (childrenProp f) (recordedFor s f) map)

theorem Shows.extend {s : Store} {d : Document} {f : Fiber} {below : Forest} {node : NodeId}
    {map : ExpressionMap} {e : Entry} (h : Shows s d f below node map e)
    (added : List Contributor) : Shows s d f below node map (e.extend added) := by
  refine ⟨h.visual, ?_, ?_, ?_⟩
  · rw [Entry.node_extend, h.shown]
  · rw [Entry.contributors_extend, List.head?_append, h.first]
    rfl
  · rw [Entry.children_extend, h.children]

namespace Forest

variable {s : Store} {d : Document} {x y : Forest} {map : ExpressionMap} {e : Entry}

theorem entries_append (x y : Forest) (map : ExpressionMap) :
    (x.append y).entries s d map = x.entries s d map ++ y.entries s d map := by
  induction x with
  | nil => rfl
  | cons f below behind _ ih => simp only [append, entries, ih, List.append_assoc]

/-- The map that a fiber sees, given those above it, the nearest first: what was recorded for the
virtual ones is added, that of the farthest first. -/
def mapAt (s : Store) (map : ExpressionMap) : List Fiber → ExpressionMap
  | [] => map
  | g :: path =>
    if g.node.isSome then mapAt s map path
    else (mapAt s map path).insertAll (recordedFor s g)

theorem mapAt_append (s : Store) (map : ExpressionMap) (path path' : List Fiber) :
    mapAt s map (path ++ path') = mapAt s (mapAt s map path') path := by
  induction path with
  | nil => rfl
  | cons g path ih => rw [List.cons_append, mapAt, mapAt, ih]

/-- An entry among those of a forest: a placeholder, or that of a visual fiber in it. -/
def Explains (s : Store) (d : Document) (x : Forest) (map : ExpressionMap) (e : Entry) : Prop :=
  (e.node = none ∧ e.children = []) ∨
    ∃ f below node path, Lies f below path x ∧ Shows s d f below node (mapAt s map path) e

theorem Explains.extend (h : Explains s d x map e) (added : List Contributor) :
    Explains s d x map (e.extend added) := by
  rcases h with ⟨hnode, hchildren⟩ | ⟨f, below, node, path, hf, hshows⟩
  · exact .inl ⟨by rw [Entry.node_extend, hnode], by rw [Entry.children_extend, hchildren]⟩
  · exact .inr ⟨f, below, node, path, hf, hshows.extend added⟩

theorem Explains.under {g : Fiber} (h : Explains s d x (mapAt s map [g]) e) :
    Explains s d (.cons g x y) map e := by
  rcases h with h | ⟨f, below, node, path, hf, hshows⟩
  · exact .inl h
  · exact .inr ⟨f, below, node, path ++ [g], .under hf, by rwa [mapAt_append]⟩

theorem Explains.after {g : Fiber} (h : Explains s d x map e) :
    Explains s d (.cons g y x) map e := by
  rcases h with h | ⟨f, below, node, path, hf, hshows⟩
  · exact .inl h
  · exact .inr ⟨f, below, node, path, .after hf, hshows⟩

theorem mapAt_visual {g : Fiber} {node : NodeId} (hg : g.node = some node) :
    mapAt s map [g] = map := by
  rw [mapAt, mapAt, hg, Option.isSome_some, if_pos rfl]

theorem mapAt_virtual {g : Fiber} (hg : g.node = none) :
    mapAt s map [g] = map.insertAll (recordedFor s g) := by
  rw [mapAt, mapAt, hg, Option.isSome_none, if_neg Bool.false_ne_true]

theorem explains_of_mem (h : e ∈ x.entries s d map) : Explains s d x map e := by
  induction x generalizing map e with
  | nil => cases h
  | cons f below behind ihbelow ihbehind =>
    rcases List.mem_append.mp h with h | h
    · unfold entriesOf at h
      cases hf : f.node with
      | some node =>
        rw [hf] at h
        rw [List.mem_singleton.mp h]
        exact .inr ⟨f, below, node, [], .here, hf, rfl, rfl, rfl⟩
      | none =>
        rw [hf] at h
        dsimp only at h
        split at h
        · rw [List.mem_singleton.mp h]
          exact .inl ⟨rfl, rfl⟩
        · rw [← mapAt_virtual hf] at h
          rcases mem_contribute h with rfl | ⟨e', he', added, rfl⟩
          · exact .inl ⟨rfl, rfl⟩
          · exact ((ihbelow he').extend added).under
    · exact (ihbehind h).after

/-- Every entry at any depth: a placeholder, that of a visual fiber, or that of a node without a
fiber, with nothing but pseudo components. -/
theorem explains_of_within (h : e.Within (x.entries s d map)) : Explains s d x map e ∨
    e.children = [] ∧ ∀ c ∈ e.contributors, c.component.isPseudo = true := by
  induction x generalizing map with
  | nil =>
    cases h with
    | here h => cases h
    | under h hw => cases h
  | cons f below behind ihbelow ihbehind =>
    have hbelow : (∃ e' ∈ below.entries s d (mapAt s map [f]), ∃ added, e = e'.extend added) ∨
        e.Within (below.entries s d (mapAt s map [f])) → Explains s d (.cons f below behind) map e ∨
          e.children = [] ∧ ∀ c ∈ e.contributors, c.component.isPseudo = true := by
      rintro (⟨e', he', added, rfl⟩ | h)
      · exact .inl ((explains_of_mem he').extend added).under
      · rcases ihbelow h with h | h
        · exact .inl h.under
        · exact .inr h
    rcases h.append with h | h
    · unfold entriesOf at h
      cases hf : f.node with
      | some node =>
        rw [hf] at h
        rw [mapAt_visual hf] at hbelow
        cases h with
        | here h =>
          rw [List.mem_singleton.mp h]
          exact .inl (.inr ⟨f, below, node, [], .here, hf, rfl, rfl, rfl⟩)
        | under h hw =>
          rw [List.mem_singleton.mp h] at hw
          rcases Entry.Within.attach hw with ⟨n, -, g, hg, rfl⟩ | h
          · exact .inr ⟨rfl, fun c hc => isPseudo_of_mem_reconcile hg hc⟩
          · exact hbelow h
      | none =>
        rw [hf] at h
        rw [mapAt_virtual hf] at hbelow
        dsimp only at h
        split at h
        · cases h with
          | here h =>
            rw [List.mem_singleton.mp h]
            exact .inl (.inl ⟨rfl, rfl⟩)
          | under h hw =>
            rw [List.mem_singleton.mp h] at hw
            cases hw with
            | here h => cases h
            | under h hw => cases h
        · rcases h.contribute with h | h
          · exact .inl (.inl h)
          · exact hbelow h
    · rcases ihbehind h with h | h
      · exact .inl h.after
      · exact .inr h

/-- Every visual fiber has an entry. -/
theorem exists_shows {f : Fiber} {below : Forest} {node : NodeId} {path : List Fiber}
    (h : Lies f below path x) (hnode : f.node = some node) (map : ExpressionMap) :
    ∃ e, e.Within (x.entries s d map) ∧ Shows s d f below node (mapAt s map path) e := by
  induction h generalizing map with
  | here =>
    refine ⟨visualEntry s d f node (below.entries s d map) map, ?_, hnode, rfl, rfl, rfl⟩
    refine .here (List.mem_append_left _ ?_)
    rw [entriesOf, hnode]
    exact List.mem_singleton.mpr rfl
  | @under g w behind path hlies ih =>
    have hw : w.isNil = false := by
      cases w with
      | nil => cases hlies
      | cons _ _ _ => rfl
    obtain ⟨e, he, hshows⟩ := ih (mapAt s map [g])
    rw [← mapAt_append] at hshows
    cases hg : g.node with
    | some other =>
      rw [mapAt_visual hg] at he
      obtain ⟨added, hadded⟩ := he.of_extended fun _ h => extend_mem_attach h
        (d.children other) (reconcile (childrenProp g) (recordedFor s g) map)
      have hmem : visualEntry s d g other (w.entries s d map) map ∈
          (cons g w behind).entries s d map := by
        refine List.mem_append_left _ ?_
        rw [entriesOf, hg]
        exact List.mem_singleton.mpr rfl
      exact ⟨e.extend added, .under hmem hadded, hshows.extend added⟩
    | none =>
      rw [mapAt_virtual hg] at he
      obtain ⟨added, hadded⟩ := he.of_extended fun _ h => extend_mem_contribute
        (c := .ofFiber g) h
      refine ⟨e.extend added, hadded.mono ?_, hshows.extend added⟩
      rw [entries, entriesOf, hg, hw]
      exact List.subset_append_left _ _
  | after _ ih =>
    obtain ⟨e, he, hshows⟩ := ih map
    exact ⟨e, he.mono (List.subset_append_right _ _), hshows⟩

/-! ## Numbers of entries -/

/-- How many entries a forest has. -/
def count : Forest → Nat
  | nil => 0
  | cons f below behind => (if f.node.isSome then 1 else max 1 below.count) + behind.count

theorem length_contribute (c : Contributor) (es : List Entry) :
    (contribute c es).length = max 1 es.length := by
  cases es with
  | nil => rfl
  | cons e es =>
    rw [contribute, List.length_cons, List.length_cons]
    omega

@[simp] theorem length_entries (s : Store) (d : Document) (x : Forest) (map : ExpressionMap) :
    (x.entries s d map).length = x.count := by
  induction x generalizing map with
  | nil => rfl
  | cons f below behind ihbelow ihbehind =>
    rw [entries, List.length_append, ihbehind, count, entriesOf]
    congr 1
    cases f.node with
    | some node => rfl
    | none =>
      cases below with
      | nil => rfl
      | cons g w next =>
        rw [isNil, if_neg (by decide), length_contribute, ihbelow]
        rfl

theorem length_surface_le (x : Forest) : x.surface.length ≤ x.count := by
  induction x with
  | nil => exact Nat.le_refl 0
  | cons f below behind ihbelow ihbehind =>
    rw [surface, count, List.length_append]
    cases f.node with
    | some node =>
      simp only [List.length_singleton, Option.isSome_some, if_true]
      omega
    | none =>
      simp only [Option.isSome_none, Bool.false_eq_true, if_false]
      omega

/-- The entries that have a node have those on top, in order. -/
theorem filterMap_node_entries (s : Store) (d : Document) (x : Forest) (map : ExpressionMap) :
    (x.entries s d map).filterMap Entry.node = x.surface := by
  have hcontribute : ∀ (c : Contributor) (es : List Entry),
      (contribute c es).filterMap Entry.node = es.filterMap Entry.node := by
    intro c es
    cases es with
    | nil => rfl
    | cons e es => simp [contribute, List.filterMap_cons]
  induction x generalizing map with
  | nil => rfl
  | cons f below behind ihbelow ihbehind =>
    rw [entries, List.filterMap_append, ihbehind, surface, entriesOf]
    congr 1
    cases f.node with
    | some node => rfl
    | none =>
      cases below with
      | nil => rfl
      | cons g w next =>
        dsimp only
        rw [isNil, if_neg (by decide), hcontribute, ihbelow]

theorem mem_nodes_of_mem_entries {n : NodeId} (h : e ∈ x.entries s d map)
    (hn : e.node = some n) : n ∈ x.nodes := by
  apply surface_subset
  rw [← filterMap_node_entries s d x map]
  exact List.mem_filterMap.mpr ⟨e, h, hn⟩

end Forest

end Render

end MarkupTrace
