import MarkupTrace.Proofs.Collapsing
import MarkupTrace.Proofs.Isolation

/-!
# Fibers are numbered in pre-order

A rendered tree is a tree: its links lead from a fiber to fibers with larger numbers, every fiber but
the root is in the chain of its parent and in no other, and going down before going on meets the
fibers in the order of their numbers. So the loops along siblings and the recursion over fibers come
to an end, though nothing bounds them. The relations below say so: each rule is one turn of a loop or
one call, and a derivation is finite.
-/

namespace MarkupTrace.Render

open Eval Structure

/-! ## Following links -/

namespace FiberTree

/-- A loop along the siblings comes to an end and has met these fibers. -/
inductive Chained (t : FiberTree) : Option FiberId → List FiberId → Prop
  | done : Chained t none []
  | next {id : FiberId} {ids : List FiberId} (rest : Chained t ((t.get? id).bind (·.sibling)) ids) :
      Chained t (some id) (id :: ids)

/-- Going down to the child before going on to the sibling comes to an end and has met these
fibers. -/
inductive Traversed (t : FiberTree) : Option FiberId → List FiberId → Prop
  | done : Traversed t none []
  | visit {id : FiberId} {below behind : List FiberId}
      (down : Traversed t ((t.get? id).bind (·.child)) below)
      (on : Traversed t ((t.get? id).bind (·.sibling)) behind) :
      Traversed t (some id) (id :: (below ++ behind))

theorem get?_eq_none {t : FiberTree} {id : FiberId} (h : t.size ≤ id.index) : t.get? id = none :=
  Array.getElem?_eq_none h

theorem lt_size_of_get? {t : FiberTree} {id : FiberId} {f : Fiber} (h : t.get? id = some f) :
    id.index < t.size :=
  (Array.getElem?_eq_some_iff.mp h).1

theorem children_of_missing {t : FiberTree} {id : FiberId} (h : t.get? id = none) :
    t.children id = [] := by
  rw [children, h]
  cases t.size <;> rfl

end FiberTree

section

variable (store : Store) (document : Document) (tree : FiberTree)

mutual

/-- The recursion over a fiber comes to an end with these entries. -/
inductive Walks : FiberId → ExpressionMap → List Entry → Prop
  | missing {id : FiberId} {map : ExpressionMap} (lost : tree.get? id = none) : Walks id map []
  | visual {id : FiberId} {map : ExpressionMap} {f : Fiber} {node : NodeId} {below : List Entry}
      (found : tree.get? id = some f) (visual : f.node = some node)
      (inside : WalksChain f.child map below) :
      Walks id map [visualEntry store document f node below map]
  | bare {id : FiberId} {map : ExpressionMap} {f : Fiber} (found : tree.get? id = some f)
      (virtual : f.node = none) (bare : f.child = none) : Walks id map [.placeholder]
  | virtual {id first : FiberId} {map : ExpressionMap} {f : Fiber} {below : List Entry}
      (found : tree.get? id = some f) (virtual : f.node = none) (child : f.child = some first)
      (inside : WalksChain (some first) (map.insertAll (recordedFor store f)) below) :
      Walks id map (contribute (.ofFiber f) below)

/-- The loop over a fiber and its following siblings comes to an end with these entries. -/
inductive WalksChain : Option FiberId → ExpressionMap → List Entry → Prop
  | done {map : ExpressionMap} : WalksChain none map []
  | next {id : FiberId} {map : ExpressionMap} {own others : List Entry} (head : Walks id map own)
      (rest : WalksChain ((tree.get? id).bind (·.sibling)) map others) :
      WalksChain (some id) map (own ++ others)

end

end

theorem walk_of_missing {s : Store} {d : Document} {t : FiberTree} {id : FiberId}
    {map : ExpressionMap} (h : t.get? id = none) : walk s d t id map = [] := by
  rw [walk]
  cases t.size with
  | zero => rfl
  | succ k => rw [walkTo, h]

/-! ## Links into forests -/

/-- The links of a fiber lead into two forests that stand behind it: one below it and one of its
following siblings. -/
structure FiberTree.LinksTo (t : FiberTree) (id : FiberId) (f : Fiber) (below behind : Forest) :
    Prop where
  found : t.get? id = some f
  child : f.child = (below.roots (id.index + 1)).head?
  sibling : f.sibling = (behind.roots (id.index + below.size + 1)).head?
  inside : below.Stands t (some id) (id.index + 1)
  rest : ∃ parent, behind.Stands t (some parent) (id.index + below.size + 1)
  bound : id.index + below.size + 1 + behind.size ≤ t.size

namespace Forest

variable {t : FiberTree} {n : Nat} {parent : FiberId} {x : Forest}

/-- Every number of a forest that stands below a fiber is that of a fiber in it. Its parent is the one
above, in whose chain it then is, or another fiber of the forest with a smaller number. -/
theorem Stands.linksTo (h : x.Stands t (some parent) n) (hsize : n + x.size ≤ t.size) {id : FiberId}
    (hle : n ≤ id.index) (hlt : id.index < n + x.size) :
    ∃ f below behind, t.LinksTo id f below behind ∧
      (f.parent = some parent ∧ id ∈ x.roots n ∨
        ∃ p, f.parent = some p ∧ n ≤ p.index ∧ p.index < id.index ∧ id ∈ t.children p) := by
  obtain ⟨i⟩ := id
  induction x generalizing parent n with
  | nil =>
    rw [size] at hlt
    omega
  | cons f below behind ihbelow ihbehind =>
    obtain ⟨hf, hbelow, hbehind⟩ := h
    dsimp only at hle hlt ihbelow ihbehind
    rw [size] at hsize hlt
    have hchildren : t.children ⟨n⟩ = below.roots (n + 1) := by
      rw [FiberTree.children, hf]
      exact FiberTree.chainTo_of_stands hbelow (by omega)
    rcases Nat.eq_or_lt_of_le hle with rfl | hgt
    · refine ⟨_, below, behind, ⟨hf, rfl, rfl, hbelow, ⟨parent, hbehind⟩, ?_⟩, .inl ⟨rfl, ?_⟩⟩
      · dsimp only
        omega
      · exact List.mem_cons_self
    by_cases hinside : i < n + 1 + below.size
    · obtain ⟨g, x, y, hlinks, hparent | ⟨p, hparent, hleast, hbefore, hmem⟩⟩ :=
        ihbelow hbelow (by omega) hgt hinside
      · exact ⟨g, x, y, hlinks, .inr ⟨⟨n⟩, hparent.1, Nat.le_refl n, hgt, hchildren ▸ hparent.2⟩⟩
      · exact ⟨g, x, y, hlinks, .inr ⟨p, hparent, Nat.le_of_succ_le hleast, hbefore, hmem⟩⟩
    · obtain ⟨g, x, y, hlinks, hparent | ⟨p, hparent, hleast, hbefore, hmem⟩⟩ :=
        ihbehind hbehind (by omega) (by omega) (by omega)
      · exact ⟨g, x, y, hlinks, .inl ⟨hparent.1, List.mem_cons_of_mem _ hparent.2⟩⟩
      · exact ⟨g, x, y, hlinks, .inr ⟨p, hparent, by omega, hbefore, hmem⟩⟩

theorem Stands.parent_of_mem_roots (h : x.Stands t (some parent) n) {id : FiberId}
    (hid : id ∈ x.roots n) : t.IsParent parent id := by
  induction x generalizing n with
  | nil => cases hid
  | cons f below behind _ ih =>
    rcases List.mem_cons.mp hid with rfl | hid
    · exact ⟨_, h.1, rfl⟩
    · exact ih h.2.2 hid

theorem nodup_roots (x : Forest) (n : Nat) : (x.roots n).Nodup := by
  induction x generalizing n with
  | nil => exact .nil
  | cons f below behind _ ih =>
    refine List.nodup_cons.mpr ⟨fun hmem => ?_, ih _⟩
    have hle := (roots_bounds hmem).1
    dsimp only at hle
    omega

theorem Stands.chained (h : x.Stands t (some parent) n) :
    t.Chained (x.roots n).head? (x.roots n) := by
  induction x generalizing n with
  | nil => exact .done
  | cons f below behind _ ih =>
    obtain ⟨hf, -, hbehind⟩ := h
    refine .next ?_
    rw [hf]
    exact ih hbehind

theorem Stands.traversed (h : x.Stands t (some parent) n) :
    t.Traversed (x.roots n).head? (FiberTree.idsFrom n x.size) := by
  induction x generalizing parent n with
  | nil => exact .done
  | cons f below behind ihbelow ihbehind =>
    obtain ⟨hf, hbelow, hbehind⟩ := h
    rw [size, FiberTree.idsFrom_cons]
    refine .visit ?_ ?_
    · rw [hf]
      exact ihbelow hbelow
    · rw [hf]
      exact ihbehind hbehind

/-- A fiber is walked once the chain below it is. -/
theorem walks_entriesOf {s : Store} {d : Document} {id : FiberId} {f : Fiber} {below : Forest}
    (hf : t.get? id = some f) (hchild : f.child = (below.roots n).head?)
    (hbelow : ∀ map, WalksChain s d t (below.roots n).head? map (below.entries s d map))
    (map : ExpressionMap) :
    Walks s d t id map (entriesOf s d f below.isNil (below.entries s d) map) := by
  unfold entriesOf
  cases hnode : f.node with
  | some node => exact .visual hf hnode (hchild ▸ hbelow map)
  | none =>
    cases below with
    | nil => exact .bare hf hnode hchild
    | cons g x y => exact .virtual hf hnode hchild (hbelow _)

theorem Stands.walksChain (h : x.Stands t (some parent) n) (s : Store) (d : Document)
    (map : ExpressionMap) : WalksChain s d t (x.roots n).head? map (x.entries s d map) := by
  induction x generalizing parent n map with
  | nil => exact .done
  | cons f below behind ihbelow ihbehind =>
    obtain ⟨hf, hbelow, hbehind⟩ := h
    refine .next (walks_entriesOf hf rfl (ihbelow hbelow) map) ?_
    rw [hf]
    exact ihbehind hbehind map

end Forest

namespace FiberTree.LinksTo

variable {t : FiberTree} {id : FiberId} {f : Fiber} {below behind : Forest}
  (h : t.LinksTo id f below behind)
include h

theorem children_eq : t.children id = below.roots (id.index + 1) := by
  rw [children, h.found, Option.bind_some, h.child]
  have hbound := h.bound
  exact chainTo_of_stands h.inside (by omega)

theorem chained : t.Chained f.child (t.children id) := by
  rw [h.children_eq, h.child]
  exact h.inside.chained

theorem sibling_bounds {next : FiberId} (hnext : f.sibling = some next) :
    id.index < next.index ∧ next.index < t.size := by
  rw [h.sibling] at hnext
  have hbounds := Forest.roots_bounds (List.mem_of_head? hnext)
  have hbound := h.bound
  omega

theorem child_bounds {first : FiberId} (hfirst : f.child = some first) :
    id.index < first.index ∧ first.index < t.size := by
  rw [h.child] at hfirst
  have hbounds := Forest.roots_bounds (List.mem_of_head? hfirst)
  have hbound := h.bound
  omega

/-- The recursion with a bound gives what the recursion without one comes to. -/
theorem walk_eq (s : Store) (d : Document) (map : ExpressionMap) :
    walk s d t id map = entriesOf s d f below.isNil (below.entries s d) map := by
  obtain ⟨k, hk⟩ : ∃ k, t.size = k + 1 := ⟨t.size - 1, by have := h.bound; omega⟩
  have hbound := h.bound
  have hinside := fun map =>
    Forest.walkTo_eq s d h.inside (by omega) (show below.size ≤ k by omega) map
  rw [walk, hk, walkTo, h.found, entriesOf]
  simp only [h.children_eq, hinside, h.child]
  cases f.node with
  | some node => rfl
  | none => cases below <;> rfl

theorem walks (s : Store) (d : Document) (map : ExpressionMap) :
    Walks s d t id map (walk s d t id map) := by
  rw [h.walk_eq]
  exact Forest.walks_entriesOf h.found h.child (h.inside.walksChain s d) map

theorem walksChain (s : Store) (d : Document) (map : ExpressionMap) :
    WalksChain s d t (some id) map (walkChain s d t id map) := by
  obtain ⟨parent, hrest⟩ := h.rest
  have hbound := h.bound
  have hchain : t.chain id = id :: behind.roots (id.index + below.size + 1) := by
    rw [chain, chainTo, h.found, Option.bind_some, h.sibling]
    exact congrArg _ (chainTo_of_stands hrest (by omega))
  have hothers : (behind.roots (id.index + below.size + 1)).flatMap
      (fun id => walk s d t id map) = behind.entries s d map :=
    Forest.walkTo_eq s d hrest (by omega) (by omega) map
  rw [walkChain, hchain, List.flatMap_cons, hothers]
  refine .next (h.walks s d map) ?_
  rw [h.found, Option.bind_some, h.sibling]
  exact hrest.walksChain s d map

end FiberTree.LinksTo

/-! ## Rendered trees -/

/-- The fibers form a tree below the root and are numbered in the order in which going down before
going on meets them. -/
structure FiberTree.InPreOrder (t : FiberTree) : Prop where
  root : ∃ f, t.get? rootId = some f ∧ f.kind = .root ∧ f.node = none ∧ f.parent = none ∧
    f.sibling = none
  /-- Every other fiber is in the chain of its parent, once, and in no other. -/
  parent : ∀ id, id ≠ rootId → id.index < t.size → ∃ f p, t.get? id = some f ∧ f.parent = some p ∧
    p.index < id.index ∧ ∀ q, (t.children q).count id = if q = p then 1 else 0
  root_not_mem : ∀ q, rootId ∉ t.children q
  sibling : ∀ id f next, t.get? id = some f → f.sibling = some next →
    id.index < next.index ∧ next.index < t.size
  child : ∀ id f first, t.get? id = some f → f.child = some first →
    id.index < first.index ∧ first.index < t.size
  reached : ∀ id, id.index < t.size →
    Relation.ReflTransGen (fun p c => c ∈ t.children p) rootId id
  traversed : t.Traversed (some rootId) t.ids
  chained : ∀ id, t.Chained ((t.get? id).bind (·.child)) (t.children id)

section

variable {depth : Nat} {container : NodeId} {v : Value} {s s' : Store} {d d' : Document}
  {x : Forest} {tree : FiberTree} {l : List Creation}

theorem Rendered.root_linksTo (h : Rendered depth container v s d x tree s' d' l) :
    tree.LinksTo FiberTree.rootId { rootFiber v with child := (x.roots 1).head? } x .nil := by
  obtain ⟨hsize, -, hroot, hinside, -⟩ := h.stands
  refine ⟨hroot, rfl, rfl, hinside, ⟨FiberTree.rootId, trivial⟩, ?_⟩
  rw [hsize, Forest.size]
  simp [FiberTree.rootId, FiberTree.size, FiberTree.empty, Forest.size]

theorem Rendered.size_eq (h : Rendered depth container v s d x tree s' d' l) :
    tree.size = 1 + x.size := by
  rw [h.stands.size, Forest.size, Forest.size]
  simp [FiberTree.size, FiberTree.empty]
  omega

/-- Every fiber but the root has a parent with a smaller number and is in the chain of it. -/
theorem Rendered.linksTo (h : Rendered depth container v s d x tree s' d' l) {id : FiberId}
    (hid : id ≠ FiberTree.rootId) (hlt : id.index < tree.size) :
    ∃ f below behind p, tree.LinksTo id f below behind ∧ f.parent = some p ∧
      p.index < id.index ∧ id ∈ tree.children p := by
  have hsize := h.size_eq
  have hpos : 1 ≤ id.index := by
    obtain ⟨i⟩ := id
    rcases Nat.eq_zero_or_pos i with rfl | hpos
    · exact absurd rfl hid
    · exact hpos
  have hroot := h.root_linksTo
  obtain ⟨f, below, behind, hlinks, ⟨hparent, hmem⟩ | ⟨p, hparent, -, hbefore, hmem⟩⟩ :=
    hroot.inside.linksTo (by dsimp only [FiberTree.rootId]; omega)
      (by dsimp only [FiberTree.rootId]; omega) (by dsimp only [FiberTree.rootId]; omega)
  · exact ⟨f, below, behind, _, hlinks, hparent, hpos, hroot.children_eq ▸ hmem⟩
  · exact ⟨f, below, behind, p, hlinks, hparent, hbefore, hmem⟩

theorem Rendered.exists_linksTo (h : Rendered depth container v s d x tree s' d' l) {id : FiberId}
    (hlt : id.index < tree.size) : ∃ f below behind, tree.LinksTo id f below behind := by
  by_cases hid : id = FiberTree.rootId
  · subst hid
    exact ⟨_, _, _, h.root_linksTo⟩
  · obtain ⟨f, below, behind, -, hlinks, -⟩ := h.linksTo hid hlt
    exact ⟨f, below, behind, hlinks⟩

/-- The children of a fiber stand behind it and have it as their parent. -/
theorem Rendered.bounds_of_mem_children (h : Rendered depth container v s d x tree s' d' l)
    {p c : FiberId} (hc : c ∈ tree.children p) : p.index < c.index ∧ tree.IsParent p c := by
  rcases Nat.lt_or_ge p.index tree.size with hlt | hge
  · obtain ⟨f, below, behind, hlinks⟩ := h.exists_linksTo hlt
    rw [hlinks.children_eq] at hc
    exact ⟨(Forest.roots_bounds hc).1, hlinks.inside.parent_of_mem_roots hc⟩
  · rw [FiberTree.children_of_missing (FiberTree.get?_eq_none hge)] at hc
    cases hc

theorem Rendered.nodup_children (h : Rendered depth container v s d x tree s' d' l) (p : FiberId) :
    (tree.children p).Nodup := by
  rcases Nat.lt_or_ge p.index tree.size with hlt | hge
  · obtain ⟨f, below, behind, hlinks⟩ := h.exists_linksTo hlt
    rw [hlinks.children_eq]
    exact Forest.nodup_roots _ _
  · rw [FiberTree.children_of_missing (FiberTree.get?_eq_none hge)]
    exact .nil

/-- A parent has a smaller number, so every way up ends at the root. -/
theorem Rendered.reached (h : Rendered depth container v s d x tree s' d' l) {id : FiberId}
    (hlt : id.index < tree.size) :
    Relation.ReflTransGen (fun p c => c ∈ tree.children p) FiberTree.rootId id := by
  obtain ⟨i⟩ := id
  induction i using Nat.strong_induction_on with
  | _ i ih =>
    by_cases hid : (⟨i⟩ : FiberId) = FiberTree.rootId
    · rw [hid]
    · obtain ⟨-, -, -, ⟨p⟩, -, -, hbefore, hmem⟩ := h.linksTo hid hlt
      dsimp only at hbefore hlt
      exact (ih p hbefore (show p < tree.size by omega)).tail hmem

theorem Rendered.traversed (h : Rendered depth container v s d x tree s' d' l) :
    tree.Traversed (some FiberTree.rootId) tree.ids := by
  have hroot := h.root_linksTo
  rw [FiberTree.ids_eq, h.size_eq, Nat.add_comm, FiberTree.idsFrom_cons 0 x.size 0]
  refine .visit ?_ ?_
  · rw [hroot.found]
    exact hroot.inside.traversed
  · rw [hroot.found]
    exact .done

/-- Rendering makes a tree whose fibers are numbered in pre-order. -/
theorem Rendered.inPreOrder (h : Rendered depth container v s d x tree s' d' l) :
    tree.InPreOrder where
  root := ⟨_, h.root_linksTo.found, rfl, rfl, rfl, rfl⟩
  parent id hid hlt := by
    obtain ⟨f, below, behind, p, hlinks, hparent, hbefore, hmem⟩ := h.linksTo hid hlt
    refine ⟨f, p, hlinks.found, hparent, hbefore, fun q => ?_⟩
    split
    next hq => exact hq ▸ List.count_eq_one_of_mem (h.nodup_children p) hmem
    next hq =>
      refine List.count_eq_zero_of_not_mem fun hother => hq ?_
      obtain ⟨g, hg, hgparent⟩ := (h.bounds_of_mem_children hother).2
      have hsame : f = g := Option.some.inj (hlinks.found.symm.trans hg)
      rw [hsame, hgparent] at hparent
      exact Option.some.inj hparent
  root_not_mem q hmem := Nat.not_lt_zero _ (h.bounds_of_mem_children hmem).1
  sibling id f next hf hnext := by
    obtain ⟨g, below, behind, hlinks⟩ := h.exists_linksTo (FiberTree.lt_size_of_get? hf)
    obtain rfl : f = g := Option.some.inj (hf.symm.trans hlinks.found)
    exact hlinks.sibling_bounds hnext
  child id f first hf hfirst := by
    obtain ⟨g, below, behind, hlinks⟩ := h.exists_linksTo (FiberTree.lt_size_of_get? hf)
    obtain rfl : f = g := Option.some.inj (hf.symm.trans hlinks.found)
    exact hlinks.child_bounds hfirst
  reached _ hlt := h.reached hlt
  traversed := h.traversed
  chained id := by
    rcases Nat.lt_or_ge id.index tree.size with hlt | hge
    · obtain ⟨f, below, behind, hlinks⟩ := h.exists_linksTo hlt
      rw [hlinks.found]
      exact hlinks.chained
    · have hnone := FiberTree.get?_eq_none hge
      rw [hnone, FiberTree.children_of_missing hnone]
      exact .done

/-- The recursion over a fiber of a rendered tree needs no bound. -/
theorem Rendered.walks (h : Rendered depth container v s d x tree s' d' l) (store : Store)
    (document : Document) (id : FiberId) (map : ExpressionMap) :
    Walks store document tree id map (walk store document tree id map) := by
  rcases Nat.lt_or_ge id.index tree.size with hlt | hge
  · obtain ⟨f, below, behind, hlinks⟩ := h.exists_linksTo hlt
    exact hlinks.walks store document map
  · have hnone := FiberTree.get?_eq_none hge
    rw [walk_of_missing hnone]
    exact .missing hnone

/-- The loop over the siblings of a fiber needs none either. -/
theorem Rendered.walksChain (h : Rendered depth container v s d x tree s' d' l) (store : Store)
    (document : Document) (id : FiberId) (map : ExpressionMap) :
    WalksChain store document tree (some id) map (walkChain store document tree id map) := by
  rcases Nat.lt_or_ge id.index tree.size with hlt | hge
  · obtain ⟨f, below, behind, hlinks⟩ := h.exists_linksTo hlt
    exact hlinks.walksChain store document map
  · have hnone := FiberTree.get?_eq_none hge
    have hchain : tree.chain id = [id] := by
      rw [FiberTree.chain, FiberTree.chainTo, hnone]
      cases tree.size <;> rfl
    rw [walkChain, hchain, List.flatMap_singleton, walk_of_missing hnone]
    refine .next (.missing hnone) ?_
    rw [hnone]
    exact .done

end

/-- The fibers of every value that is rendered form a tree and are numbered in pre-order. Nothing
bounds the loops that follow the links, and they come to an end at every fiber. -/
theorem rendered_tree_in_preorder {depth : Nat} {container : NodeId} {v : Value} {s s' : Store}
    {d d' : Document} {tree : FiberTree}
    (h : renderInto depth container v s d = (.ok tree, s', d')) :
    tree.InPreOrder ∧ ∀ (store : Store) (document : Document) (id : FiberId) (map : ExpressionMap),
      Walks store document tree id map (walk store document tree id map) ∧
      WalksChain store document tree (some id) map (walkChain store document tree id map) := by
  obtain ⟨x, l, hrendered⟩ := exists_rendered h
  refine ⟨hrendered.inPreOrder, fun store document id map => ⟨?_, ?_⟩⟩
  · exact hrendered.walks store document id map
  · exact hrendered.walksChain store document id map

/-- A text, then a list in the list with an element and another text, then an empty element. -/
def listInList : Value :=
  .array 0 [.text "a", .array 1 [.element ⟨2, .host "p", 3, [("children", .array 4 [.text "b",
    .element ⟨5, .host "b", 6, [], none, none⟩])], none, none⟩, .text "c"],
    .element ⟨7, .host "hr", 8, [], none, none⟩]

/-- The fragment of the inner list comes right before what is in it. -/
theorem rendered_tree_in_preorder_list : ∃ tree s' d',
    renderInto 6 ⟨0⟩ listInList .empty (Document.empty.createContainer).2 = (.ok tree, s', d') ∧
      tree.fibers.toList.map (·.kind) =
        [.root, .text, .fragment, .element, .text, .element, .text, .element] ∧
      tree.children FiberTree.rootId = [⟨1⟩, ⟨2⟩, ⟨7⟩] ∧ tree.children ⟨2⟩ = [⟨3⟩, ⟨6⟩] ∧
      tree.InPreOrder := by
  obtain ⟨tree, s', d', hrender, hkinds, hroot, hlist⟩ : ∃ tree s' d',
      renderInto 6 ⟨0⟩ listInList .empty (Document.empty.createContainer).2 = (.ok tree, s', d') ∧
        tree.fibers.toList.map (·.kind) =
          [.root, .text, .fragment, .element, .text, .element, .text, .element] ∧
        tree.children FiberTree.rootId = [⟨1⟩, ⟨2⟩, ⟨7⟩] ∧ tree.children ⟨2⟩ = [⟨3⟩, ⟨6⟩] :=
    ⟨_, _, _, rfl, rfl, rfl, rfl⟩
  exact ⟨tree, s', d', hrender, hkinds, hroot, hlist, (rendered_tree_in_preorder hrender).1⟩

end MarkupTrace.Render
