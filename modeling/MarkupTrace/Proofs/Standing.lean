import MarkupTrace.Proofs.Planting
import MarkupTrace.Structure.Walk

/-!
# Fibers stand in the order they were made

After mounting, the fibers of the forest stand in the tree one behind the other, each linked to its
parent, its first child and its next sibling as the forest has them. Walking the tree is then a
recursion on the forest.
-/

namespace MarkupTrace.Render

open Eval Structure

namespace Forest

/-- The forest stands in a tree from the number `n` on. Its top fibers are linked if there is a fiber
above them. -/
def Stands (t : FiberTree) (above : Option FiberId) (n : Nat) : Forest → Prop
  | nil => True
  | cons f below behind =>
    t.get? ⟨n⟩ = some { f with
      parent := above
      child := (below.roots (n + 1)).head?
      sibling := if above.isSome then (behind.roots (n + below.size + 1)).head? else none } ∧
    below.Stands t (some ⟨n⟩) (n + 1) ∧ behind.Stands t above (n + below.size + 1)

variable {t t' : FiberTree} {above : Option FiberId} {n : Nat} {x y : Forest}

theorem roots_bounds {id : FiberId} (h : id ∈ x.roots n) : n ≤ id.index ∧ id.index < n + x.size := by
  induction x generalizing n with
  | nil => cases h
  | cons f below behind _ ih =>
    rw [size]
    rcases List.mem_cons.mp h with rfl | h
    · dsimp only
      omega
    · have := ih h
      omega

theorem Stands.congr (h : x.Stands t above n)
    (hsame : ∀ i, n ≤ i → i < n + x.size → t'.get? ⟨i⟩ = t.get? ⟨i⟩) : x.Stands t' above n := by
  induction x generalizing above n with
  | nil => trivial
  | cons f below behind ihbelow ihbehind =>
    obtain ⟨hf, hbelow, hbehind⟩ := h
    rw [size] at hsame
    refine ⟨?_, ihbelow hbelow ?_, ihbehind hbehind ?_⟩
    · rw [hsame n (by omega) (by omega), hf]
    · intro i hi hlt
      exact hsame i (by omega) (by omega)
    · intro i hi hlt
      exact hsame i (by omega) (by omega)

/-- Fibers on top are not linked to one another before they get a fiber above them, so a forest can
be cut there. -/
theorem Stands.append (hx : x.Stands t none n) (hy : y.Stands t none (n + x.size)) :
    (x.append y).Stands t none n := by
  induction x generalizing n with
  | nil => exact hy
  | cons f below behind _ ih =>
    obtain ⟨hf, hbelow, hbehind⟩ := hx
    have hsum : n + (below.size + behind.size + 1) = n + below.size + 1 + behind.size := by omega
    rw [size, hsum] at hy
    exact ⟨hf, hbelow, ih hbehind hy⟩

end Forest

/-! ## Links -/

namespace FiberTree

open Forest

theorem get?_linkSiblings_of_not_mem {parent id : FiberId} {ids : List FiberId} (h : id ∉ ids)
    (t : FiberTree) : (t.linkSiblings parent ids).get? id = t.get? id := by
  induction ids generalizing t with
  | nil => rfl
  | cons i ids ih =>
    rw [List.mem_cons, not_or] at h
    rw [linkSiblings, ih h.2, get?_modify, if_neg (Ne.symm h.1)]

theorem stands_linkSiblings {t : FiberTree} {n : Nat} {x : Forest} (parent : FiberId)
    (h : x.Stands t none n) : x.Stands (t.linkSiblings parent (x.roots n)) (some parent) n := by
  induction x generalizing t n with
  | nil => trivial
  | cons f below behind _ ih =>
    obtain ⟨hf, hbelow, hbehind⟩ := h
    rw [roots, linkSiblings]
    generalize hlinked : (fun g : Fiber => ({ g with
      parent := some parent
      sibling := (behind.roots (n + below.size + 1)).head? } : Fiber)) = link
    have hother : ∀ i, i ≠ n → (t.modify ⟨n⟩ link).get? ⟨i⟩ = t.get? ⟨i⟩ := by
      intro i hi
      rw [get?_modify, if_neg]
      intro heq
      exact hi (congrArg FiberId.index heq).symm
    have hearlier : ∀ i, i < n + below.size + 1 →
        ((t.modify ⟨n⟩ link).linkSiblings parent (behind.roots (n + below.size + 1))).get? ⟨i⟩ =
          (t.modify ⟨n⟩ link).get? ⟨i⟩ := by
      intro i hi
      refine get?_linkSiblings_of_not_mem ?_ _
      intro hmem
      have := (roots_bounds hmem).1
      dsimp only at this
      omega
    refine ⟨?_, ?_, ?_⟩
    · rw [hearlier n (by omega), get?_modify, if_pos rfl, hf, ← hlinked]
      rfl
    · refine hbelow.congr fun i hi hlt => ?_
      rw [hearlier i (by omega), hother i (by omega)]
    · exact ih (hbehind.congr fun i hi _ => hother i (by omega))

/-- What linking the top fibers of a forest does: they come to stand below the fiber. -/
theorem stands_link {t : FiberTree} {n : Nat} {x : Forest} {parent : FiberId}
    (h : x.Stands t none n) (hparent : parent.index < n) :
    x.Stands (t.link parent (x.roots n)) (some parent) n := by
  refine (stands_linkSiblings parent h).congr fun i hi _ => ?_
  have hne : parent ≠ ⟨i⟩ := by
    rintro rfl
    dsimp only at hparent
    omega
  rw [link, get?_modify, if_neg hne]

theorem get?_link_of_lt {t : FiberTree} {n : Nat} (x : Forest) {parent id : FiberId}
    (hid : id.index < n) :
    (t.link parent (x.roots n)).get? id = if parent = id then
      (t.get? id).map fun f => { f with child := (x.roots n).head? } else t.get? id := by
  have hnot : id ∉ x.roots n := by
    intro hmem
    have := (roots_bounds hmem).1
    omega
  rw [link, get?_modify, get?_linkSiblings_of_not_mem hnot]

end FiberTree

/-! ## Mounting -/

/-- A forest was added to a tree. -/
structure Forest.Added (t t' : FiberTree) (x : Forest) : Prop where
  size : t'.size = t.size + x.size
  old : ∀ i < t.size, t'.get? ⟨i⟩ = t.get? ⟨i⟩
  stands : x.Stands t' none t.size

namespace Forest.Added

variable {t t₁ t₂ : FiberTree} {x y : Forest}

theorem nil (t : FiberTree) : Added t t .nil := ⟨rfl, fun _ _ => rfl, trivial⟩

theorem append (h : Added t t₁ x) (h' : Added t₁ t₂ y) : Added t t₂ (x.append y) := by
  refine ⟨?_, ?_, ?_⟩
  · rw [h'.size, h.size, Forest.size_append]
    omega
  · intro i hi
    have := h.size
    rw [h'.old i (by omega), h.old i hi]
  · have hx : x.Stands t₂ none t.size := by
      refine h.stands.congr fun i _ hlt => h'.old i ?_
      rw [h.size]
      exact hlt
    exact hx.append (h.size ▸ h'.stands)

/-- A fiber that is not linked is added first, and then all that is put below it. -/
theorem cons {f : Fiber} (hf : f.parent = none ∧ f.child = none ∧ f.sibling = none)
    (h : Added (t.add f).2 t₁ x) :
    Added t (t₁.link ⟨t.size⟩ (x.roots (t.size + 1))) (.cons f x .nil) := by
  obtain ⟨hparent, -, hsibling⟩ := hf
  have hsize := h.size
  have hstands := h.stands
  rw [FiberTree.size_add] at hsize hstands
  have hadded : ∀ i < t.size + 1, t₁.get? ⟨i⟩ = (t.add f).2.get? ⟨i⟩ := by
    intro i hi
    exact h.old i (by rwa [FiberTree.size_add])
  refine ⟨?_, ?_, ?_, ?_, trivial⟩
  · rw [FiberTree.size_link, hsize]
    simp only [Forest.size]
    omega
  · intro i hi
    have hne : (⟨t.size⟩ : FiberId) ≠ ⟨i⟩ := by
      intro heq
      have := congrArg FiberId.index heq
      dsimp only at this
      omega
    rw [FiberTree.get?_link_of_lt x (by dsimp only; omega), if_neg hne, hadded i (by omega),
      FiberTree.get?_add_of_lt hi]
  · have hself := FiberTree.get?_add_self f t
    rw [FiberTree.get?_link_of_lt x (by dsimp only; omega), if_pos rfl, hadded _ (by omega)]
    rw [show (t.add f).2.get? ⟨t.size⟩ = some f from hself]
    simp [hparent, hsibling]
  · exact FiberTree.stands_link hstands (by dsimp only; omega)

/-- A fiber with nothing below it is linked to nothing. -/
theorem single {f : Fiber} (hf : f.parent = none ∧ f.child = none ∧ f.sibling = none) :
    Added t (t.add f).2 (.cons f .nil .nil) := by
  refine ⟨?_, ?_, ?_, trivial, trivial⟩
  · simp [Forest.size]
  · exact fun i hi => FiberTree.get?_add_of_lt hi f
  · have hself := FiberTree.get?_add_self f t
    rw [show (t.add f).2.get? ⟨t.size⟩ = some f from hself]
    obtain ⟨kind, type, node, props, source, parent, child, sibling⟩ := f
    obtain ⟨rfl, rfl, rfl⟩ := hf
    rfl

end Forest.Added

/-- Every mounting adds its forest to the tree. -/
def Adds (J : Planting) : Prop :=
  ∀ v parent m x m' l, J v parent m x m' l → x.Added m.tree m'.tree

section

variable {J : Planting} (hJ : Adds J) {parent : NodeId} {m m' : Mounting} {l : List Creation}
include hJ

theorem ItemPlanted.adds {v : Value} {x : Forest} (h : ItemPlanted J parent v m x m' l) :
    x.Added m.tree m'.tree := by
  cases h with
  | nested mounted => exact (hJ _ _ _ _ _ _ mounted).cons ⟨rfl, rfl, rfl⟩
  | other single mounted => exact hJ _ _ _ _ _ _ mounted

theorem ItemsPlanted.adds {vs : List Value} {xs : List Forest}
    (h : ItemsPlanted J parent vs m xs m' l) : (Forest.join xs).Added m.tree m'.tree := by
  induction h with
  | nil => exact .nil _
  | cons head tail ih => exact (head.adds hJ).append ih

theorem ContentPlanted.adds {f : Fiber} {t : FiberTree} {v : Option Value} {x : Forest}
    (hf : f.parent = none ∧ f.child = none ∧ f.sibling = none) (ht : m.tree = (t.add f).2)
    (h : ContentPlanted J ⟨t.size⟩ parent v m x m' l) : (Forest.cons f x .nil).Added t m'.tree := by
  cases h with
  | absent => exact ht ▸ .single hf
  | empty hidden => exact ht ▸ .single hf
  | shown shown filled =>
    rw [show (m.appendText parent _).tree = m.tree from rfl, ht]
    exact .single hf
  | @other v m m₁ x l composed mounted =>
    have hadded := hJ _ _ _ _ _ _ mounted
    rw [ht] at hadded
    have hsize : m.tree.size = t.size + 1 := by rw [ht, FiberTree.size_add]
    have hlinked := hadded.cons hf
    rw [← hsize] at hlinked
    exact hlinked

theorem Planted.adds (depth : Nat) : Adds (Planted J depth) := by
  intro v parent m x m' l h
  cases h with
  | absent nothing => exact .nil _
  | text shown filled => exact .single ⟨rfl, rfl, rfl⟩
  | array mounted => exact mounted.adds hJ
  | host type content => exact content.adds hJ ⟨rfl, rfl, rfl⟩ rfl
  | component type called mounted => exact (hJ _ _ _ _ _ _ mounted).cons ⟨rfl, rfl, rfl⟩

end

theorem Plants.adds (depth n : Nat) : Adds (Plants depth n) := by
  induction n with
  | zero => exact fun _ _ _ _ _ _ h => h.elim
  | succ n ih => exact Planted.adds ih depth

theorem Rendered.stands {depth : Nat} {container : NodeId} {v : Value} {s s' : Store}
    {d d' : Document} {x : Forest} {tree : FiberTree} {l : List Creation}
    (h : Rendered depth container v s d x tree s' d' l) :
    (Forest.cons (rootFiber v) x .nil).Added .empty tree := by
  obtain ⟨t, hplants, rfl⟩ := h.planted
  exact ((Plants.adds depth depth) _ _ _ _ _ _ hplants).cons ⟨rfl, rfl, rfl⟩

/-! ## Walking -/

theorem FiberTree.chainTo_of_stands {t : FiberTree} {parent : FiberId} {n count : Nat} {x : Forest}
    (h : x.Stands t (some parent) n) (hcount : x.size ≤ count) :
    t.chainTo count (x.roots n).head? = x.roots n := by
  induction x generalizing n count with
  | nil => cases count <;> rfl
  | cons f below behind _ ih =>
    obtain ⟨hf, -, hbehind⟩ := h
    rw [Forest.size] at hcount
    obtain ⟨k, rfl⟩ : ∃ k, count = k + 1 := ⟨count - 1, by omega⟩
    have hrest := ih hbehind (show behind.size ≤ k by omega)
    simp only [Forest.roots, List.head?_cons, FiberTree.chainTo, hf, Option.bind_some,
      Option.isSome_some, if_true]
    rw [hrest]

/-- The entries of a fiber, given those of what is below it, if there is anything. -/
def entriesOf (s : Store) (d : Document) (f : Fiber) (isBare : Bool)
    (below : ExpressionMap → List Entry) (map : ExpressionMap) : List Entry :=
  match f.node with
  | some node => [visualEntry s d f node (below map) map]
  | none =>
    if isBare then [.placeholder]
    else contribute (.ofFiber f) (below (map.insertAll (recordedFor s f)))

namespace Forest

def isNil : Forest → Bool
  | nil => true
  | cons _ _ _ => false

/-- The entries of a forest. -/
def entries (s : Store) (d : Document) : Forest → ExpressionMap → List Entry
  | nil, _ => []
  | cons f below behind, map =>
    entriesOf s d f below.isNil (below.entries s d) map ++ behind.entries s d map

theorem walkTo_eq (s : Store) (d : Document) {t : FiberTree} {above : Option FiberId} {n depth : Nat}
    {x : Forest} (h : x.Stands t above n) (hsize : n + x.size ≤ t.size) (hdepth : x.size ≤ depth)
    (map : ExpressionMap) :
    ((x.roots n).flatMap fun id => walkTo s d t depth id map) = x.entries s d map := by
  induction x generalizing above n depth map with
  | nil => rfl
  | cons f below behind ihbelow ihbehind =>
    obtain ⟨hf, hbelow, hbehind⟩ := h
    rw [size] at hsize hdepth
    rw [roots, List.flatMap_cons, ihbehind hbehind (by omega) (by omega), entries]
    congr 1
    obtain ⟨k, rfl⟩ : ∃ k, depth = k + 1 := ⟨depth - 1, by omega⟩
    have hchildren : t.children ⟨n⟩ = below.roots (n + 1) := by
      rw [FiberTree.children, hf]
      exact FiberTree.chainTo_of_stands hbelow (by omega)
    have hdeep : below.size ≤ k := by omega
    have hwalk := fun map => ihbelow hbelow (show n + 1 + below.size ≤ t.size by omega) hdeep map
    rw [walkTo, hf, entriesOf]
    simp only [hchildren, hwalk]
    cases f.node with
    | some node => rfl
    | none => cases below <;> rfl

end Forest

section

variable {depth : Nat} {container : NodeId} {v : Value} {s s' : Store} {d d' : Document}
  {x : Forest} {tree : FiberTree} {l : List Creation}

/-- A rendered tree is walked as its forest, with any store and from any map. -/
theorem Rendered.walk_eq (h : Rendered depth container v s d x tree s' d' l) (store : Store)
    (document : Document) (map : ExpressionMap) :
    walk store document tree FiberTree.rootId map =
      (Forest.cons (rootFiber v) x .nil).entries store document map := by
  have hadded := h.stands
  have hsize : tree.size = (Forest.cons (rootFiber v) x .nil).size := by
    rw [hadded.size]
    exact Nat.zero_add _
  have hwalk : [FiberTree.rootId].flatMap
      (fun id => walkTo store document tree tree.size id map) =
        (Forest.cons (rootFiber v) x .nil).entries store document map :=
    Forest.walkTo_eq store document hadded.stands
      (Nat.le_of_eq (by rw [hsize]; exact Nat.zero_add _)) (Nat.le_of_eq hsize.symm) map
  rwa [List.flatMap_singleton] at hwalk

/-- The structure of a rendered tree is that of its forest. There is none if nothing was rendered. -/
theorem Rendered.ofTree?_eq (h : Rendered depth container v s d x tree s' d' l) :
    ofTree? s' d' tree = if x.isNil then none else
      some ((Forest.cons (rootFiber v) x .nil).entries s' d' .empty) := by
  have hsome : tree.get? FiberTree.rootId = some { rootFiber v with
      parent := none, child := (x.roots 1).head?, sibling := none } := h.stands.stands.1
  have hroot : tree.root? = some FiberTree.rootId := by
    rw [FiberTree.root?, if_neg]
    intro hempty
    have hnone : tree.get? FiberTree.rootId = none := by
      rw [FiberTree.get?, Array.isEmpty_iff.mp hempty]
      rfl
    rw [hnone] at hsome
    cases hsome
  unfold ofTree?
  rw [hroot]
  simp only [Option.bind_eq_bind, Option.bind_some, hsome]
  rw [h.walk_eq]
  cases x <;> rfl

end

end MarkupTrace.Render
