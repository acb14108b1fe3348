import MarkupTrace.Proofs.Derivations
import MarkupTrace.Render.Mount

/-!
# What mounting does

A mounting that succeeds is spelled out as a forest of the fibers it made, in the order it made them,
along with the states it went through and the elements that components created on the way. A fiber
is made before all that is below it, so its number is its place in the forest.
-/

namespace MarkupTrace.Render

open Eval

/-! ## Forests -/

/-- Fibers in order: the first, those below it, and those behind it. -/
inductive Forest where
  | nil
  | cons (fiber : Fiber) (below behind : Forest)

namespace Forest

def size : Forest → Nat
  | nil => 0
  | cons _ below behind => below.size + behind.size + 1

/-- The numbers of the fibers on top, if the first has the number `n`. -/
def roots (n : Nat) : Forest → List FiberId
  | nil => []
  | cons _ below behind => ⟨n⟩ :: behind.roots (n + below.size + 1)

/-- A forest behind another. -/
def append : Forest → Forest → Forest
  | nil, further => further
  | cons f below behind, further => cons f below (behind.append further)

def join : List Forest → Forest
  | [] => nil
  | x :: xs => x.append (join xs)

@[simp] theorem append_nil (x : Forest) : x.append nil = x := by
  induction x with
  | nil => rfl
  | cons f below behind _ ih => rw [append, ih]

@[simp] theorem size_append (x y : Forest) : (x.append y).size = x.size + y.size := by
  induction x with
  | nil => simp [append, size]
  | cons f below behind _ ih =>
    simp only [append, size, ih]
    omega

theorem roots_append (n : Nat) (x y : Forest) :
    (x.append y).roots n = x.roots n ++ y.roots (n + x.size) := by
  induction x generalizing n with
  | nil => rfl
  | cons f below behind _ ih =>
    have hsum : n + below.size + 1 + behind.size = n + (below.size + behind.size + 1) := by omega
    rw [append, roots, ih, hsum]
    rfl

end Forest

/-! ## States -/

namespace Mounting

def plant (f : Fiber) (m : Mounting) : Mounting := { m with tree := (m.tree.add f).2 }

def link (parent : FiberId) (children : List FiberId) (m : Mounting) : Mounting :=
  { m with tree := m.tree.link parent children }

/-- The record of a source is there, new or not. -/
def withSource (source : Option Value) (m : Mounting) : Mounting :=
  { m with store := (sourceRecord source m.store).2 }

def appendText (parent : NodeId) (content : String) (m : Mounting) : Mounting :=
  { m with document := (m.document.createText content).2.appendChild parent ⟨m.document.size⟩ }

def appendElement (parent : NodeId) (tag : String) (attributes : Keyed String) (m : Mounting) :
    Mounting :=
  let d := (m.document.createElement tag).2
  let d := attributes.foldl (fun d a => d.setAttribute ⟨m.document.size⟩ a.1 a.2) d
  { m with document := d.appendChild parent ⟨m.document.size⟩ }

end Mounting

def hostFiber (e : CreatedElement Value) (node : NodeId) (s : Store) : Fiber :=
  { Fiber.new .element (some node) (Value.props e) with
    type := some e.type, source := (sourceRecord e.source s).1 }

def componentFiber (e : CreatedElement Value) (s : Store) : Fiber :=
  { Fiber.new .component none (Value.props e) with
    type := some e.type, source := (sourceRecord e.source s).1 }

/-- The state in which the content of a host element is mounted. -/
def Mounting.host (e : CreatedElement Value) (tag : String) (parent : NodeId) (m : Mounting) :
    Mounting :=
  ((m.appendElement parent tag (attributesOf e.props)).withSource e.source).plant
    (hostFiber e ⟨m.document.size⟩ m.store)

/-- The state in which a component is called. -/
def Mounting.component (e : CreatedElement Value) (m : Mounting) : Mounting :=
  (m.withSource e.source).plant (componentFiber e m.store)

/-! ## Rules -/

/-- Mounting a value into a node takes one state to another, making fibers and creating elements. -/
abbrev Planting := Value → NodeId → Mounting → Forest → Mounting → List Creation → Prop

section

variable (J : Planting)

/-- An item of an array. -/
inductive ItemPlanted (parent : NodeId) :
    Value → Mounting → Forest → Mounting → List Creation → Prop
  | nested {identity : Nat} {items : List Value} {m m' : Mounting} {x : Forest}
      {l : List Creation}
      (mounted : J (.array identity items) parent
        (m.plant (.new .fragment none (.array identity items))) x m' l) :
      ItemPlanted parent (.array identity items) m
        (.cons (.new .fragment none (.array identity items)) x .nil)
        (m'.link ⟨m.tree.size⟩ (x.roots (m.tree.size + 1))) l
  | other {v : Value} {m m' : Mounting} {x : Forest} {l : List Creation}
      (single : ∀ identity items, v ≠ .array identity items) (mounted : J v parent m x m' l) :
      ItemPlanted parent v m x m' l

/-- The items of an array, each with a forest of its own. -/
inductive ItemsPlanted (parent : NodeId) :
    List Value → Mounting → List Forest → Mounting → List Creation → Prop
  | nil {m : Mounting} : ItemsPlanted parent [] m [] m []
  | cons {v : Value} {vs : List Value} {m m₁ m₂ : Mounting} {x : Forest} {xs : List Forest}
      {l₁ l₂ : List Creation} (head : ItemPlanted J parent v m x m₁ l₁)
      (tail : ItemsPlanted parent vs m₁ xs m₂ l₂) :
      ItemsPlanted parent (v :: vs) m (x :: xs) m₂ (l₁ ++ l₂)

/-- The content of a host element. -/
inductive ContentPlanted (fiber : FiberId) (node : NodeId) :
    Option Value → Mounting → Forest → Mounting → List Creation → Prop
  | absent {m : Mounting} : ContentPlanted fiber node none m .nil m []
  | empty {v : Value} {m : Mounting} (hidden : v.shown? = some "") :
      ContentPlanted fiber node (some v) m .nil m []
  | shown {v : Value} {content : String} {m : Mounting} (shown : v.shown? = some content)
      (filled : content ≠ "") :
      ContentPlanted fiber node (some v) m .nil (m.appendText node content) []
  | other {v : Value} {m m' : Mounting} {x : Forest} {l : List Creation}
      (composed : v.shown? = none) (mounted : J v node m x m' l) :
      ContentPlanted fiber node (some v) m x (m'.link fiber (x.roots m.tree.size)) l

/-- One value. Calls of components are evaluated to a depth. -/
inductive Planted (depth : Nat) : Planting
  | absent {v : Value} {parent : NodeId} {m : Mounting}
      (nothing : v = .undefined ∨ v = .null ∨ (∃ b, v = .bool b) ∨ v = .text "") :
      Planted depth v parent m .nil m []
  | text {v : Value} {content : String} {parent : NodeId} {m : Mounting}
      (shown : v.shown? = some content) (filled : v ≠ .text "") :
      Planted depth v parent m (.cons (.new .text (some ⟨m.document.size⟩) v) .nil .nil)
        ((m.appendText parent content).plant (.new .text (some ⟨m.document.size⟩) v)) []
  | array {identity : Nat} {items : List Value} {parent : NodeId} {m m' : Mounting}
      {xs : List Forest} {l : List Creation} (mounted : ItemsPlanted J parent items m xs m' l) :
      Planted depth (.array identity items) parent m (.join xs) m' l
  | host {e : CreatedElement Value} {tag : String} {parent : NodeId} {m m' : Mounting}
      {x : Forest} {l : List Creation} (type : e.type = .host tag)
      (content : ContentPlanted J ⟨m.tree.size⟩ ⟨m.document.size⟩ (Keyed.get? "children" e.props)
        (m.host e tag parent) x m' l) :
      Planted depth (.element e) parent m (.cons (hostFiber e ⟨m.document.size⟩ m.store) x .nil)
        m' l
  | component {e : CreatedElement Value} {f : Function} {parent : NodeId} {m m' : Mounting}
      {s : Store} {v : Value} {x : Forest} {l₁ l₂ : List Creation} (type : e.type = .component f)
      (called : Called (Derives depth) (.function f) [Value.props e] (m.component e).store v s l₁)
      (mounted : J v parent { m.component e with store := s } x m' l₂) :
      Planted depth (.element e) parent m (.cons (componentFiber e m.store) x .nil)
        (m'.link ⟨m.tree.size⟩ (x.roots (m.tree.size + 1))) (l₁ ++ l₂)

end

/-- Mountings no deeper than `n`. -/
def Plants (depth : Nat) : Nat → Planting
  | 0 => fun _ _ _ _ _ _ => False
  | n + 1 => Planted (Plants depth n) depth

/-! ## As many fibers as the forest has -/

def Sized (J : Planting) : Prop :=
  ∀ v parent m x m' l, J v parent m x m' l → m'.tree.size = m.tree.size + x.size

@[simp] theorem FiberTree.size_linkSiblings (parent : FiberId) (ids : List FiberId)
    (t : FiberTree) : (t.linkSiblings parent ids).size = t.size := by
  induction ids generalizing t with
  | nil => rfl
  | cons id ids ih => rw [FiberTree.linkSiblings, ih, FiberTree.size_modify]

@[simp] theorem FiberTree.size_link (parent : FiberId) (ids : List FiberId) (t : FiberTree) :
    (t.link parent ids).size = t.size := by
  simp [FiberTree.link]

section

variable {J : Planting} (hJ : Sized J) {parent : NodeId} {m m' : Mounting} {l : List Creation}
include hJ

theorem ItemPlanted.size {v : Value} {x : Forest} (h : ItemPlanted J parent v m x m' l) :
    m'.tree.size = m.tree.size + x.size := by
  cases h with
  | nested mounted =>
    have hsize := hJ _ _ _ _ _ _ mounted
    simp only [Mounting.plant, Mounting.link, FiberTree.size_add, FiberTree.size_link,
      Forest.size] at hsize ⊢
    omega
  | other single mounted => exact hJ _ _ _ _ _ _ mounted

theorem ItemsPlanted.size {vs : List Value} {xs : List Forest}
    (h : ItemsPlanted J parent vs m xs m' l) :
    m'.tree.size = m.tree.size + (Forest.join xs).size := by
  induction h with
  | nil => rfl
  | cons head tail ih =>
    have hsize := head.size hJ
    rw [Forest.join, Forest.size_append]
    omega

theorem ContentPlanted.size {fiber : FiberId} {v : Option Value} {x : Forest}
    (h : ContentPlanted J fiber parent v m x m' l) : m'.tree.size = m.tree.size + x.size := by
  cases h with
  | absent => rfl
  | empty hidden => rfl
  | shown shown filled => rfl
  | other composed mounted =>
    have hsize := hJ _ _ _ _ _ _ mounted
    simpa [Mounting.link] using hsize

theorem Planted.sized (depth : Nat) : Sized (Planted J depth) := by
  intro v parent m x m' l h
  cases h with
  | absent nothing => rfl
  | text shown filled => simp [Mounting.plant, Mounting.appendText, Forest.size]
  | array mounted => exact mounted.size hJ
  | host type content =>
    have hsize := content.size hJ
    simp only [Mounting.host, Mounting.plant, Mounting.withSource, Mounting.appendElement,
      FiberTree.size_add, Forest.size] at hsize ⊢
    omega
  | component type called mounted =>
    have hsize := hJ _ _ _ _ _ _ mounted
    simp only [Mounting.component, Mounting.plant, Mounting.withSource, Mounting.link,
      FiberTree.size_add, FiberTree.size_link, Forest.size] at hsize ⊢
    omega

end

theorem Plants.sized (depth n : Nat) : Sized (Plants depth n) := by
  induction n with
  | zero => exact fun _ _ _ _ _ _ h => h.elim
  | succ n ih => exact Planted.sized ih depth

/-! ## Every mounting that succeeds is spelled out -/

theorem ofRun_eq_ok {α : Type} {run : Run α} {a : α} {m m' : Mounting} :
    Mount.ofRun run m = (.ok a, m') ↔
      ∃ s, run m.store = (.ok a, s) ∧ m' = { m with store := s } := by
  unfold Mount.ofRun Attempt.within
  rcases run m.store with ⟨e | b, s⟩
  · simp
  · constructor
    · intro h
      cases h
      exact ⟨s, rfl, rfl⟩
    · rintro ⟨s', hs, rfl⟩
      cases hs
      rfl

/-- The rules cover all successes of a mounter. -/
def Grows (mounter : Mounter) (J : Planting) : Prop :=
  ∀ v parent m ids m', mounter v parent m = (.ok ids, m') →
    ∃ x l, J v parent m x m' l ∧ ids = x.roots m.tree.size

namespace Grows

variable {mounter : Mounter} {J : Planting} (hm : Grows mounter J) {parent : NodeId}
  {m m' : Mounting} {ids : List FiberId}
include hm

theorem item {v : Value} (h : mountItem mounter v parent m = (.ok ids, m')) :
    ∃ x l, ItemPlanted J parent v m x m' l ∧ ids = x.roots m.tree.size := by
  cases v with
  | array identity items =>
    obtain ⟨fragment, m₁, hfragment, h⟩ := Attempt.bind_eq_ok.mp h
    cases hfragment
    obtain ⟨below, m₂, hbelow, h⟩ := Attempt.bind_eq_ok.mp h
    obtain ⟨u, m₃, hlink, h⟩ := Attempt.bind_eq_ok.mp h
    cases hlink
    cases h
    obtain ⟨x, l, hx, hids⟩ := hm _ _ _ _ _ hbelow
    have hids : below = x.roots (m.tree.size + 1) := by
      rw [hids]
      simp [FiberTree.size]
    subst hids
    exact ⟨.cons _ x .nil, l, .nested hx, rfl⟩
  | _ =>
    obtain ⟨x, l, hx, hids⟩ := hm _ _ _ _ _ h
    exact ⟨x, l, .other (by simp) hx, hids⟩

theorem items (hJ : Sized J) {vs : List Value}
    (h : mountItems mounter parent vs m = (.ok ids, m')) :
    ∃ xs l, ItemsPlanted J parent vs m xs m' l ∧ ids = (Forest.join xs).roots m.tree.size := by
  induction vs generalizing m ids with
  | nil =>
    cases h
    exact ⟨[], [], .nil, rfl⟩
  | cons v vs ih =>
    obtain ⟨first, m₁, hfirst, h⟩ := Attempt.bind_eq_ok.mp h
    obtain ⟨others, m₂, hothers, h⟩ := Attempt.bind_eq_ok.mp h
    cases h
    obtain ⟨x, l₁, hx, rfl⟩ := hm.item hfirst
    obtain ⟨xs, l₂, hxs, rfl⟩ := ih hothers
    refine ⟨x :: xs, l₁ ++ l₂, .cons hx hxs, ?_⟩
    rw [hx.size hJ, Forest.join, Forest.roots_append]

theorem content {fiber : FiberId} {v : Option Value} {u : Unit}
    (h : mountContent mounter fiber parent v m = (.ok u, m')) :
    ∃ x l, ContentPlanted J fiber parent v m x m' l := by
  cases v with
  | none =>
    cases h
    exact ⟨_, _, .absent⟩
  | some v =>
    unfold mountContent at h
    dsimp only at h
    cases hshown : v.shown? with
    | some content =>
      rw [hshown] at h
      dsimp only at h
      split at h
      · rename_i hempty
        cases h
        subst hempty
        exact ⟨_, _, .empty hshown⟩
      · rename_i hempty
        obtain ⟨node, m₁, hnode, h⟩ := Attempt.bind_eq_ok.mp h
        cases hnode
        cases h
        exact ⟨_, _, .shown hshown hempty⟩
    | none =>
      rw [hshown] at h
      obtain ⟨below, m₁, hbelow, h⟩ := Attempt.bind_eq_ok.mp h
      cases h
      obtain ⟨x, l, hx, rfl⟩ := hm _ _ _ _ _ hbelow
      exact ⟨x, l, .other hshown hx⟩

theorem step (hJ : Sized J) (depth : Nat) : Grows (mountStep mounter depth) (Planted J depth) := by
  intro v parent m ids m' h
  cases v with
  | undefined =>
    cases h
    exact ⟨.nil, [], .absent (.inl rfl), rfl⟩
  | null =>
    cases h
    exact ⟨.nil, [], .absent (.inr (.inl rfl)), rfl⟩
  | bool b =>
    cases h
    exact ⟨.nil, [], .absent (.inr (.inr (.inl ⟨b, rfl⟩))), rfl⟩
  | text content =>
    unfold mountStep at h
    dsimp only at h
    split at h
    · rename_i hempty
      cases h
      subst hempty
      exact ⟨.nil, [], .absent (.inr (.inr (.inr rfl))), rfl⟩
    · rename_i hempty
      cases h
      exact ⟨.cons _ .nil .nil, [], .text rfl (by simpa using hempty), rfl⟩
  | number n =>
    cases h
    exact ⟨.cons _ .nil .nil, [], .text rfl nofun, rfl⟩
  | array identity items =>
    obtain ⟨xs, l, hxs, hids⟩ := hm.items hJ h
    exact ⟨_, l, .array hxs, hids⟩
  | element e =>
    obtain ⟨identity, type, propsIdentity, props, owner, source⟩ := e
    cases type with
    | host tag =>
      obtain ⟨node, m₁, hnode, h⟩ := Attempt.bind_eq_ok.mp h
      cases hnode
      obtain ⟨record, m₂, hrecord, h⟩ := Attempt.bind_eq_ok.mp h
      cases hrecord
      obtain ⟨fiber, m₃, hfiber, h⟩ := Attempt.bind_eq_ok.mp h
      cases hfiber
      obtain ⟨u, m₄, hcontent, h⟩ := Attempt.bind_eq_ok.mp h
      cases h
      obtain ⟨x, l, hx⟩ := hm.content hcontent
      exact ⟨.cons _ x .nil, l, .host rfl hx, rfl⟩
    | component f =>
      obtain ⟨record, m₁, hrecord, h⟩ := Attempt.bind_eq_ok.mp h
      cases hrecord
      obtain ⟨fiber, m₂, hfiber, h⟩ := Attempt.bind_eq_ok.mp h
      cases hfiber
      obtain ⟨v, m₃, hv, h⟩ := Attempt.bind_eq_ok.mp h
      obtain ⟨s, hcall, rfl⟩ := ofRun_eq_ok.mp hv
      obtain ⟨below, m₄, hbelow, h⟩ := Attempt.bind_eq_ok.mp h
      obtain ⟨u, m₅, hlink, h⟩ := Attempt.bind_eq_ok.mp h
      cases hlink
      cases h
      obtain ⟨l₁, hl₁⟩ := exists_called hcall
      obtain ⟨x, l₂, hx, hids⟩ := hm _ _ _ _ _ hbelow
      have hids : below = x.roots (m.tree.size + 1) := by
        rw [hids]
        simp [FiberTree.size]
      subst hids
      exact ⟨.cons _ x .nil, l₁ ++ l₂, .component rfl hl₁ hx, rfl⟩
  | _ => cases h

end Grows

theorem grows_mount (depth n : Nat) : Grows (mount depth n) (Plants depth n) := by
  induction n with
  | zero => exact fun _ _ _ _ _ h => absurd h Attempt.fail_ne_ok
  | succ n ih => exact ih.step (Plants.sized depth n) depth

/-! ## Renderings -/

/-- The fiber above all others. -/
def rootFiber (v : Value) : Fiber := .new .root none (.plain [("children", v)])

/-- The state in which a value is mounted into a cleared container. -/
def Mounting.start (container : NodeId) (v : Value) (s : Store) (d : Document) : Mounting :=
  ⟨s, d.clearChildren container, (FiberTree.empty.add (rootFiber v)).2⟩

/-- A rendering left this tree, store and document. -/
structure Rendered (depth : Nat) (container : NodeId) (v : Value) (s : Store) (d : Document)
    (x : Forest) (tree : FiberTree) (s' : Store) (d' : Document) (l : List Creation) : Prop where
  planted : ∃ t, Plants depth depth v container (.start container v s d) x ⟨s', d', t⟩ l ∧
    tree = t.link FiberTree.rootId (x.roots 1)

theorem exists_rendered {depth : Nat} {container : NodeId} {v : Value} {s s' : Store}
    {d d' : Document} {tree : FiberTree}
    (h : renderInto depth container v s d = (.ok tree, s', d')) :
    ∃ x l, Rendered depth container v s d x tree s' d' l := by
  unfold renderInto at h
  obtain ⟨result, m, hresult⟩ : ∃ result m, mountRoot depth container v
      ⟨s, d.clearChildren container, .empty⟩ = (result, m) := ⟨_, _, rfl⟩
  rw [hresult] at h
  cases result with
  | error e => cases h
  | ok u =>
    cases h
    obtain ⟨root, m₁, hroot, hresult⟩ := Attempt.bind_eq_ok.mp hresult
    cases hroot
    obtain ⟨ids, m₂, hids, hresult⟩ := Attempt.bind_eq_ok.mp hresult
    cases hresult
    obtain ⟨x, l, hx, rfl⟩ := grows_mount depth depth _ _ _ _ _ hids
    exact ⟨x, l, ⟨m₂.tree, hx, rfl⟩⟩

end MarkupTrace.Render
