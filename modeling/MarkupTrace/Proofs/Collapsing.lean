import MarkupTrace.Proofs.Contributors
import Mathlib.Data.List.Nodup

/-!
# Where virtual fibers are named

An entry is made for every visual fiber and for every virtual one with nothing below it. Any other
virtual fiber is named by an entry below it, the first one in the order of the document. So it is
named where its first visual descendant is, unless something that rendered nothing comes before.
-/

namespace MarkupTrace

open Render Structure

/-- What is found first by one of two tests, where `v` is the first found by the other. -/
theorem find?_or_eq_some_iff {α : Type} [DecidableEq α] {p q : α → Bool} {l : List α} {v : α}
    (h : l.find? p = some v) : l.find? (fun a => p a || q a) = some v ↔
      ∀ a ∈ l.takeWhile (· != v), q a = false := by
  induction l with
  | nil => cases h
  | cons a l ih =>
    cases hp : p a with
    | true =>
      obtain rfl : a = v := by simpa [hp] using h
      simp [hp]
    | false =>
      have hv : l.find? p = some v := by simpa [hp] using h
      have hne : a ≠ v := by
        rintro rfl
        rw [List.find?_some hv] at hp
        cases hp
      have hgo : (a != v) = true := by simpa using hne
      cases hq : q a with
      | true => simp [hp, hq, hgo, hne]
      | false => simpa [hp, hq, hgo] using ih hv

namespace Render.FiberTree

/-- All fibers of the tree, in the order of the document. -/
def ids (t : FiberTree) : List FiberId := (List.range t.size).map FiberId.mk

def isVisual (t : FiberTree) (id : FiberId) : Bool := (t.get? id).any Fiber.isVisual

/-- A virtual fiber with nothing below it. -/
def isBare (t : FiberTree) (id : FiberId) : Bool :=
  (t.get? id).any fun f => !f.isVisual && f.child.isNone

/-- Whether an entry is made for the fiber. -/
def bears (t : FiberTree) (id : FiberId) : Bool := t.isVisual id || t.isBare id

/-- The fibers below one in the order of the document, going down at most `depth` fibers. -/
def descentTo (t : FiberTree) : (depth : Nat) → FiberId → List FiberId
  | 0, _ => []
  | depth + 1, id => (t.children id).flatMap fun child => child :: descentTo t depth child

/-- All fibers below one. No way down is longer than there are fibers. -/
def descent (t : FiberTree) (id : FiberId) : List FiberId := t.descentTo t.size id

/-- The first fiber below one that an entry is made for. -/
def front? (t : FiberTree) (id : FiberId) : Option FiberId := (t.descent id).find? t.bears

/-- Whether a fiber has no entry of its own, and the first one below it is that of the other. -/
def isFrontOf (t : FiberTree) (front id : FiberId) : Bool := !t.bears id && t.front? id == some front

/-- The fibers among these that are named by the entry of another, the innermost first. -/
def gatheredFrom (t : FiberTree) (ids : List FiberId) (front : FiberId) : List FiberId :=
  (ids.filter (t.isFrontOf front)).reverse

/-- The fibers that are named by the entry of another one. -/
def gathered (t : FiberTree) (front : FiberId) : List FiberId := t.gatheredFrom t.ids front

/-- The node and the contributors that the entry of a fiber has, if these fibers are named. -/
def Row (t : FiberTree) (ids : List FiberId) (row : Option NodeId × List Contributor)
    (id : FiberId) : Prop :=
  ∃ f, t.get? id = some f ∧ row.1 = f.node ∧
    row.2 = lineContributors f ((t.gatheredFrom ids id).filterMap fun id => t.get? id)

theorem Row.congr {t : FiberTree} {ids ids' : List FiberId} {row : Option NodeId × List Contributor}
    {id : FiberId} (h : t.Row ids row id) (hsame : t.gatheredFrom ids' id = t.gatheredFrom ids id) :
    t.Row ids' row id := by
  unfold Row at h ⊢
  rwa [hsame]

/-! ## Runs of numbers -/

/-- So many fibers from a number on. -/
def idsFrom (n count : Nat) : List FiberId := (List.range' n count).map FiberId.mk

theorem ids_eq (t : FiberTree) : t.ids = idsFrom 0 t.size := by
  rw [ids, idsFrom, List.range_eq_range']

theorem mem_idsFrom {n count : Nat} {id : FiberId} :
    id ∈ idsFrom n count ↔ n ≤ id.index ∧ id.index < n + count := by
  obtain ⟨i⟩ := id
  simp [idsFrom, List.mem_range'_1]

theorem idsFrom_cons (n a b : Nat) :
    idsFrom n (a + b + 1) = ⟨n⟩ :: (idsFrom (n + 1) a ++ idsFrom (n + a + 1) b) := by
  rw [idsFrom, List.range'_succ, List.map_cons, ← List.range'_append_1, List.map_append,
    show n + 1 + a = n + a + 1 by omega]
  rfl

theorem nodup_idsFrom (n count : Nat) : (idsFrom n count).Nodup :=
  List.Nodup.map (fun _ _ h => congrArg FiberId.index h) List.nodup_range'

end Render.FiberTree

namespace Structure

/-! ## Rows of entries -/

/-- All entries but those of texts without a fiber, which name no fiber. -/
def Entry.isOwn (e : Entry) : Bool := e.node.isNone || !e.named.isEmpty

/-- What an entry stands for: its node, and who is named there. -/
def Entry.row (e : Entry) : Option NodeId × List Contributor := (e.node, e.named)

/-- The rows of entries at any depth. -/
def rows (es : List Entry) : List (Option NodeId × List Contributor) :=
  ((allEntries es).filter Entry.isOwn).map Entry.row

theorem rows_append (es es' : List Entry) : rows (es ++ es') = rows es ++ rows es' := by
  rw [rows, allEntries_append, List.filter_append, List.map_append, rows, rows]

theorem rows_cons (e : Entry) (es : List Entry) :
    rows (e :: es) = (if e.isOwn then [e.row] else []) ++ (rows e.children ++ rows es) := by
  rw [rows, allEntries_cons, List.filter_cons]
  split
  · rw [List.map_cons, List.filter_append, List.map_append]
    rfl
  · rw [List.filter_append, List.map_append]
    rfl

theorem rows_attach (groups : List (List Contributor)) (es : List Entry) (nodes : List NodeId)
    (h : ∀ g ∈ groups, ∀ c ∈ g, c.component.isPseudo = true) :
    rows (attach es nodes groups) = rows es := by
  induction groups generalizing es nodes with
  | nil => rw [attach_nil]
  | cons g groups ih =>
    obtain ⟨hg, hgroups⟩ := List.forall_mem_cons.mp h
    cases es with
    | nil =>
      cases nodes with
      | nil => rfl
      | cons n nodes =>
        have hleaf : (Entry.leaf n g).isOwn = false := by
          have hnamed : (Entry.leaf n g).named = [] := filter_pseudo hg
          rw [Entry.isOwn, hnamed]
          rfl
        rw [attach, rows_cons, hleaf, ih _ _ hgroups]
        rfl
    | cons e es =>
      have hrow : (e.extend g).row = e.row := by
        rw [Entry.row, Entry.node_extend, Entry.named_extend_pseudo hg, Entry.row]
      have hown : (e.extend g).isOwn = e.isOwn := by
        rw [Entry.isOwn, Entry.node_extend, Entry.named_extend_pseudo hg, Entry.isOwn]
      rw [attach, rows_cons, rows_cons, hrow, hown, Entry.children_extend, ih _ _ hgroups]

/-- A contributor is named by the first entry. -/
theorem rows_contribute {c : Contributor} (hc : c.component.isPseudo = false) {es : List Entry}
    (hne : es ≠ []) (hown : ∀ e ∈ es, e.isOwn = true) :
    rows (contribute c es) = (rows es).modifyHead fun row => (row.1, row.2 ++ [c]) := by
  cases es with
  | nil => exact absurd rfl hne
  | cons e es =>
    have hnamed : (e.extend [c]).named = e.named ++ [c] := by
      rw [Entry.named, Entry.contributors_extend, List.filter_append, Entry.named]
      simp [hc]
    have hextended : (e.extend [c]).isOwn = true := by
      simp [Entry.isOwn, hnamed]
    rw [contribute, rows_cons, rows_cons, hextended, hown e List.mem_cons_self, Entry.children_extend,
      Entry.row, Entry.node_extend, hnamed]
    rfl

end Structure

namespace Render

open FiberTree

namespace Forest

variable {t : FiberTree} {above : Option FiberId} {n : Nat} {x : Forest} {s : Store} {d : Document}
  {map : ExpressionMap}

theorem isOwn_of_mem_entries {e : Entry} (h : e ∈ x.entries s d map) : e.isOwn = true := by
  rcases explains_of_mem h with ⟨hnode, -⟩ | ⟨f, below, node, path, -, hshows⟩
  · rw [Entry.isOwn, hnode]
    rfl
  · have hmem : Contributor.ofFiber f ∈ e.named :=
      List.mem_filter.mpr ⟨List.mem_of_head? hshows.first, by
        rw [show (Contributor.ofFiber f).component.isPseudo = false from
          Component.isPseudo_ofType f.type]
        rfl⟩
    simp [Entry.isOwn, List.ne_nil_of_mem hmem]

/-! ## Descents -/

theorem Stands.descentTo_eq (h : x.Stands t above n) (hsize : n + x.size ≤ t.size) {depth : Nat}
    (hdepth : x.size ≤ depth) :
    ((x.roots n).flatMap fun id => id :: t.descentTo depth id) = idsFrom n x.size := by
  induction x generalizing above n depth with
  | nil => rfl
  | cons f below behind ihbelow ihbehind =>
    obtain ⟨hf, hbelow, hbehind⟩ := h
    rw [size] at hsize hdepth
    obtain ⟨k, rfl⟩ : ∃ k, depth = k + 1 := ⟨depth - 1, by omega⟩
    have hchildren : t.children ⟨n⟩ = below.roots (n + 1) := by
      rw [FiberTree.children, hf]
      exact FiberTree.chainTo_of_stands hbelow (by omega)
    rw [roots, List.flatMap_cons, ihbehind hbehind (by omega) (by omega), descentTo, hchildren,
      ihbelow hbelow (by omega) (by omega), size, idsFrom_cons, List.cons_append]

variable {f : Fiber} {below behind : Forest}

/-- The fibers below one stand right behind it. -/
theorem Stands.descent_eq (h : (cons f below behind).Stands t above n)
    (hsize : n + (cons f below behind).size ≤ t.size) :
    t.descent ⟨n⟩ = idsFrom (n + 1) below.size := by
  obtain ⟨hf, hbelow, -⟩ := h
  rw [size] at hsize
  obtain ⟨k, hk⟩ : ∃ k, t.size = k + 1 := ⟨t.size - 1, by omega⟩
  have hchildren : t.children ⟨n⟩ = below.roots (n + 1) := by
    rw [FiberTree.children, hf]
    exact FiberTree.chainTo_of_stands hbelow (by omega)
  rw [descent, hk, descentTo, hchildren]
  exact hbelow.descentTo_eq (by omega) (by omega)

theorem Stands.front?_eq (h : (cons f below behind).Stands t above n)
    (hsize : n + (cons f below behind).size ≤ t.size) :
    t.front? ⟨n⟩ = ((idsFrom (n + 1) below.size).filter t.bears).head? := by
  rw [front?, h.descent_eq hsize, List.head?_filter]

theorem Stands.bears_eq (h : (cons f below behind).Stands t above n) :
    t.bears ⟨n⟩ = (f.node.isSome || below.isNil) := by
  have hf : t.get? ⟨n⟩ = some (linked above n f below behind) := h.1
  rw [bears, FiberTree.isVisual, isBare, hf, Option.any_some, Option.any_some, isVisual_linked,
    isNone_linked_child]
  cases f.node.isSome <;> rfl

/-- The front of a fiber stands behind it and in the same forest. -/
theorem Stands.front_bounds (h : x.Stands t above n) (hsize : n + x.size ≤ t.size) {id k : FiberId}
    (hid : id ∈ idsFrom n x.size) (hk : t.front? id = some k) :
    id.index < k.index ∧ k.index < n + x.size := by
  induction x generalizing above n with
  | nil => cases hid
  | cons f below behind ihbelow ihbehind =>
    have hfront := h.front?_eq hsize
    obtain ⟨-, hbelow, hbehind⟩ := h
    rw [size] at hsize hid ⊢
    rw [idsFrom_cons, List.mem_cons, List.mem_append] at hid
    rcases hid with rfl | hid | hid
    · rw [hk] at hfront
      have hmem := List.mem_of_mem_filter (List.mem_of_head? hfront.symm)
      have hbounds := mem_idsFrom.mp hmem
      dsimp only
      omega
    · have hbounds := ihbelow hbelow (by omega) hid
      omega
    · have hbounds := ihbehind hbehind (by omega) hid
      omega

/-- There is an entry in every forest that is not empty. -/
theorem Stands.exists_bears (h : x.Stands t above n) (hne : x.isNil = false) :
    ∃ k ∈ idsFrom n x.size, t.bears k = true := by
  induction x generalizing above n with
  | nil => cases hne
  | cons f below behind ihbelow _ =>
    rw [size, idsFrom_cons]
    have hbears := h.bears_eq
    cases hnil : below.isNil with
    | true =>
      rw [hnil, Bool.or_true] at hbears
      exact ⟨⟨n⟩, List.mem_cons_self, hbears⟩
    | false =>
      obtain ⟨k, hk, hkbears⟩ := ihbelow h.2.1 hnil
      exact ⟨k, List.mem_cons_of_mem _ (List.mem_append_left _ hk), hkbears⟩

/-- A fiber without an entry of its own has a front. -/
theorem Stands.exists_front (h : x.Stands t above n) (hsize : n + x.size ≤ t.size) {id : FiberId}
    (hid : id ∈ idsFrom n x.size) (hbare : t.bears id = false) : ∃ k, t.front? id = some k := by
  induction x generalizing above n with
  | nil => cases hid
  | cons f below behind ihbelow ihbehind =>
    have hdescent := h.descent_eq hsize
    have hbears := h.bears_eq
    obtain ⟨-, hbelow, hbehind⟩ := h
    rw [size] at hsize hid
    rw [idsFrom_cons, List.mem_cons, List.mem_append] at hid
    rcases hid with rfl | hid | hid
    · rw [hbears, Bool.or_eq_false_iff] at hbare
      obtain ⟨k, hk, hkbears⟩ := hbelow.exists_bears hbare.2
      rw [front?, hdescent]
      exact Option.isSome_iff_exists.mp (List.find?_isSome.mpr ⟨k, hk, hkbears⟩)
    · exact ihbelow hbelow (by omega) hid
    · exact ihbehind hbehind (by omega) hid

/-! ## Fibers and entries -/

theorem forall₂_of_mem {α β : Type} {R S : α → β → Prop} {as : List α} {bs : List β}
    (h : List.Forall₂ R as bs) (hS : ∀ a, ∀ b ∈ bs, R a b → S a b) : List.Forall₂ S as bs := by
  induction h with
  | nil => exact .nil
  | cons hab _ ih =>
    rw [List.forall₂_cons]
    exact ⟨hS _ _ List.mem_cons_self hab, ih fun a b hb => hS a b (List.mem_cons_of_mem _ hb)⟩

theorem filter_isFrontOf_eq_nil {ids : List FiberId} {front : FiberId}
    (h : ∀ id ∈ ids, t.front? id ≠ some front) : ids.filter (t.isFrontOf front) = [] := by
  rw [List.filter_eq_nil_iff]
  intro id hid
  simp [isFrontOf, h id hid]

section

variable (h : (cons f below behind).Stands t above n)
  (hsize : n + (cons f below behind).size ≤ t.size)
include h hsize

theorem Stands.gatheredFrom_self :
    t.gatheredFrom (idsFrom n (cons f below behind).size) ⟨n⟩ = [] := by
  rw [gatheredFrom, filter_isFrontOf_eq_nil, List.reverse_nil]
  intro id hid hfront
  have hbounds := h.front_bounds hsize hid hfront
  have hleast := (mem_idsFrom.mp hid).1
  dsimp only at hbounds
  omega

/-- Below a fiber it is named besides those that are named there anyway. -/
theorem Stands.gatheredFrom_below {k : FiberId} (hk : k ∈ idsFrom (n + 1) below.size) :
    t.gatheredFrom (idsFrom n (cons f below behind).size) k =
      t.gatheredFrom (idsFrom (n + 1) below.size) k ++
        if t.isFrontOf k ⟨n⟩ then [⟨n⟩] else [] := by
  have hbehind : (idsFrom (n + below.size + 1) behind.size).filter (t.isFrontOf k) = [] := by
    refine filter_isFrontOf_eq_nil fun id hid hfront => ?_
    rw [size] at hsize
    have hbounds := h.2.2.front_bounds (by omega) hid hfront
    have hleast := (mem_idsFrom.mp hid).1
    have hlast := (mem_idsFrom.mp hk).2
    omega
  rw [gatheredFrom, size, idsFrom_cons, List.filter_cons, List.filter_append, hbehind,
    List.append_nil, gatheredFrom]
  split
  · rw [List.reverse_cons]
  · rw [List.append_nil]

theorem Stands.gatheredFrom_behind {k : FiberId} (hk : k ∈ idsFrom (n + below.size + 1) behind.size) :
    t.gatheredFrom (idsFrom n (cons f below behind).size) k =
      t.gatheredFrom (idsFrom (n + below.size + 1) behind.size) k := by
  have hleast := (mem_idsFrom.mp hk).1
  have hbelow : (⟨n⟩ :: idsFrom (n + 1) below.size).filter (t.isFrontOf k) = [] := by
    refine filter_isFrontOf_eq_nil fun id hid hfront => ?_
    rw [List.mem_cons] at hid
    rcases hid with rfl | hid
    · rw [h.front?_eq hsize] at hfront
      have hmem := List.mem_of_mem_filter (List.mem_of_head? hfront)
      have hlast := (mem_idsFrom.mp hmem).2
      omega
    · rw [size] at hsize
      have hbounds := h.2.1.front_bounds (by omega) hid hfront
      omega
  rw [gatheredFrom, size, idsFrom_cons, ← List.cons_append, List.filter_append, hbelow,
    List.nil_append, gatheredFrom]

/-- What is right of the entries behind a fiber stays right with the fiber before them. -/
theorem Stands.rows_behind {rs : List (Option NodeId × List Contributor)}
    (hrows : List.Forall₂ (t.Row (idsFrom (n + below.size + 1) behind.size)) rs
      ((idsFrom (n + below.size + 1) behind.size).filter t.bears)) :
    List.Forall₂ (t.Row (idsFrom n (cons f below behind).size)) rs
      ((idsFrom (n + below.size + 1) behind.size).filter t.bears) :=
  forall₂_of_mem hrows fun _ _ hk hrow =>
    hrow.congr (h.gatheredFrom_behind hsize (List.mem_of_mem_filter hk))

/-- A fiber that has an entry of its own is named by no other. -/
theorem Stands.rows_own {rs : List (Option NodeId × List Contributor)}
    (hn : t.bears ⟨n⟩ = true)
    (hrows : List.Forall₂ (t.Row (idsFrom (n + 1) below.size)) rs
      ((idsFrom (n + 1) below.size).filter t.bears)) :
    List.Forall₂ (t.Row (idsFrom n (cons f below behind).size))
      ((f.node, if f.node.isSome then [.ofFiber f] else []) :: rs)
      (⟨n⟩ :: (idsFrom (n + 1) below.size).filter t.bears) := by
  have hf : t.get? ⟨n⟩ = some (linked above n f below behind) := h.1
  refine .cons ⟨_, hf, by rw [linked_node], ?_⟩ (forall₂_of_mem hrows fun _ k hk hrow => ?_)
  · rw [h.gatheredFrom_self hsize, List.filterMap_nil, lineContributors, isVisual_linked,
      ofFiber_linked, List.map_nil, List.append_nil]
  · refine hrow.congr ?_
    rw [h.gatheredFrom_below hsize (List.mem_of_mem_filter hk), isFrontOf, hn, Bool.not_true,
      Bool.false_and, if_neg Bool.false_ne_true, List.append_nil]

/-- A fiber that has none is named by the first entry below it, behind those named there anyway. -/
theorem Stands.rows_taken {rs : List (Option NodeId × List Contributor)}
    (hn : t.bears ⟨n⟩ = false)
    (hrows : List.Forall₂ (t.Row (idsFrom (n + 1) below.size)) rs
      ((idsFrom (n + 1) below.size).filter t.bears)) :
    List.Forall₂ (t.Row (idsFrom n (cons f below behind).size))
      (rs.modifyHead fun row => (row.1, row.2 ++ [.ofFiber f]))
      ((idsFrom (n + 1) below.size).filter t.bears) := by
  have hgathered : ∀ k ∈ (idsFrom (n + 1) below.size).filter t.bears,
      t.gatheredFrom (idsFrom n (cons f below behind).size) k =
        t.gatheredFrom (idsFrom (n + 1) below.size) k ++
          if ((idsFrom (n + 1) below.size).filter t.bears).head? = some k then [⟨n⟩] else [] := by
    intro k hk
    rw [h.gatheredFrom_below hsize (List.mem_of_mem_filter hk), isFrontOf, hn,
      h.front?_eq hsize]
    simp
  have hnodup := (nodup_idsFrom (n + 1) below.size).filter t.bears
  generalize (idsFrom (n + 1) below.size).filter t.bears = ks at *
  cases hrows with
  | nil => exact .nil
  | @cons row first rs ks hrow hrest =>
    rw [List.forall_mem_cons] at hgathered
    refine .cons ?_ (forall₂_of_mem hrest fun _ k hk hrow => hrow.congr ?_)
    · obtain ⟨g, hg, hnode, hnamed⟩ := hrow
      have hself : [(⟨n⟩ : FiberId)].filterMap (fun id => t.get? id) =
          [linked above n f below behind] := List.filterMap_cons_some h.1
      refine ⟨g, hg, hnode, ?_⟩
      rw [hgathered.1, List.head?_cons, if_pos rfl, List.filterMap_append, hself,
        lineContributors_append, ofFiber_linked, ← hnamed]
    · have hother : first ≠ k := by
        rintro rfl
        exact (List.nodup_cons.mp hnodup).1 hk
      rw [hgathered.2 k hk, List.head?_cons, if_neg (by simpa using hother), List.append_nil]

end

theorem filter_bears_cons : (idsFrom n (cons f below behind).size).filter t.bears =
    (if t.bears ⟨n⟩ then [⟨n⟩] else []) ++ ((idsFrom (n + 1) below.size).filter t.bears ++
      (idsFrom (n + below.size + 1) behind.size).filter t.bears) := by
  rw [size, idsFrom_cons, List.filter_cons, List.filter_append]
  split <;> rfl

/-- Texts aside, the entry of a visual fiber has the entries below it for its children. -/
theorem rows_visualEntry (node : NodeId) (es : List Entry) :
    rows [visualEntry s d f node es map] = (some node, [.ofFiber f]) :: rows es := by
  have hnamed : ∀ es, (Entry.mk (some node) [.ofFiber f] es).named = [.ofFiber f] := fun es => by
    simp [Entry.named, Entry.contributors, Component.isPseudo_ofType, Contributor.ofFiber]
  rw [visualEntry, rows_cons, Entry.children, rows_attach _ _ _ fun g hg c hc =>
    isPseudo_of_mem_reconcile hg hc, Entry.isOwn, Entry.row, hnamed, Entry.node]
  exact congrArg _ (List.append_nil _)

/-- Entry by entry: a forest has one for every fiber that bears one, in order, and the entry names
the fibers of the forest that it is the first one for. By induction on the forest; a virtual fiber
comes behind those that are named by the first entry below it. -/
theorem Stands.forall₂_rows (h : x.Stands t above n) (hsize : n + x.size ≤ t.size)
    (map : ExpressionMap) : List.Forall₂ (t.Row (idsFrom n x.size)) (rows (x.entries s d map))
      ((idsFrom n x.size).filter t.bears) := by
  induction x generalizing above n map with
  | nil => exact .nil
  | cons f below behind ihbelow ihbehind =>
    have hbears := h.bears_eq
    have hsizes : n + below.size + behind.size + 1 ≤ t.size := by
      rw [size] at hsize
      omega
    have hbehind := h.rows_behind hsize (ihbehind h.2.2 (by omega) map)
    have hbelow := fun map => ihbelow h.2.1 (show n + 1 + below.size ≤ t.size by omega) map
    rw [entries, rows_append, entriesOf, filter_bears_cons]
    cases hnode : f.node with
    | some node =>
      have hn : t.bears ⟨n⟩ = true := by rw [hbears, hnode]; rfl
      have hown := h.rows_own hsize hn (hbelow map)
      rw [hnode] at hown
      dsimp only
      rw [rows_visualEntry, if_pos hn]
      exact List.rel_append hown hbehind
    | none =>
      rw [hnode] at hbears
      dsimp only
      cases hnil : below.isNil with
      | true =>
        have hn : t.bears ⟨n⟩ = true := by rw [hbears, hnil]; rfl
        have hown := h.rows_own hsize hn (hbelow map)
        have hplaceholder : rows [Entry.placeholder] = [(none, [])] := rfl
        have hempty : rows (below.entries s d map) = [] := by
          cases below with
          | nil => rfl
          | cons _ _ _ => cases hnil
        rw [hnode, hempty] at hown
        rw [if_pos rfl, if_pos hn, hplaceholder]
        exact List.rel_append hown hbehind
      | false =>
        have hn : t.bears ⟨n⟩ = false := by rw [hbears, hnil]; rfl
        rw [if_neg Bool.false_ne_true, hn, if_neg Bool.false_ne_true, List.nil_append,
          rows_contribute (Component.isPseudo_ofType f.type) (entries_ne_nil s d _ hnil)
            fun e he => isOwn_of_mem_entries he]
        exact List.rel_append (h.rows_taken hsize hn (hbelow _)) hbehind

end Forest

variable {depth : Nat} {container : NodeId} {v : Value} {s s' : Store} {d d' : Document}
  {tree : FiberTree}

/-- Virtual fibers collapse onto the entries below them. In the structure of a rendered tree, walked
with any map, there is, but for texts without a fiber, one entry for every fiber that is visual or has
nothing below it, in order. It has the node of its fiber and names it, if it is visual, and then,
the innermost first, the virtual fibers for which it is the first such fiber below them in the order
of the document. Every virtual fiber with something below it is named by exactly one entry in this
way, and that of its first visual descendant it is if and only if nothing below it comes before that
is virtual and has nothing below it. -/
theorem virtual_fibers_collapse (h : renderInto depth container v s d = (.ok tree, s', d'))
    (store : Store) (map : ExpressionMap) :
    List.Forall₂ (tree.Row tree.ids) (rows (walk store d' tree FiberTree.rootId map))
        (tree.ids.filter tree.bears) ∧
      ∀ id f, tree.get? id = some f → f.node = none → f.child.isSome = true →
        ∃ k ∈ tree.ids.filter tree.bears, (∀ k', id ∈ tree.gathered k' ↔ k' = k) ∧
          ∀ w, (tree.descent id).find? tree.isVisual = some w →
            (k = w ↔ ∀ j ∈ (tree.descent id).takeWhile (· != w), tree.isBare j = false) := by
  obtain ⟨x, l, hrendered⟩ := exists_rendered h
  have hstands : (Forest.cons (rootFiber v) x .nil).Stands tree none 0 := hrendered.stands.stands
  have hsize : 0 + (Forest.cons (rootFiber v) x .nil).size = tree.size := by
    rw [hrendered.stands.size]
    rfl
  have hids : FiberTree.idsFrom 0 (Forest.cons (rootFiber v) x .nil).size = tree.ids := by
    rw [ids_eq, ← hsize, Nat.zero_add]
  refine ⟨?_, ?_⟩
  · have hrows := hstands.forall₂_rows (s := store) (d := d') hsize.le map
    rw [hids] at hrows
    rwa [hrendered.walk_eq]
  · intro id f hf hnode hchild
    have hbears : tree.bears id = false := by
      rw [bears, FiberTree.isVisual, isBare, hf]
      cases hnone : f.child with
      | none =>
        rw [hnone] at hchild
        cases hchild
      | some c => simp [Fiber.isVisual, hnode, hnone]
    have hid : id ∈ tree.ids := by
      have hlt : id.index < tree.size := (Array.getElem?_eq_some_iff.mp hf).1
      rw [ids_eq]
      exact mem_idsFrom.mpr ⟨Nat.zero_le _, by omega⟩
    obtain ⟨k, hk⟩ := hstands.exists_front hsize.le (hids ▸ hid) hbears
    have hbounds := hstands.front_bounds hsize.le (hids ▸ hid) hk
    refine ⟨k, List.mem_filter.mpr ⟨?_, List.find?_some hk⟩, fun k' => ?_, fun w hw => ?_⟩
    · rw [← hids]
      exact mem_idsFrom.mpr ⟨Nat.zero_le _, hbounds.2⟩
    · have hmem : id ∈ tree.gathered k' ↔ k = k' := by
        simp [gathered, gatheredFrom, isFrontOf, hid, hbears, hk]
      exact hmem.trans eq_comm
    · rw [← find?_or_eq_some_iff hw]
      exact ⟨fun heq => heq ▸ hk, fun heq => Option.some.inj (hk.symm.trans heq)⟩

/-- A component that renders nothing, before an element. -/
def emptySource : String := "const Empty = () => null;\nexport const App = [<Empty />, <b />];\n"

open Source Annotate Eval in
/-- The root, the component and the element are rendered, and no entry with a node names the root. -/
def emptyRuns : Bool :=
  match Module.parse emptySource with
  | .error _ => false
  | .ok m =>
    match load 9 [] ⟨0⟩ (annotate m emptySource "s.jsx" {}).module blankStore with
    | (.ok exports, s) =>
      match exports.get? "App" with
      | some v =>
        match renderInto 9 ⟨0⟩ v s blankDocument with
        | (.ok tree, s', d') =>
          (tree.get? FiberTree.rootId).any (fun f => f.node.isNone && f.child.isSome &&
            (Contributor.ofFiber f).component == .anonymous) &&
          decide ((tree.descent FiberTree.rootId).find? tree.isVisual = some ⟨2⟩) &&
          (allEntries (walk s' d' tree FiberTree.rootId .empty)).all fun e =>
            e.node.isNone || e.contributors.all fun c => c.component != .anonymous
        | _ => false
      | none => false
    | _ => false

set_option maxRecDepth 100000 in
theorem emptyRuns_eq : emptyRuns = true := by decide +kernel

/-- What the module gives and how it is rendered. -/
structure EmptyRun (m : Source.Module) (exports : Fields) (v : Value) (s s' : Store) (d' : Document)
    (tree : FiberTree) (root : Fiber) : Prop where
  parsed : Source.Module.parse emptySource = .ok m
  loaded : Eval.load 9 [] ⟨0⟩ (Annotate.annotate m emptySource "s.jsx" {}).module blankStore =
    (.ok exports, s)
  found : exports.get? "App" = some v
  rendered : renderInto 9 ⟨0⟩ v s blankDocument = (.ok tree, s', d')
  first : tree.get? FiberTree.rootId = some root
  virtual : root.node = none
  child : root.child.isSome = true
  visual : (tree.descent FiberTree.rootId).find? tree.isVisual = some ⟨2⟩
  unnamed : ∀ e ∈ allEntries (walk s' d' tree FiberTree.rootId .empty), e.node.isSome = true →
    Contributor.ofFiber root ∉ e.contributors

theorem exists_emptyRun : ∃ m exports v s s' d' tree root,
    EmptyRun m exports v s s' d' tree root := by
  have hruns := emptyRuns_eq
  unfold emptyRuns at hruns
  split at hruns
  · cases hruns
  rename_i m hparse
  split at hruns
  case h_2 => cases hruns
  rename_i exports s hload
  split at hruns
  case h_2 => cases hruns
  rename_i v hget
  split at hruns
  case h_2 => cases hruns
  rename_i tree s' d' hrender
  rw [Bool.and_eq_true, Bool.and_eq_true, Option.any_eq_true, List.all_eq_true] at hruns
  obtain ⟨⟨⟨root, hroot, htests⟩, hvisual⟩, hentries⟩ := hruns
  rw [Bool.and_eq_true, Bool.and_eq_true, Option.isNone_iff_eq_none, beq_iff_eq] at htests
  obtain ⟨⟨hvirtual, hchild⟩, hanonymous⟩ := htests
  refine ⟨m, exports, v, s, s', d', tree, root, hparse, hload, hget, hrender, hroot, hvirtual, hchild,
    of_decide_eq_true hvisual, fun e he hnode hmem => ?_⟩
  have htest := hentries e he
  rw [Bool.or_eq_true, List.all_eq_true] at htest
  rcases htest with hnone | hall
  · rw [Option.isNone_iff_eq_none] at hnone
    rw [hnone] at hnode
    cases hnode
  · exact absurd hanonymous (by simpa using hall _ hmem)

/-- Something below the root comes before the element and has nothing below it, so the root is not
named by the entry of the element. -/
theorem virtual_fibers_collapse_empty : ∃ (v : Value) (s s' : Store) (d' : Document)
    (tree : FiberTree), renderInto 9 ⟨0⟩ v s blankDocument = (.ok tree, s', d') ∧
      List.Forall₂ (tree.Row tree.ids) (rows (walk s' d' tree FiberTree.rootId .empty))
        (tree.ids.filter tree.bears) ∧
      ∃ k ∈ tree.ids.filter tree.bears, (∀ k', FiberTree.rootId ∈ tree.gathered k' ↔ k' = k) ∧
        (k = ⟨2⟩ ↔ ∀ j ∈ (tree.descent FiberTree.rootId).takeWhile (· != ⟨2⟩),
          tree.isBare j = false) := by
  obtain ⟨m, exports, v, s, s', d', tree, root, hrun⟩ := exists_emptyRun
  obtain ⟨hrows, hnamed⟩ := virtual_fibers_collapse hrun.rendered s' .empty
  obtain ⟨k, hk, honce, hvisual⟩ := hnamed FiberTree.rootId root hrun.first hrun.virtual hrun.child
  exact ⟨v, s, s', d', tree, hrun.rendered, hrows, k, hk, honce, hvisual ⟨2⟩ hrun.visual⟩

/-- The root has a visual fiber below it, and no entry with a node names it. -/
theorem empty_component_hides_root : ∃ (m : Source.Module) (exports : Fields) (v : Value)
    (s s' : Store) (d' : Document) (tree : FiberTree) (root : Fiber),
    Source.Module.parse emptySource = .ok m ∧
      Eval.load 9 [] ⟨0⟩ (Annotate.annotate m emptySource "s.jsx" {}).module blankStore =
        (.ok exports, s) ∧
      exports.get? "App" = some v ∧
      renderInto 9 ⟨0⟩ v s blankDocument = (.ok tree, s', d') ∧
      tree.get? FiberTree.rootId = some root ∧ root.node = none ∧
      (tree.descent FiberTree.rootId).find? tree.isVisual = some ⟨2⟩ ∧
      ∀ e ∈ allEntries (walk s' d' tree FiberTree.rootId .empty), e.node.isSome = true →
        Contributor.ofFiber root ∉ e.contributors := by
  obtain ⟨m, exports, v, s, s', d', tree, root, hrun⟩ := exists_emptyRun
  exact ⟨m, exports, v, s, s', d', tree, root, hrun.parsed, hrun.loaded, hrun.found, hrun.rendered,
    hrun.first, hrun.virtual, hrun.visual, hrun.unnamed⟩

end Render

end MarkupTrace
