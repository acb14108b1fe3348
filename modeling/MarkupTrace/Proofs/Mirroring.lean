import MarkupTrace.Proofs.Positions

/-!
# Forests mirror documents

What was mounted into a node stands in the document as the forest has it: the visual fibers on top are
children of the node, and so on below them. Only the text that is put directly into a host element has
no fiber. The nodes are numbered in the order in which the forest has them.
-/

namespace MarkupTrace.Render

open Eval Structure

namespace Document

/-- A node is of this kind, below a parent, with these children. -/
def Has (d : Document) (id : NodeId) (kind : NodeKind) (parent : NodeId) (children : List NodeId) :
    Prop :=
  ∃ n, d.get? id = some n ∧ n.kind = kind ∧ n.parent = some parent ∧ n.children = children

namespace Has

variable {d d' : Document} {id parent : NodeId} {kind : NodeKind} {children : List NodeId}

theorem congr (h : d.Has id kind parent children) (hsame : d'.get? id = d.get? id) :
    d'.Has id kind parent children := by
  obtain ⟨n, hn, h⟩ := h
  exact ⟨n, hsame.trans hn, h⟩

/-- The node gets further children. -/
theorem extend (h : d.Has id kind parent children) {added : List NodeId}
    (hadded : d'.get? id =
      (d.get? id).map fun n => { n with children := n.children ++ added }) :
    d'.Has id kind parent (children ++ added) := by
  obtain ⟨n, hn, hkind, hparent, rfl⟩ := h
  refine ⟨{ n with children := n.children ++ added }, ?_, hkind, hparent, rfl⟩
  rw [hadded, hn]
  rfl

theorem children_eq (h : d.Has id kind parent children) : d.children id = children := by
  obtain ⟨n, hn, -, -, rfl⟩ := h
  exact children_of_get? hn

theorem isVisual (h : d.Has id kind parent children) (hkind : kind ≠ .container) :
    d.isVisual id = true := by
  obtain ⟨n, hn, rfl, -⟩ := h
  simp [Document.isVisual, hn, Node.isVisual, hkind]

theorem parent_eq (h : d.Has id kind parent children) :
    (d.get? id).bind (·.parent) = some parent := by
  obtain ⟨n, hn, -, hparent, -⟩ := h
  rw [hn]
  exact hparent

theorem kind_eq (h : d.Has id kind parent children) : (d.get? id).map (·.kind) = some kind := by
  obtain ⟨n, hn, rfl, -⟩ := h
  rw [hn]
  rfl

end Has

/-- A child that is appended to another node keeps all but its parent. -/
theorem has_appendChild {d : Document} {id parent : NodeId} {n : Node} (hne : parent ≠ id)
    (hn : d.get? id = some n) : (d.appendChild parent id).Has id n.kind parent n.children := by
  refine ⟨{ n with parent := some parent }, ?_, rfl, rfl, rfl⟩
  rw [get?_appendChild, if_neg hne, get?_modify, if_pos rfl, hn]
  rfl

theorem get?_setAttributes (id : NodeId) (attributes : Keyed String) {d : Document} {n : Node}
    (hn : d.get? id = some n) : ∃ n', (attributes.foldl (fun d a => d.setAttribute id a.1 a.2)
      d).get? id = some n' ∧ n'.kind = n.kind ∧ n'.children = n.children := by
  induction attributes generalizing d n with
  | nil => exact ⟨n, hn, rfl, rfl⟩
  | cons a attributes ih =>
    have hset : (d.setAttribute id a.1 a.2).get? id =
        some { n with attributes := n.attributes.insert a.1 a.2 } := by
      rw [setAttribute, get?_modify, if_pos rfl, hn]
      rfl
    obtain ⟨n', hn', hkind, hchildren⟩ := ih hset
    exact ⟨n', hn', hkind, hchildren⟩

end Document

namespace Mounting

variable {m : Mounting} {parent : NodeId}

theorem parent_ne_new (hparent : parent.index < m.document.size) :
    parent ≠ ⟨m.document.size⟩ := by
  rintro rfl
  exact Nat.lt_irrefl _ hparent

theorem has_appendText (hparent : parent.index < m.document.size) (content : String) :
    (m.appendText parent content).document.Has ⟨m.document.size⟩ .text parent [] :=
  Document.has_appendChild (parent_ne_new hparent)
    (Document.get?_add_self (.new .text content) m.document)

theorem has_appendElement (hparent : parent.index < m.document.size) (tag : String)
    (attributes : Keyed String) :
    (m.appendElement parent tag attributes).document.Has ⟨m.document.size⟩ .element parent [] := by
  have hnew : (m.document.createElement tag).2.get? ⟨m.document.size⟩ =
      some (.new .element tag) := Document.get?_add_self (.new .element tag) m.document
  obtain ⟨n, hn, hkind, hchildren⟩ := Document.get?_setAttributes ⟨m.document.size⟩ attributes hnew
  have hhas := Document.has_appendChild (parent_ne_new hparent) hn
  rw [hkind, hchildren] at hhas
  exact hhas

end Mounting

namespace Forest

/-- A forest stands in a document below a node, its nodes numbered in order within these bounds. -/
inductive Mirrored (d : Document) : NodeId → Nat → Nat → Forest → Prop
  | nil {p : NodeId} {least bound : Nat} (h : least ≤ bound) : Mirrored d p least bound .nil
  | virtual {p : NodeId} {least middle bound : Nat} {f : Fiber} {below behind : Forest}
      (bare : f.node = none) (inside : Mirrored d p least middle below)
      (rest : Mirrored d p middle bound behind) : Mirrored d p least bound (.cons f below behind)
  | text {p n : NodeId} {least bound : Nat} {f : Fiber} {behind : Forest} (node : f.node = some n)
      (unrecorded : f.source = none) (order : least ≤ n.index) (has : d.Has n .text p [])
      (rest : Mirrored d p (n.index + 1) bound behind) :
      Mirrored d p least bound (.cons f .nil behind)
  | host {p n : NodeId} {least middle bound : Nat} {f : Fiber} {below behind : Forest}
      (node : f.node = some n) (order : least ≤ n.index) (has : d.Has n .element p below.surface)
      (inside : Mirrored d n (n.index + 1) middle below)
      (rest : Mirrored d p middle bound behind) : Mirrored d p least bound (.cons f below behind)
  | direct {p n t : NodeId} {least bound : Nat} {f : Fiber} {behind : Forest}
      (node : f.node = some n) (element : f.kind = .element)
      (shown : (childrenProp f).shown?.isSome) (order : least ≤ n.index ∧ n.index < t.index)
      (has : d.Has n .element p [t]) (text : d.Has t .text n [])
      (rest : Mirrored d p (t.index + 1) bound behind) :
      Mirrored d p least bound (.cons f .nil behind)

namespace Mirrored

variable {d d' : Document} {p : NodeId} {least middle bound : Nat} {x y : Forest}

theorem le (h : Mirrored d p least bound x) : least ≤ bound := by
  induction h with
  | nil h => exact h
  | virtual _ _ _ ihinside ihrest => omega
  | text _ _ order _ _ ih => omega
  | host _ order _ _ _ ihinside ihrest => omega
  | direct _ _ _ order _ _ _ ih => omega

theorem lower (h : Mirrored d p middle bound x) (hle : least ≤ middle) :
    Mirrored d p least bound x := by
  induction h generalizing least with
  | nil h => exact .nil (Nat.le_trans hle h)
  | virtual bare _ rest ihinside _ => exact .virtual bare (ihinside hle) rest
  | text node unrecorded order has rest _ =>
    exact .text node unrecorded (Nat.le_trans hle order) has rest
  | host node order has inside rest _ _ =>
    exact .host node (Nat.le_trans hle order) has inside rest
  | direct node element shown order has text rest _ =>
    exact .direct node element shown ⟨Nat.le_trans hle order.1, order.2⟩ has text rest

theorem append (h : Mirrored d p least middle x) (h' : Mirrored d p middle bound y) :
    Mirrored d p least bound (x.append y) := by
  induction h with
  | nil hle => exact h'.lower hle
  | virtual bare inside _ _ ih => exact .virtual bare inside (ih h')
  | text node unrecorded order has _ ih => exact .text node unrecorded order has (ih h')
  | host node order has inside _ _ ih => exact .host node order has inside (ih h')
  | direct node element shown order has text _ ih =>
    exact .direct node element shown order has text (ih h')

/-- Changes outside the bounds do not matter. -/
theorem congr (h : Mirrored d p least bound x)
    (hsame : ∀ id : NodeId, least ≤ id.index → id.index < bound → d'.get? id = d.get? id) :
    Mirrored d' p least bound x := by
  induction h with
  | nil hle => exact .nil hle
  | virtual bare inside rest ihinside ihrest =>
    have := inside.le
    have := rest.le
    exact .virtual bare (ihinside fun id h h' => hsame id h (by omega))
      (ihrest fun id h h' => hsame id (by omega) h')
  | text node unrecorded order has rest ih =>
    have := rest.le
    exact .text node unrecorded order (has.congr (hsame _ order (by omega)))
      (ih fun id h h' => hsame id (by omega) h')
  | host node order has inside rest ihinside ihrest =>
    have := inside.le
    have := rest.le
    exact .host node order (has.congr (hsame _ order (by omega)))
      (ihinside fun id h h' => hsame id (by omega) (by omega))
      (ihrest fun id h h' => hsame id (by omega) h')
  | direct node element shown order has text rest ih =>
    have := rest.le
    exact .direct node element shown order (has.congr (hsame _ order.1 (by omega)))
      (text.congr (hsame _ (by omega) (by omega))) (ih fun id h h' => hsame id (by omega) h')

end Mirrored

end Forest

/-! ## Mounting -/

/-- What is mounted into a node that is there stands below it. -/
def Mirrors (J : Planting) : Prop :=
  ∀ v parent m x m' l, J v parent m x m' l → parent.index < m.document.size →
    x.Mirrored m'.document parent m.document.size m'.document.size

section

variable {J : Planting} (hJ : Mirrors J) {parent : NodeId} {m m' : Mounting} {l : List Creation}
include hJ

theorem ItemPlanted.mirrors {v : Value} {x : Forest} (h : ItemPlanted J parent v m x m' l)
    (hparent : parent.index < m.document.size) :
    x.Mirrored m'.document parent m.document.size m'.document.size := by
  cases h with
  | nested mounted =>
    have hinside := hJ _ _ _ _ _ _ mounted hparent
    exact .virtual rfl hinside (.nil (Nat.le_refl _))
  | other single mounted => exact hJ _ _ _ _ _ _ mounted hparent

theorem ItemsPlanted.mirrors (hdraws : Draws J) {vs : List Value} {xs : List Forest}
    (h : ItemsPlanted J parent vs m xs m' l) (hparent : parent.index < m.document.size) :
    (Forest.join xs).Mirrored m'.document parent m.document.size m'.document.size := by
  induction h with
  | nil => exact .nil (Nat.le_refl _)
  | @cons v vs m m₁ m₂ x xs l₁ l₂ head tail ih =>
    have hhead := head.draws hdraws hparent
    have hparent' := Nat.lt_of_lt_of_le hparent hhead.size
    have htail := tail.draws hdraws hparent'
    refine Forest.Mirrored.append ?_ (ih hparent')
    refine (head.mirrors hJ hparent).congr fun id hid hlt => htail.old id hlt ?_
    rintro rfl
    exact Nat.not_lt_of_le hid hparent

/-- A host element, in which its content was mounted. -/
theorem ContentPlanted.mirrors (hdraws : Draws J) {e : CreatedElement Value} {tag : String}
    {x : Forest} (h : ContentPlanted J ⟨m.tree.size⟩ ⟨m.document.size⟩
      (Keyed.get? "children" e.props) (m.host e tag parent) x m' l)
    (hparent : parent.index < m.document.size) :
    (Forest.cons (hostFiber e ⟨m.document.size⟩ m.store) x .nil).Mirrored m'.document parent
      m.document.size m'.document.size := by
  have hhas := Mounting.has_appendElement hparent tag (attributesOf e.props)
  have hsize : (m.host e tag parent).document.size = m.document.size + 1 :=
    Mounting.size_appendElement tag (attributesOf e.props)
  have hprop := childrenProp_hostFiber e ⟨m.document.size⟩ m.store
  have hnew : (⟨m.document.size⟩ : NodeId).index < (m.host e tag parent).document.size := by
    rw [hsize]
    exact Nat.lt_succ_self _
  generalize hhost : m.host e tag parent = m₀ at h hsize hnew
  have hhas : m₀.document.Has ⟨m.document.size⟩ .element parent [] := hhost ▸ hhas
  have hempty : (Forest.cons (hostFiber e ⟨m.document.size⟩ m.store) .nil .nil).Mirrored m₀.document
      parent m.document.size m₀.document.size :=
    .host rfl (Nat.le_refl _) hhas (.nil hnew) (.nil (Nat.le_refl _))
  generalize Keyed.get? "children" e.props = v at h hprop
  cases h with
  | absent => exact hempty
  | empty hidden => exact hempty
  | @shown v content _ shown filled =>
    have hadded := Mounting.has_appendText hnew content
    have hsize' := @Mounting.size_appendText m₀ ⟨m.document.size⟩ content
    have hgrown := hhas.extend ((Mounting.get?_appendText hnew content).trans (if_pos rfl))
    refine .direct rfl rfl ?_ ⟨Nat.le_refl _, hnew⟩ hgrown hadded (.nil (Nat.le_of_eq hsize'.symm))
    rw [hprop, Option.getD_some, shown]
    rfl
  | @other v _ m₁ x _ composed mounted =>
    have hdrawn := hdraws _ _ _ _ _ _ mounted hnew
    have hinside := hJ _ _ _ _ _ _ mounted hnew
    rw [hsize] at hinside
    exact .host rfl (Nat.le_refl _) (hhas.extend hdrawn.children) hinside (.nil (Nat.le_refl _))

theorem Planted.mirrors (hdraws : Draws J) (depth : Nat) : Mirrors (Planted J depth) := by
  intro v parent m x m' l h hparent
  cases h with
  | absent nothing => exact .nil (Nat.le_refl _)
  | @text v content _ _ shown filled =>
    have hsize := @Mounting.size_appendText m parent content
    exact .text rfl rfl (Nat.le_refl _) (Mounting.has_appendText hparent content)
      (.nil (Nat.le_of_eq hsize.symm))
  | array mounted => exact mounted.mirrors hJ hdraws hparent
  | host type content => exact content.mirrors hJ hdraws hparent
  | component type called mounted =>
    have hinside := hJ _ _ _ _ _ _ mounted hparent
    exact .virtual rfl hinside (.nil (Nat.le_refl _))

end

theorem Plants.mirrors (depth n : Nat) : Mirrors (Plants depth n) := by
  induction n with
  | zero => exact fun _ _ _ _ _ _ h => h.elim
  | succ n ih => exact Planted.mirrors ih (Plants.draws depth n) depth

end MarkupTrace.Render
