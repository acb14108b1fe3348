import MarkupTrace.Proofs.Runs
import Mathlib.Data.List.Nodup
import Mathlib.Logic.Relation

/-!
# Documents stay forests

Appending does not take a node from where it was. A document is a forest nevertheless, since nothing is
appended but new nodes, to nodes that are there, and clearing a container undoes the links to its
children in both directions. It is one after every render, also where this stops half-way. As links
lead to later nodes only, the recursions along them need no bound.
-/

namespace MarkupTrace

open Render

namespace Render.Document

/-! ## Forests -/

/-- One node is a child of another. -/
def Holds (d : Document) (p c : NodeId) : Prop := c ∈ d.children p

/-- The texts at and below a node, given those of its children. -/
def textWith (inner : NodeId → String) (id : NodeId) (d : Document) : String :=
  match d.get? id with
  | none => ""
  | some n =>
    match n.kind with
    | .text => n.name
    | _ => String.join (n.children.map inner)

/-- The markup of a node, given that of its children. -/
def htmlWith (inner : NodeId → String) (id : NodeId) (d : Document) : String :=
  match d.get? id with
  | none => ""
  | some n =>
    match n.kind with
    | .text => n.name
    | .container => String.join (n.children.map inner)
    | .element =>
      "<" ++ n.name ++ attributesHtml n.attributes ++ ">" ++ String.join (n.children.map inner) ++
        "</" ++ n.name ++ ">"

/-- The links of a document in both directions are those of a forest with the containers on top. -/
structure IsForest (d : Document) : Prop where
  nodup : ∀ p, (d.children p).Nodup
  eq_of_holds : ∀ p q c, d.Holds p c → d.Holds q c → p = q
  parent_iff : ∀ c p, ((d.get? c).bind (·.parent) = some p) ↔ d.Holds p c
  parent_container : ∀ id n, d.get? id = some n → n.kind = .container → n.parent = none
  children_text : ∀ id n, d.get? id = some n → n.kind = .text → n.children = []
  acyclic : ∀ id, ¬ Relation.TransGen d.Holds id id
  /-- Going down comes to an end. -/
  wellFounded : WellFounded fun c p => d.Holds p c

/-- What makes a document a forest and is kept by every step: links lead from a node to later ones. -/
structure Linked (d : Document) : Prop where
  nodup : ∀ p, (d.children p).Nodup
  parent_iff : ∀ c p, ((d.get? c).bind (·.parent) = some p) ↔ d.Holds p c
  parent_container : ∀ id n, d.get? id = some n → n.kind = .container → n.parent = none
  children_text : ∀ id n, d.get? id = some n → n.kind = .text → n.children = []
  later : ∀ p c, d.Holds p c → p.index < c.index

theorem lt_size_of_get? {d : Document} {id : NodeId} {n : Node} (h : d.get? id = some n) :
    id.index < d.size :=
  (Array.getElem?_eq_some_iff.mp h).1

theorem get?_eq_none {d : Document} {id : NodeId} (h : d.size ≤ id.index) : d.get? id = none :=
  Array.getElem?_eq_none h

theorem children_eq_nil {d : Document} {id : NodeId} (h : d.size ≤ id.index) :
    d.children id = [] := by
  rw [children, get?_eq_none h]
  rfl

namespace Linked

variable {d : Document} (h : d.Linked)
include h

theorem later_of_transGen {p c : NodeId} (hbelow : Relation.TransGen d.Holds p c) :
    p.index < c.index := by
  induction hbelow with
  | single hc => exact h.later _ _ hc
  | tail _ hc ih => exact Nat.lt_trans ih (h.later _ _ hc)

theorem eq_of_holds {p q c : NodeId} (hp : d.Holds p c) (hq : d.Holds q c) : p = q :=
  Option.some.inj (((h.parent_iff c p).mpr hp).symm.trans ((h.parent_iff c q).mpr hq))

theorem exists_get?_of_holds {p c : NodeId} (hc : d.Holds p c) :
    ∃ n, d.get? c = some n ∧ n.parent = some p :=
  Option.bind_eq_some_iff.mp ((h.parent_iff c p).mpr hc)

/-- What is added next is below nothing yet. -/
theorem not_holds_size (p : NodeId) : ¬ d.Holds p ⟨d.size⟩ := by
  intro hc
  obtain ⟨n, hn, -⟩ := h.exists_get?_of_holds hc
  exact Nat.lt_irrefl _ (lt_size_of_get? hn)

/-- A container is below nothing. -/
theorem not_holds_container {p c : NodeId} {n : Node} (hn : d.get? c = some n)
    (hkind : n.kind = .container) : ¬ d.Holds p c := by
  intro hc
  have hparent := (h.parent_iff c p).mpr hc
  rw [hn, Option.bind_some, h.parent_container c n hn hkind] at hparent
  cases hparent

/-- The numbers of nodes below a node are bounded by the size of the document. -/
theorem wellFounded : WellFounded fun c p => d.Holds p c := by
  refine Subrelation.wf ?_ (InvImage.wf (fun id : NodeId => d.size - id.index) Nat.lt_wfRel.wf)
  intro c p hc
  obtain ⟨n, hn, -⟩ := h.exists_get?_of_holds hc
  have hlt := lt_size_of_get? hn
  have hlater := h.later p c hc
  change d.size - c.index < d.size - p.index
  omega

theorem isForest : d.IsForest where
  nodup := h.nodup
  eq_of_holds _ _ _ := h.eq_of_holds
  parent_iff := h.parent_iff
  parent_container := h.parent_container
  children_text := h.children_text
  acyclic _ hcycle := Nat.lt_irrefl _ (h.later_of_transGen hcycle)
  wellFounded := h.wellFounded

/-- A bound that leaves room for all later nodes is as good as any larger one. -/
theorem textTo_succ {depth : Nat} {id : NodeId} (hdepth : d.size ≤ id.index + depth) :
    d.textTo (depth + 1) id = d.textTo depth id := by
  induction depth generalizing id with
  | zero =>
    have hnone : d.get? id = none := get?_eq_none hdepth
    simp only [textTo, hnone]
  | succ depth ih =>
    rw [textTo, textTo]
    cases hn : d.get? id with
    | none => rfl
    | some n =>
      have hinner : n.children.map (d.textTo (depth + 1)) = n.children.map (d.textTo depth) := by
        refine List.map_congr_left fun c hc => ih ?_
        have hlater := h.later id c (by rwa [Holds, children_of_get? hn])
        omega
      dsimp only
      rw [hinner]

theorem htmlTo_succ {depth : Nat} {id : NodeId} (hdepth : d.size ≤ id.index + depth) :
    d.htmlTo (depth + 1) id = d.htmlTo depth id := by
  induction depth generalizing id with
  | zero =>
    have hnone : d.get? id = none := get?_eq_none hdepth
    simp only [htmlTo, hnone]
  | succ depth ih =>
    rw [htmlTo, htmlTo]
    cases hn : d.get? id with
    | none => rfl
    | some n =>
      have hinner : n.children.map (d.htmlTo (depth + 1)) = n.children.map (d.htmlTo depth) := by
        refine List.map_congr_left fun c hc => ih ?_
        have hlater := h.later id c (by rwa [Holds, children_of_get? hn])
        omega
      dsimp only
      rw [hinner]

theorem text_eq (id : NodeId) : d.text id = d.textWith d.text id := by
  rw [Document.text, ← h.textTo_succ (Nat.le_add_left _ _)]
  rfl

theorem html_eq (id : NodeId) : d.html id = d.htmlWith d.html id := by
  rw [Document.html, ← h.htmlTo_succ (Nat.le_add_left _ _)]
  rfl

end Linked

/-! ## Steps -/

theorem linked_empty : empty.Linked := by
  have hnone : ∀ id, empty.get? id = none := fun _ => rfl
  refine ⟨fun _ => .nil, ?_, ?_, ?_, ?_⟩
  · intro c p
    rw [hnone]
    simp [Holds, children, hnone]
  · intro id n hn
    cases hn
  · intro id n hn
    cases hn
  · intro p c hc
    cases hc

theorem get?_createContainer (id : NodeId) (d : Document) : d.createContainer.2.get? id =
    if id.index = d.size then some (.new .container containerName) else d.get? id := by
  split
  next heq =>
    obtain ⟨i⟩ := id
    dsimp only at heq
    subst heq
    exact get?_add_self _ d
  next hne =>
    rcases Nat.lt_or_ge id.index d.size with hlt | hge
    · exact get?_add_of_lt hlt _
    · have hsize : d.createContainer.2.size = d.size + 1 := size_add _ d
      rw [get?_eq_none hge, get?_eq_none (by omega)]

theorem children_createContainer (id : NodeId) (d : Document) :
    d.createContainer.2.children id = d.children id := by
  rw [children, get?_createContainer]
  split
  next heq =>
    rw [children_eq_nil (Nat.le_of_eq heq.symm)]
    rfl
  next => rfl

theorem parent_createContainer (id : NodeId) (d : Document) :
    (d.createContainer.2.get? id).bind (·.parent) = (d.get? id).bind (·.parent) := by
  rw [get?_createContainer]
  split
  next heq =>
    rw [get?_eq_none (Nat.le_of_eq heq.symm)]
    rfl
  next => rfl

/-- A new container has no links. -/
theorem Linked.createContainer {d : Document} (h : d.Linked) : d.createContainer.2.Linked where
  nodup p := by
    rw [children_createContainer]
    exact h.nodup p
  parent_iff c p := by
    rw [parent_createContainer, Holds, children_createContainer]
    exact h.parent_iff c p
  parent_container id n hn hkind := by
    rw [get?_createContainer] at hn
    split at hn
    next => exact Option.some.inj hn ▸ rfl
    next => exact h.parent_container id n hn hkind
  children_text id n hn hkind := by
    rw [get?_createContainer] at hn
    split at hn
    next => exact Option.some.inj hn ▸ rfl
    next => exact h.children_text id n hn hkind
  later p c hc := by
    rw [Holds, children_createContainer] at hc
    exact h.later p c hc

theorem children_clearChildren_eq (container id : NodeId) (d : Document) :
    (d.clearChildren container).children id = if id = container then [] else d.children id := by
  unfold children
  rw [get?_clearChildren]
  cases d.get? id <;> simp

theorem parent_clearChildren_eq (container id : NodeId) (d : Document) :
    ((d.clearChildren container).get? id).bind (·.parent) =
      if id ∈ d.children container then none else (d.get? id).bind (·.parent) := by
  rw [get?_clearChildren]
  cases d.get? id <;> simp

/-- Clearing undoes the links to the children in both directions. -/
theorem Linked.clearChildren {d : Document} (h : d.Linked) (container : NodeId) :
    (d.clearChildren container).Linked where
  nodup p := by
    rw [children_clearChildren_eq]
    split
    · exact .nil
    · exact h.nodup p
  parent_iff c p := by
    rw [parent_clearChildren_eq, Holds, children_clearChildren_eq]
    split
    next hcleared =>
      refine ⟨nofun, fun hc => ?_⟩
      split at hc
      next => cases hc
      next hne => exact absurd (h.eq_of_holds hc hcleared) hne
    next hkept =>
      rw [h.parent_iff]
      split
      next heq =>
        rw [heq]
        exact ⟨fun hc => absurd hc hkept, nofun⟩
      next => exact Iff.rfl
  parent_container id n hn hkind := by
    rw [get?_clearChildren] at hn
    obtain ⟨n₀, hn₀, rfl⟩ := Option.map_eq_some_iff.mp hn
    dsimp only
    split
    · rfl
    · exact h.parent_container id n₀ hn₀ hkind
  children_text id n hn hkind := by
    rw [get?_clearChildren] at hn
    obtain ⟨n₀, hn₀, rfl⟩ := Option.map_eq_some_iff.mp hn
    dsimp only
    split
    · rfl
    · exact h.children_text id n₀ hn₀ hkind
  later p c hc := by
    rw [Holds, children_clearChildren_eq] at hc
    split at hc
    next => cases hc
    next => exact h.later p c hc

/-- A new node without children is appended to one that is there and is not a text. -/
structure Grows (parent : NodeId) (d d' : Document) : Prop where
  size : d'.size = d.size + 1
  old : ∀ id : NodeId, id.index < d.size → d'.get? id =
    if parent = id then (d.get? id).map fun n => { n with children := n.children ++ [⟨d.size⟩] }
    else d.get? id
  new : ∃ n, d'.get? ⟨d.size⟩ = some n ∧ n.kind ≠ .container ∧ n.parent = some parent ∧
    n.children = []
  fertile : ∃ n, d.get? parent = some n ∧ n.kind ≠ .text

namespace Grows

variable {parent : NodeId} {d d' : Document} (h : Grows parent d d')
include h

/-- A node of the grown document is the new one, or one that was there and may have got the new one
as its last child. -/
theorem get?_cases {id : NodeId} {n : Node} (hn : d'.get? id = some n) :
    id = ⟨d.size⟩ ∧ n.kind ≠ .container ∧ n.parent = some parent ∧ n.children = [] ∨
      ∃ n₀, d.get? id = some n₀ ∧ n.kind = n₀.kind ∧ n.parent = n₀.parent ∧
        n.children = n₀.children ++ if parent = id then [⟨d.size⟩] else [] := by
  have hlt := lt_size_of_get? hn
  rw [h.size] at hlt
  rcases Nat.lt_or_ge id.index d.size with hold | hge
  · right
    rw [h.old id hold] at hn
    split at hn
    next heq =>
      obtain ⟨n₀, hn₀, rfl⟩ := Option.map_eq_some_iff.mp hn
      exact ⟨n₀, hn₀, rfl, rfl, by rw [if_pos heq]⟩
    next hne => exact ⟨n, hn, rfl, rfl, by rw [if_neg hne, List.append_nil]⟩
  · left
    obtain ⟨i⟩ := id
    dsimp only at hlt hge
    obtain rfl : i = d.size := by omega
    obtain ⟨n₁, hn₁, hnew⟩ := h.new
    obtain rfl : n = n₁ := Option.some.inj (hn.symm.trans hn₁)
    exact ⟨rfl, hnew⟩

theorem children_eq (id : NodeId) :
    d'.children id = d.children id ++ if parent = id then [⟨d.size⟩] else [] := by
  cases hn : d'.get? id with
  | some n =>
    rw [children_of_get? hn]
    rcases h.get?_cases hn with ⟨rfl, -, -, hchildren⟩ | ⟨n₀, hn₀, -, -, hchildren⟩
    · obtain ⟨n₁, hn₁, -⟩ := h.fertile
      have hne : parent ≠ ⟨d.size⟩ := by
        rintro rfl
        exact Nat.lt_irrefl _ (lt_size_of_get? hn₁)
      have hnone : d.children ⟨d.size⟩ = [] := children_eq_nil (Nat.le_refl _)
      rw [hchildren, if_neg hne, hnone]
      rfl
    · rw [hchildren, children_of_get? hn₀]
  | none =>
    have hge : d'.size ≤ id.index := Array.getElem?_eq_none_iff.mp hn
    rw [h.size] at hge
    obtain ⟨n₁, hn₁, -⟩ := h.fertile
    have hne : parent ≠ id := by
      rintro rfl
      exact absurd (lt_size_of_get? hn₁) (by omega)
    rw [children, hn, if_neg hne, children_eq_nil (by omega)]
    rfl

theorem parent_eq (c : NodeId) : (d'.get? c).bind (·.parent) =
    if c = ⟨d.size⟩ then some parent else (d.get? c).bind (·.parent) := by
  split
  next heq =>
    obtain ⟨n, hn, -, hparent, -⟩ := h.new
    rw [heq, hn]
    exact hparent
  next hne =>
    rcases Nat.lt_or_ge c.index d.size with hlt | hge
    · rw [h.old c hlt]
      split
      next => cases d.get? c <;> rfl
      next => rfl
    · have hbeyond : d.size ≠ c.index := by
        intro heq
        exact hne (heq ▸ rfl)
      rw [get?_eq_none hge, get?_eq_none (by rw [h.size]; omega)]

/-- A node gets the new one as a child, or keeps those that it has. -/
theorem holds_iff {p c : NodeId} : d'.Holds p c ↔ d.Holds p c ∨ parent = p ∧ c = ⟨d.size⟩ := by
  rw [Holds, h.children_eq, List.mem_append, Holds]
  split
  next heq => rw [List.mem_singleton, and_iff_right heq]
  next hne => simp only [List.not_mem_nil, hne, false_and]

theorem linked (hlinked : d.Linked) : d'.Linked where
  nodup p := by
    rw [h.children_eq]
    split
    · rw [← List.concat_eq_append]
      exact List.Nodup.concat (hlinked.not_holds_size p) (hlinked.nodup p)
    · rw [List.append_nil]
      exact hlinked.nodup p
  parent_iff c p := by
    rw [h.parent_eq, h.holds_iff]
    split
    next heq =>
      rw [heq, Option.some.injEq, or_iff_right (hlinked.not_holds_size p), and_iff_left rfl]
    next hne =>
      rw [or_iff_left fun hnew => hne hnew.2]
      exact hlinked.parent_iff c p
  parent_container id n hn hkind := by
    rcases h.get?_cases hn with ⟨-, hne, -⟩ | ⟨n₀, hn₀, hkind₀, hparent, -⟩
    · exact absurd hkind hne
    · rw [hparent]
      exact hlinked.parent_container id n₀ hn₀ (hkind₀ ▸ hkind)
  children_text id n hn hkind := by
    rcases h.get?_cases hn with ⟨-, -, -, hchildren⟩ | ⟨n₀, hn₀, hkind₀, -, hchildren⟩
    · exact hchildren
    · rw [hkind₀] at hkind
      have hne : parent ≠ id := by
        rintro rfl
        obtain ⟨n₁, hn₁, hkind₁⟩ := h.fertile
        obtain rfl : n₀ = n₁ := Option.some.inj (hn₀.symm.trans hn₁)
        exact hkind₁ hkind
      rw [hchildren, if_neg hne, hlinked.children_text id n₀ hn₀ hkind]
      rfl
  later p c hc := by
    rcases h.holds_iff.mp hc with hc | ⟨rfl, rfl⟩
    · exact hlinked.later p c hc
    · obtain ⟨n₁, hn₁, -⟩ := h.fertile
      exact lt_size_of_get? hn₁

end Grows

end Document

/-! ## Renders -/

section

variable {parent : NodeId} {m : Mounting}

/-- What is put behind the children of a node. -/
theorem Document.exists_get?_appendChild {d : Document} {child : NodeId} {n : Node}
    (hn : d.get? child = some n) (hne : parent ≠ child) : ∃ n',
      (d.appendChild parent child).get? child = some n' ∧ n'.kind = n.kind ∧
        n'.parent = some parent ∧ n'.children = n.children := by
  rw [get?_appendChild, if_neg hne, get?_modify, if_pos rfl, hn]
  exact ⟨_, rfl, rfl, rfl, rfl⟩

theorem Mounting.grows_appendText (hparent : ∃ n, m.document.get? parent = some n ∧ n.kind ≠ .text)
    (content : String) :
    Document.Grows parent m.document (m.appendText parent content).document := by
  have hne : parent ≠ ⟨m.document.size⟩ := by
    obtain ⟨n, hn, -⟩ := hparent
    rintro rfl
    exact Nat.lt_irrefl _ (Document.lt_size_of_get? hn)
  have hadded : (m.document.createText content).2.get? ⟨m.document.size⟩ =
      some (.new .text content) := Document.get?_add_self (.new .text content) m.document
  obtain ⟨n, hn, hkind, hup, hchildren⟩ := Document.exists_get?_appendChild hadded hne
  refine ⟨size_appendText content, fun id hid => get?_appendText hid content, ⟨n, hn, ?_, hup, ?_⟩,
    hparent⟩
  · rw [hkind]
    exact nofun
  · exact hchildren

theorem Mounting.grows_appendElement
    (hparent : ∃ n, m.document.get? parent = some n ∧ n.kind ≠ .text) (tag : String)
    (attributes : Keyed String) :
    Document.Grows parent m.document (m.appendElement parent tag attributes).document := by
  have hne : parent ≠ ⟨m.document.size⟩ := by
    obtain ⟨n, hn, -⟩ := hparent
    rintro rfl
    exact Nat.lt_irrefl _ (Document.lt_size_of_get? hn)
  have hadded : (m.document.createElement tag).2.get? ⟨m.document.size⟩ =
      some (.new .element tag) := Document.get?_add_self (.new .element tag) m.document
  obtain ⟨n₀, hset, hkind₀, hchildren₀⟩ :=
    Document.get?_setAttributes ⟨m.document.size⟩ attributes hadded
  obtain ⟨n, hn, hkind, hup, hchildren⟩ := Document.exists_get?_appendChild hset hne
  refine ⟨size_appendElement tag attributes, fun id hid => get?_appendElement hid tag attributes,
    ⟨n, hn, ?_, hup, ?_⟩, hparent⟩
  · rw [hkind, hkind₀]
    exact nofun
  · rw [hchildren, hchildren₀]
    rfl

end

/-- The node may have children. -/
theorem Opens.exists_get? {base node : NodeId} {least : Nat} {d : Document}
    (h : Opens base least d node) (hbase : ∃ n, d.get? base = some n ∧ n.kind ≠ .text) :
    ∃ n, d.get? node = some n ∧ n.kind ≠ .text := by
  rcases h with rfl | ⟨-, n, hn, hkind⟩
  · exact hbase
  · refine ⟨n, hn, ?_⟩
    rw [hkind]
    exact nofun

namespace Document

theorem Grows.fertile_of_get? {parent node : NodeId} {d d' : Document} (h : Grows parent d d')
    (hnode : ∃ n, d.get? node = some n ∧ n.kind ≠ .text) :
    ∃ n, d'.get? node = some n ∧ n.kind ≠ .text := by
  obtain ⟨n, hn, hkind⟩ := hnode
  rw [h.old node (lt_size_of_get? hn), hn]
  split
  · exact ⟨_, rfl, hkind⟩
  · exact ⟨n, rfl, hkind⟩

theorem Linked.appends {base : NodeId} {least : Nat} {d d' : Document} (hlinked : d.Linked)
    (hbase : ∃ n, d.get? base = some n ∧ n.kind ≠ .text) (h : Appends base least d d') :
    d'.Linked := by
  induction h with
  | done => exact hlinked
  | text content opens _ ih =>
    have hgrows := Mounting.grows_appendText (opens.exists_get? hbase) content
    exact ih (hgrows.linked hlinked) (hgrows.fertile_of_get? hbase)
  | element tag attributes opens _ ih =>
    have hgrows := Mounting.grows_appendElement (opens.exists_get? hbase) tag attributes
    exact ih (hgrows.linked hlinked) (hgrows.fertile_of_get? hbase)

/-- However a rendering ends, what it leaves is a forest. -/
theorem Linked.renderInto {container : NodeId} {d : Document} (h : d.Linked)
    (hcontainer : ∃ n, d.get? container = some n ∧ n.kind = .container) (depth : Nat) (v : Value)
    (s : Store) : (Render.renderInto depth container v s d).2.2.Linked := by
  refine (h.clearChildren container).appends ?_ (renderInto_appends depth container v s d)
  obtain ⟨n, hn, hkind⟩ := hcontainer
  rw [get?_clearChildren, hn]
  refine ⟨_, rfl, ?_⟩
  dsimp only
  rw [hkind]
  exact nofun

/-- A node at or below a container is neither another container nor a child of one. -/
theorem Linked.apart {d : Document} (h : d.Linked) {container other node : NodeId} {n n' : Node}
    (hn : d.get? container = some n) (hkind : n.kind = .container)
    (hn' : d.get? other = some n') (hkind' : n'.kind = .container) (hne : other ≠ container)
    (hbelow : Relation.ReflTransGen d.Holds other node) :
    node.index < d.size ∧ node ≠ container ∧ ¬ d.Holds container node := by
  have hnever : ∀ {id}, Relation.ReflTransGen d.Holds other id → id ≠ container := by
    intro id hid heq
    rcases hid.cases_tail with rfl | ⟨p, -, hp⟩
    · exact hne heq
    · exact h.not_holds_container hn hkind (heq ▸ hp)
  rcases hbelow.cases_tail with rfl | ⟨p, hp, hc⟩
  · exact ⟨lt_size_of_get? hn', hne, h.not_holds_container hn' hkind'⟩
  · obtain ⟨n₁, hn₁, -⟩ := h.exists_get?_of_holds hc
    exact ⟨lt_size_of_get? hn₁, hnever hbelow, fun hheld => hnever hp (h.eq_of_holds hc hheld)⟩

/-- Rendering into a container leaves what is at and below another one as it is. -/
theorem Linked.get?_renderInto {d : Document} (h : d.Linked) {container other node : NodeId}
    (hcontainer : ∃ n, d.get? container = some n ∧ n.kind = .container)
    (hother : ∃ n, d.get? other = some n ∧ n.kind = .container) (hne : other ≠ container)
    (hbelow : Relation.ReflTransGen d.Holds other node) (depth : Nat) (v : Value) (s : Store) :
    (Render.renderInto depth container v s d).2.2.get? node = d.get? node := by
  obtain ⟨n, hn, hkind⟩ := hcontainer
  obtain ⟨n', hn', hkind'⟩ := hother
  obtain ⟨hlt, hnode, hheld⟩ := h.apart hn hkind hn' hkind' hne hbelow
  have hspared := Live.Session.spared_renderInto depth v s (lt_size_of_get? hn)
  rw [hspared.others node hlt hnode]
  cases d.get? node with
  | none => rfl
  | some n₁ =>
    have hnot : node ∉ d.children container := hheld
    rw [Option.map_some, if_neg hnot]

end Document

end Render

namespace Live

/-- Roots are made by renderers that are there, and this renderer renders into its own roots. -/
def Action.Keeps (id : RendererId) (s : Session) : Action → Prop
  | .createRoot renderer => ∃ r, s.renderer? renderer = some r
  | .render _ renderer root _ => renderer = id → ∀ r, s.root? root = some r → r.owner = id
  | _ => True

namespace Session

def Keeps (id : RendererId) : List Action → Session → Prop
  | [], _ => True
  | a :: as, s => a.Keeps id s ∧ Keeps id as (s.perform a)

theorem Contained.perform {s : Session} (h : s.Contained) {id : RendererId} {a : Action}
    (ha : a.Keeps id s) : (s.perform a).Contained := by
  cases a with
  | addRenderer => exact h.of_document rfl fun other => document_addRenderer other s
  | createRoot renderer =>
    obtain ⟨r, hr⟩ := ha
    exact h.createRoot hr
  | render depth renderer root v => exact h.render depth renderer root v
  | finish bridge => exact h.finish bridge
  | load | call | attach | subscribe | unsubscribe | shut | take => exact h.of_document rfl fun _ => rfl

/-- What an action does to the document of a renderer: nothing, or it adds a container or renders into
one. -/
theorem document_perform {s : Session} (h : s.Contained) {id : RendererId} {a : Action}
    (ha : a.Keeps id s) : (s.perform a).document id = s.document id ∨
      (s.perform a).document id = (s.document id).createContainer.2 ∨
      ∃ depth container v n, (s.document id).get? container = some n ∧ n.kind = .container ∧
        (s.perform a).document id =
          (renderInto depth container v s.store (s.document id)).2.2 := by
  cases a with
  | addRenderer => exact .inl (document_addRenderer id s)
  | createRoot renderer =>
    obtain ⟨r, hr⟩ := ha
    rw [Session.perform, document_createRoot hr]
    split
    next heq => exact .inr (.inl (by rw [heq]))
    next => exact .inl rfl
  | render depth renderer root v =>
    rcases document_render depth renderer root v s id with hsame | ⟨rfl, r, hroot, hinto⟩
    · exact .inl hsame
    · obtain ⟨n, hn, hkind⟩ := h _ (mem_places hroot)
      have howner := ha rfl r hroot
      dsimp only at hn
      rw [howner] at hn
      exact .inr (.inr ⟨depth, r.container, v, n, hn, hkind, hinto⟩)
  | finish bridge => exact .inl (document_finish bridge s id)
  | load | call | attach | subscribe | unsubscribe | shut | take => exact .inl rfl

theorem linked_perform {s : Session} (h : s.Contained) {id : RendererId} {a : Action}
    (ha : a.Keeps id s) (hlinked : (s.document id).Linked) :
    ((s.perform a).document id).Linked := by
  rcases document_perform h ha with hsame | hadded | ⟨depth, container, v, n, hn, hkind, hinto⟩
  · rw [hsame]
    exact hlinked
  · rw [hadded]
    exact hlinked.createContainer
  · rw [hinto]
    exact hlinked.renderInto ⟨n, hn, hkind⟩ depth v s.store

theorem linked_run {s : Session} (h : s.Contained) {id : RendererId} {as : List Action}
    (has : Keeps id as s) (hlinked : (s.document id).Linked) :
    (s.run as).Contained ∧ ((s.run as).document id).Linked := by
  induction as generalizing s with
  | nil => exact ⟨h, hlinked⟩
  | cons a as ih => exact ih (h.perform has.1) has.2 (linked_perform h has.1 hlinked)

/-- The document of a renderer is a forest after every run in which the renderer renders into its own
roots, whether the renders succeed or fail. Its markup and its texts are made by recursions that need
no bound. One more render leaves everything at and below the other containers as it is. -/
theorem documents_are_forests {store : Store} {id : RendererId} {as : List Action} {s : Session}
    (hkeeps : Keeps id as (ofStore store)) (hrun : (ofStore store).run as = s) :
    (s.document id).IsForest ∧
      (∀ node, (s.document id).html node = (s.document id).htmlWith (s.document id).html node) ∧
      (∀ node, (s.document id).text node = (s.document id).textWith (s.document id).text node) ∧
      ∀ depth root r v, s.root? root = some r → r.owner = id →
        ∀ other n, (s.document id).get? other = some n → n.kind = .container →
          other ≠ r.container → ∀ node, Relation.ReflTransGen (s.document id).Holds other node →
            ((s.render depth id root v).2.document id).get? node = (s.document id).get? node := by
  have hempty : (ofStore store).document id = .empty := by
    unfold document renderer?
    split <;> rfl
  obtain ⟨hcontained, hlinked⟩ :=
    linked_run (Reached.start store).contained hkeeps (hempty ▸ Document.linked_empty)
  rw [hrun] at hcontained hlinked
  refine ⟨hlinked.isForest, hlinked.html_eq, hlinked.text_eq, ?_⟩
  intro depth root r v hroot howner other n hn hkind hne node hbelow
  rcases document_render depth id root v s id with hsame | ⟨-, r', hroot', hinto⟩
  · rw [hsame]
  · obtain rfl : r = r' := Option.some.inj (hroot.symm.trans hroot')
    have hcontainer := hcontained _ (mem_places hroot)
    dsimp only at hcontainer
    rw [howner] at hcontainer
    rw [hinto]
    exact hlinked.get?_renderInto hcontainer ⟨n, hn, hkind⟩ hne hbelow depth v s.store

/-- Two roots, one of them rendered twice, the second time with a failure. -/
def twoRoots : List Action :=
  [.addRenderer, .createRoot ⟨1⟩, .createRoot ⟨1⟩, .render 4 ⟨1⟩ ⟨0⟩ nestedElement,
    .render 4 ⟨1⟩ ⟨1⟩ nestedElement, .render 4 ⟨1⟩ ⟨0⟩ brokenElement]

/-- The last render failed after it had mounted an element, and the first root holds this element now.
The second root holds what it held. -/
theorem documents_are_forests_after_failure : Keeps ⟨1⟩ twoRoots (ofStore .empty) ∧
    ((ofStore .empty).run twoRoots).html ⟨0⟩ = "<i>y</i>" ∧
    ((ofStore .empty).run twoRoots).html ⟨1⟩ = "<p>a<b>c</b></p>" ∧
    (((ofStore .empty).run twoRoots).document ⟨1⟩).IsForest := by
  have hown : ∀ {s : Session} {root : RootId} {r : Root}, s.root? root = some r → r.owner = ⟨1⟩ →
      ∀ r', s.root? root = some r' → r'.owner = ⟨1⟩ := by
    intro s root r hr howner r' hr'
    rwa [← Option.some.inj (hr.symm.trans hr')]
  have hkeeps : Keeps ⟨1⟩ twoRoots (ofStore .empty) :=
    ⟨trivial, ⟨_, rfl⟩, ⟨_, rfl⟩, fun _ => hown rfl rfl, fun _ => hown rfl rfl,
      fun _ => hown rfl rfl, trivial⟩
  exact ⟨hkeeps, by decide, by decide, (documents_are_forests hkeeps rfl).1⟩

end Session

end Live

end MarkupTrace
