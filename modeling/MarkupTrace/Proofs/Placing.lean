import MarkupTrace.Proofs.Standing

/-!
# Nodes stand in the order they were made

Mounting into a node changes no other node that was there. The nodes of the forest are new, in
increasing order, and those on top come behind the children of the node. What is mounted into a host
element afterwards stays as it is.
-/

namespace MarkupTrace.Render

open Eval

/-! ## Documents -/

namespace Document

theorem get?_appendChild (parent child id : NodeId) (d : Document) :
    (d.appendChild parent child).get? id =
      if parent = id then ((d.modify child fun n => { n with parent := some parent }).get? id).map
        fun n => { n with children := n.children ++ [child] }
      else (d.modify child fun n => { n with parent := some parent }).get? id := by
  rw [appendChild, get?_modify]

@[simp] theorem size_appendChild (parent child : NodeId) (d : Document) :
    (d.appendChild parent child).size = d.size := by
  simp [appendChild]

/-- Appending a node that is not the parent changes the children of the parent and nothing else of
the nodes before the new one. -/
theorem get?_appendChild_of_ne {parent child id : NodeId} (hid : id ≠ child) (d : Document) :
    (d.appendChild parent child).get? id =
      if parent = id then (d.get? id).map fun n => { n with children := n.children ++ [child] }
      else d.get? id := by
  rw [get?_appendChild, get?_modify, if_neg (Ne.symm hid)]

@[simp] theorem size_setAttributes (id : NodeId) (attributes : Keyed String) (d : Document) :
    (attributes.foldl (fun d a => d.setAttribute id a.1 a.2) d).size = d.size := by
  induction attributes generalizing d with
  | nil => rfl
  | cons a attributes ih => rw [List.foldl_cons, ih, setAttribute, size_modify]

theorem get?_setAttributes_of_ne {id other : NodeId} (h : other ≠ id) (attributes : Keyed String)
    (d : Document) :
    (attributes.foldl (fun d a => d.setAttribute id a.1 a.2) d).get? other = d.get? other := by
  induction attributes generalizing d with
  | nil => rfl
  | cons a attributes ih =>
    rw [List.foldl_cons, ih, setAttribute, get?_modify, if_neg (Ne.symm h)]

theorem children_setAttributes (id : NodeId) (attributes : Keyed String) (d : Document) :
    (attributes.foldl (fun d a => d.setAttribute id a.1 a.2) d).children id = d.children id := by
  induction attributes generalizing d with
  | nil => rfl
  | cons a attributes ih =>
    rw [List.foldl_cons, ih, setAttribute, children, get?_modify, if_pos rfl]
    cases hn : d.get? id <;> simp [children, hn]

end Document

namespace Mounting

variable {m : Mounting} {parent id : NodeId}

theorem get?_appendText (hid : id.index < m.document.size) (content : String) :
    (m.appendText parent content).document.get? id =
      if parent = id then (m.document.get? id).map fun n =>
        { n with children := n.children ++ [⟨m.document.size⟩] }
      else m.document.get? id := by
  have hne : id ≠ ⟨m.document.size⟩ := by
    rintro rfl
    exact absurd hid (Nat.lt_irrefl _)
  have hnew := Document.get?_add_of_lt hid (.new .text content)
  rw [appendText, Document.get?_appendChild_of_ne hne, Document.createText, hnew]

theorem size_appendText (content : String) :
    (m.appendText parent content).document.size = m.document.size + 1 := by
  simp [appendText, Document.createText]

theorem get?_appendElement (hid : id.index < m.document.size) (tag : String)
    (attributes : Keyed String) :
    (m.appendElement parent tag attributes).document.get? id =
      if parent = id then (m.document.get? id).map fun n =>
        { n with children := n.children ++ [⟨m.document.size⟩] }
      else m.document.get? id := by
  have hne : id ≠ ⟨m.document.size⟩ := by
    rintro rfl
    exact absurd hid (Nat.lt_irrefl _)
  have hnew := Document.get?_add_of_lt hid (.new .element tag)
  rw [appendElement]
  dsimp only
  rw [Document.get?_appendChild_of_ne hne, Document.get?_setAttributes_of_ne hne,
    Document.createElement, hnew]

theorem size_appendElement (tag : String) (attributes : Keyed String) :
    (m.appendElement parent tag attributes).document.size = m.document.size + 1 := by
  simp [appendElement, Document.createElement]

/-- A new element has no children. -/
theorem children_appendElement (hparent : parent.index < m.document.size) (tag : String)
    (attributes : Keyed String) :
    (m.appendElement parent tag attributes).document.children ⟨m.document.size⟩ = [] := by
  have hne : parent ≠ ⟨m.document.size⟩ := by
    rintro rfl
    exact absurd hparent (Nat.lt_irrefl _)
  have hnew : (m.document.createElement tag).2.children ⟨m.document.size⟩ = [] :=
    Document.children_of_get? (Document.get?_add_self (.new .element tag) m.document)
  rw [← Document.children_setAttributes ⟨m.document.size⟩ attributes] at hnew
  rw [appendElement, Document.children, Document.get?_appendChild, if_neg hne,
    Document.get?_modify, if_pos rfl]
  unfold Document.children at hnew
  generalize Document.get? _ _ = node at hnew
  cases node with
  | none => rfl
  | some n => exact hnew

end Mounting

/-! ## Forests in documents -/

namespace Forest

/-- The nodes on top: those of visual fibers that are below no other. -/
def surface : Forest → List NodeId
  | nil => []
  | cons f below behind =>
    (match f.node with
      | some node => [node]
      | none => below.surface) ++ behind.surface

/-- All nodes of visual fibers. -/
def nodes : Forest → List NodeId
  | nil => []
  | cons f below behind => f.node.toList ++ (below.nodes ++ behind.nodes)

variable {x y : Forest}

theorem surface_append (x y : Forest) : (x.append y).surface = x.surface ++ y.surface := by
  induction x with
  | nil => rfl
  | cons f below behind _ ih => simp only [append, surface, ih, List.append_assoc]

theorem nodes_append (x y : Forest) : (x.append y).nodes = x.nodes ++ y.nodes := by
  induction x with
  | nil => rfl
  | cons f below behind _ ih => simp only [append, nodes, ih, List.append_assoc]

theorem surface_subset (x : Forest) : x.surface ⊆ x.nodes := by
  induction x with
  | nil => exact List.Subset.refl _
  | cons f below behind ihbelow ihbehind =>
    intro node hnode
    rw [surface, List.mem_append] at hnode
    rw [nodes, List.mem_append, List.mem_append]
    rcases hnode with hnode | hnode
    · cases hf : f.node with
      | some other =>
        rw [hf] at hnode
        exact .inl hnode
      | none =>
        rw [hf] at hnode
        exact .inr (.inl (ihbelow hnode))
    · exact .inr (.inr (ihbehind hnode))

/-- The nodes are numbered in increasing order, within these bounds. -/
def Numbered (least bound : Nat) (x : Forest) : Prop :=
  x.nodes.Pairwise (fun a b => a.index < b.index) ∧
    ∀ node ∈ x.nodes, least ≤ node.index ∧ node.index < bound

theorem Numbered.append {least middle bound : Nat} (hx : x.Numbered least middle)
    (hy : y.Numbered middle bound) (hleast : least ≤ middle) (hbound : middle ≤ bound) :
    (x.append y).Numbered least bound := by
  unfold Numbered
  rw [nodes_append, List.pairwise_append]
  refine ⟨⟨hx.1, hy.1, ?_⟩, ?_⟩
  · intro a ha b hb
    have := (hx.2 a ha).2
    have := (hy.2 b hb).1
    omega
  · intro node hnode
    rcases List.mem_append.mp hnode with hnode | hnode
    · have := hx.2 node hnode
      omega
    · have := hy.2 node hnode
      omega

theorem Numbered.cons {f : Fiber} {least bound : Nat} (hf : f.node = none ∨ f.node = some ⟨least⟩)
    (hx : x.Numbered (if f.node = none then least else least + 1) bound)
    (hbound : f.node ≠ none → least < bound) : (Forest.cons f x .nil).Numbered least bound := by
  unfold Numbered
  rw [nodes, nodes, List.append_nil]
  rcases hf with hf | hf
  · rw [hf]
    rw [if_pos hf] at hx
    exact hx
  · rw [hf] at hx hbound ⊢
    rw [if_neg nofun] at hx
    obtain ⟨hsorted, hwithin⟩ := hx
    have hlt := hbound nofun
    constructor
    · refine List.pairwise_cons.mpr ⟨?_, hsorted⟩
      intro node hnode
      have := (hwithin node hnode).1
      dsimp only
      omega
    · intro node hnode
      rcases List.mem_cons.mp hnode with rfl | hnode
      · exact ⟨Nat.le_refl _, hlt⟩
      · have := hwithin node hnode
        omega

/-- A forest was mounted into a node: the document grew by its nodes, and but for the node nothing
changed that was there. -/
structure Laid (parent : NodeId) (d d' : Document) (x : Forest) : Prop where
  size : d.size ≤ d'.size
  old : ∀ id : NodeId, id.index < d.size → id ≠ parent → d'.get? id = d.get? id
  numbered : x.Numbered d.size d'.size

/-- In addition, its nodes on top are children of the node. -/
structure Drawn (parent : NodeId) (d d' : Document) (x : Forest) : Prop
    extends Laid parent d d' x where
  children : d'.get? parent =
    (d.get? parent).map fun n => { n with children := n.children ++ x.surface }

namespace Drawn

variable {parent : NodeId} {d d₁ d₂ : Document}

theorem nil (parent : NodeId) (d : Document) : Drawn parent d d .nil := by
  refine ⟨⟨Nat.le_refl _, fun _ _ _ => rfl, .nil, nofun⟩, ?_⟩
  simp [surface]

theorem append (h : Drawn parent d d₁ x) (h' : Drawn parent d₁ d₂ y) :
    Drawn parent d d₂ (x.append y) := by
  have hsize := h.size
  have hsize' := h'.size
  refine ⟨⟨by omega, ?_, h.numbered.append h'.numbered hsize hsize'⟩, ?_⟩
  · intro id hid hne
    rw [h'.old id (by omega) hne, h.old id hid hne]
  · rw [h'.children, h.children, surface_append]
    cases d.get? parent <;> simp

/-- A virtual fiber has no node of its own. -/
theorem virtual {f : Fiber} (hf : f.node = none) (h : Drawn parent d d₁ x) :
    Drawn parent d d₁ (.cons f x .nil) := by
  refine ⟨⟨h.size, h.old, .cons (.inl hf) ?_ (absurd hf)⟩, ?_⟩
  · rw [if_pos hf]
    exact h.numbered
  · rw [h.children, surface, hf, surface, List.append_nil]

end Drawn

/-- What is mounted into a new host element is laid into the document that it was appended to. -/
theorem Laid.host {parent : NodeId} {m : Mounting} {d : Document} {tag : String}
    {attributes : Keyed String} {f : Fiber} (hparent : parent.index < m.document.size)
    (hf : f.node = some ⟨m.document.size⟩)
    (h : x.Laid ⟨m.document.size⟩ (m.appendElement parent tag attributes).document d) :
    Drawn parent m.document d (.cons f x .nil) := by
  have hsize := h.size
  have hnumbered := h.numbered
  rw [Mounting.size_appendElement] at hsize hnumbered
  have hbefore : ∀ id : NodeId, id.index < m.document.size → d.get? id =
      (m.appendElement parent tag attributes).document.get? id := by
    intro id hid
    refine h.old id ?_ ?_
    · rw [Mounting.size_appendElement]
      omega
    · rintro rfl
      exact absurd hid (Nat.lt_irrefl _)
  refine ⟨⟨by omega, ?_, .cons (.inr hf) ?_ ?_⟩, ?_⟩
  · intro id hid hne
    rw [hbefore id hid, Mounting.get?_appendElement hid, if_neg (Ne.symm hne)]
  · rw [hf, if_neg nofun]
    exact hnumbered
  · intro _
    omega
  · rw [hbefore parent hparent, Mounting.get?_appendElement hparent, if_pos rfl, surface, hf]
    rfl

theorem Drawn.text {parent : NodeId} {m : Mounting} {content : String} {f : Fiber}
    (hparent : parent.index < m.document.size) (hf : f.node = some ⟨m.document.size⟩) :
    Drawn parent m.document (m.appendText parent content).document (.cons f .nil .nil) := by
  have hsize := @Mounting.size_appendText m parent content
  refine ⟨⟨by omega, ?_, .cons (.inr hf) ⟨.nil, nofun⟩ ?_⟩, ?_⟩
  · intro id hid hne
    rw [Mounting.get?_appendText hid, if_neg (Ne.symm hne)]
  · intro _
    omega
  · rw [Mounting.get?_appendText hparent, if_pos rfl, surface, hf]
    rfl

end Forest

/-! ## Mounting -/

/-- Every mounting into a node that is there draws its forest. -/
def Draws (J : Planting) : Prop :=
  ∀ v parent m x m' l, J v parent m x m' l → parent.index < m.document.size →
    x.Drawn parent m.document m'.document

section

variable {J : Planting} (hJ : Draws J) {parent : NodeId} {m m' : Mounting} {l : List Creation}
include hJ

theorem ItemPlanted.draws {v : Value} {x : Forest} (h : ItemPlanted J parent v m x m' l)
    (hparent : parent.index < m.document.size) : x.Drawn parent m.document m'.document := by
  cases h with
  | nested mounted => exact (hJ _ _ _ _ _ _ mounted hparent).virtual rfl
  | other single mounted => exact hJ _ _ _ _ _ _ mounted hparent

theorem ItemsPlanted.draws {vs : List Value} {xs : List Forest}
    (h : ItemsPlanted J parent vs m xs m' l) (hparent : parent.index < m.document.size) :
    (Forest.join xs).Drawn parent m.document m'.document := by
  induction h with
  | nil => exact .nil _ _
  | cons head tail ih =>
    have hhead := head.draws hJ hparent
    exact hhead.append (ih (Nat.lt_of_lt_of_le hparent hhead.size))

theorem ContentPlanted.laid {fiber : FiberId} {v : Option Value} {x : Forest}
    (h : ContentPlanted J fiber parent v m x m' l) (hparent : parent.index < m.document.size) :
    x.Laid parent m.document m'.document := by
  cases h with
  | absent => exact (Forest.Drawn.nil _ _).toLaid
  | empty hidden => exact (Forest.Drawn.nil _ _).toLaid
  | @shown v content m shown filled =>
    have hsize := @Mounting.size_appendText m parent content
    refine ⟨by omega, ?_, .nil, nofun⟩
    intro id hid hne
    rw [Mounting.get?_appendText hid, if_neg (Ne.symm hne)]
  | other composed mounted => exact (hJ _ _ _ _ _ _ mounted hparent).toLaid

theorem Planted.draws (depth : Nat) : Draws (Planted J depth) := by
  intro v parent m x m' l h hparent
  cases h with
  | absent nothing => exact .nil _ _
  | text shown filled => exact .text hparent rfl
  | array mounted => exact mounted.draws hJ hparent
  | @host e tag parent m m' x l type content =>
    have hnew : m.document.size < (m.host e tag parent).document.size := by
      have := @Mounting.size_appendElement m parent tag (attributesOf e.props)
      exact Nat.lt_of_lt_of_eq (Nat.lt_succ_self _) this.symm
    exact (content.laid hJ hnew).host hparent rfl
  | component type called mounted => exact (hJ _ _ _ _ _ _ mounted hparent).virtual rfl

end

theorem Plants.draws (depth n : Nat) : Draws (Plants depth n) := by
  induction n with
  | zero => exact fun _ _ _ _ _ _ h => h.elim
  | succ n ih => exact Planted.draws ih depth

/-! ## Host elements -/

namespace Forest

/-- A fiber of the forest, with those below it. -/
inductive Occurs (f : Fiber) (below : Forest) : Forest → Prop
  | here {behind : Forest} : Occurs f below (.cons f below behind)
  | under {g : Fiber} {x behind : Forest} (h : Occurs f below x) : Occurs f below (.cons g x behind)
  | after {g : Fiber} {x behind : Forest} (h : Occurs f below behind) :
      Occurs f below (.cons g x behind)

variable {f : Fiber} {below x y : Forest}

theorem occurs_append :
    Occurs f below (x.append y) ↔ Occurs f below x ∨ Occurs f below y := by
  induction x with
  | nil =>
    constructor
    · exact .inr
    · rintro (h | h)
      · cases h
      · exact h
  | cons g w behind _ ih =>
    constructor
    · intro h
      cases h with
      | here => exact .inl .here
      | under h => exact .inl (.under h)
      | after h =>
        rcases ih.mp h with h | h
        · exact .inl (.after h)
        · exact .inr h
    · rintro (h | h)
      · cases h with
        | here => exact .here
        | under h => exact .under h
        | after h => exact .after (ih.mpr (.inl h))
      · exact .after (ih.mpr (.inr h))

/-- A fiber of the forest, with those below it and with those above it, the nearest first. -/
inductive Lies (f : Fiber) (below : Forest) : List Fiber → Forest → Prop
  | here {behind : Forest} : Lies f below [] (.cons f below behind)
  | under {g : Fiber} {x behind : Forest} {path : List Fiber} (h : Lies f below path x) :
      Lies f below (path ++ [g]) (.cons g x behind)
  | after {g : Fiber} {x behind : Forest} {path : List Fiber} (h : Lies f below path behind) :
      Lies f below path (.cons g x behind)

theorem Lies.occurs {path : List Fiber} (h : Lies f below path x) : Occurs f below x := by
  induction h with
  | here => exact .here
  | under _ ih => exact .under ih
  | after _ ih => exact .after ih

theorem Occurs.exists_lies (h : Occurs f below x) : ∃ path, Lies f below path x := by
  induction h with
  | here => exact ⟨[], .here⟩
  | under _ ih =>
    obtain ⟨path, h⟩ := ih
    exact ⟨_, .under h⟩
  | after _ ih =>
    obtain ⟨path, h⟩ := ih
    exact ⟨path, .after h⟩

end Forest

/-- A fiber is that of a host element, which was mounted between these states with these fibers below
it. The nodes that were made for it are in the document as they were then. -/
structure Hosted (depth : Nat) (f : Fiber) (below : Forest) (e : CreatedElement Value)
    (m m' : Mounting) (d : Document) : Prop where
  fiber : f = hostFiber e ⟨m.document.size⟩ m.store
  content : ∃ n l tag parent, e.type = .host tag ∧ parent.index < m.document.size ∧
    ContentPlanted (Plants depth n) ⟨m.tree.size⟩ ⟨m.document.size⟩
      (Keyed.get? "children" e.props) (m.host e tag parent) below m' l
  bound : m'.document.size ≤ d.size
  same : ∀ id : NodeId, m.document.size ≤ id.index → id.index < m'.document.size →
    d.get? id = m'.document.get? id

/-- Further nodes are mounted into an earlier one. -/
theorem Hosted.later {depth : Nat} {f : Fiber} {below y : Forest} {e : CreatedElement Value}
    {m m' : Mounting} {d d' : Document} {parent : NodeId} (h : Hosted depth f below e m m' d)
    (hparent : parent.index < m.document.size) (hlaid : y.Laid parent d d') :
    Hosted depth f below e m m' d' := by
  have hbound := h.bound
  refine ⟨h.fiber, h.content, Nat.le_trans hbound hlaid.size, ?_⟩
  intro id hid hlt
  have hne : id ≠ parent := by
    rintro rfl
    omega
  rw [hlaid.old id (by omega) hne, h.same id hid hlt]

/-- Every fiber of an element in what is mounted comes of a host element. -/
def Hosts (depth : Nat) (J : Planting) : Prop :=
  ∀ v parent m x m' l, J v parent m x m' l → parent.index < m.document.size →
    ∀ f below, Forest.Occurs f below x → f.kind = .element →
      ∃ e m₁ m₂, m.document.size ≤ m₁.document.size ∧ Hosted depth f below e m₁ m₂ m'.document

section

variable {depth : Nat} {J : Planting} (hhosts : Hosts depth J) (hdraws : Draws J) {f : Fiber}
  {below : Forest} {parent : NodeId} {m m' : Mounting} {l : List Creation}
include hhosts

theorem ItemPlanted.hosts {v : Value} {x : Forest} (h : ItemPlanted J parent v m x m' l)
    (hparent : parent.index < m.document.size) (hf : Forest.Occurs f below x)
    (hkind : f.kind = .element) : ∃ e m₁ m₂, m.document.size ≤ m₁.document.size ∧
      Hosted depth f below e m₁ m₂ m'.document := by
  cases h with
  | nested mounted =>
    cases hf with
    | here => cases hkind
    | under hf => exact hhosts _ _ _ _ _ _ mounted hparent _ _ hf hkind
    | after hf => cases hf
  | other single mounted => exact hhosts _ _ _ _ _ _ mounted hparent _ _ hf hkind

include hdraws

theorem ItemsPlanted.hosts {vs : List Value} {xs : List Forest}
    (h : ItemsPlanted J parent vs m xs m' l) (hparent : parent.index < m.document.size)
    (hf : Forest.Occurs f below (.join xs)) (hkind : f.kind = .element) :
    ∃ e m₁ m₂, m.document.size ≤ m₁.document.size ∧
      Hosted depth f below e m₁ m₂ m'.document := by
  induction h with
  | nil => cases hf
  | cons head tail ih =>
    have hhead := head.draws hdraws hparent
    have hparent' := Nat.lt_of_lt_of_le hparent hhead.size
    rcases Forest.occurs_append.mp hf with hf | hf
    · obtain ⟨e, m₁, m₂, hle, hhosted⟩ := head.hosts hhosts hparent hf hkind
      have htail := tail.draws hdraws hparent'
      exact ⟨e, m₁, m₂, hle, hhosted.later (Nat.lt_of_lt_of_le hparent hle) htail.toLaid⟩
    · obtain ⟨e, m₁, m₂, hle, hhosted⟩ := ih hparent' hf
      exact ⟨e, m₁, m₂, Nat.le_trans hhead.size hle, hhosted⟩

theorem Planted.hosts {n : Nat} (hJ : J = Plants depth n) : Hosts depth (Planted J depth) := by
  intro v parent m x m' l h hparent f below hf hkind
  cases h with
  | absent nothing => cases hf
  | text shown filled =>
    cases hf with
    | here => cases hkind
    | under hf => cases hf
    | after hf => cases hf
  | array mounted => exact mounted.hosts hhosts hdraws hparent hf hkind
  | @host e tag parent m m' x l type content =>
    have hnew : (⟨m.document.size⟩ : NodeId).index < (m.host e tag parent).document.size := by
      have := @Mounting.size_appendElement m parent tag (attributesOf e.props)
      exact Nat.lt_of_lt_of_eq (Nat.lt_succ_self _) this.symm
    cases hf with
    | here =>
      subst hJ
      refine ⟨e, m, m', Nat.le_refl _, rfl, ?_, Nat.le_refl _, fun _ _ _ => rfl⟩
      exact ⟨n, l, tag, parent, type, hparent, content⟩
    | under hf =>
      generalize Keyed.get? "children" e.props = v at content
      cases content with
      | absent => cases hf
      | empty hidden => cases hf
      | shown shown filled => cases hf
      | other composed mounted =>
        obtain ⟨e', m₁, m₂, hle, hhosted⟩ := hhosts _ _ _ _ _ _ mounted hnew _ _ hf hkind
        exact ⟨e', m₁, m₂, Nat.le_trans (Nat.le_of_lt hnew) hle, hhosted⟩
    | after hf => cases hf
  | component type called mounted =>
    cases hf with
    | here => cases hkind
    | under hf => exact hhosts _ _ _ _ _ _ mounted hparent _ _ hf hkind
    | after hf => cases hf

end

theorem Plants.hosts (depth n : Nat) : Hosts depth (Plants depth n) := by
  induction n with
  | zero => exact fun _ _ _ _ _ _ h => h.elim
  | succ n ih => exact Planted.hosts ih (Plants.draws depth n) rfl

end MarkupTrace.Render
