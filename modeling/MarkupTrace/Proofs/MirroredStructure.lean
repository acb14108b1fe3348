import MarkupTrace.Proofs.Mirroring
import MarkupTrace.Live.Session

/-!
# Structures mirror documents

The entries of a structure, read from front to back, name nodes of the document in its own order and
each below the same node. Only a text that is put directly into a host element, and that none of the
recorded children match, has no entry.
-/

namespace MarkupTrace

open Render Structure

/-! ## Orders of reading -/

namespace Render.Document

/-- The visual nodes below a node from front to back, going down at most `depth` nodes. With each
stands the nearest visual node above it, which for the first ones is the given one. -/
def visualsTo (d : Document) : (depth : Nat) → Option NodeId → NodeId → List (Option NodeId × NodeId)
  | 0, _, _ => []
  | depth + 1, above, id => (d.children id).flatMap fun child =>
    if d.isVisual child then (above, child) :: visualsTo d depth (some child) child
    else visualsTo d depth above child

/-- All visual nodes below a node. No way down is longer than there are nodes. -/
def visuals (id : NodeId) (d : Document) : List (Option NodeId × NodeId) :=
  d.visualsTo d.size none id

/-- A visual node and those below it. -/
def visit (d : Document) (depth : Nat) (above : Option NodeId) (id : NodeId) :
    List (Option NodeId × NodeId) :=
  if d.isVisual id then (above, id) :: d.visualsTo depth (some id) id
  else d.visualsTo depth above id

theorem visualsTo_succ (d : Document) (depth : Nat) (above : Option NodeId) (id : NodeId) :
    d.visualsTo (depth + 1) above id = (d.children id).flatMap (d.visit depth above) := rfl

theorem isVisual_of_mem_visualsTo {d : Document} {depth : Nat} {above : Option NodeId} {id : NodeId}
    {p : Option NodeId × NodeId} (h : p ∈ d.visualsTo depth above id) : d.isVisual p.2 = true := by
  induction depth generalizing above id with
  | zero => cases h
  | succ depth ih =>
    rw [visualsTo_succ, List.mem_flatMap] at h
    obtain ⟨child, -, h⟩ := h
    unfold visit at h
    split at h
    · rename_i hvisual
      rcases List.mem_cons.mp h with rfl | h
      · exact hvisual
      · exact ih h
    · exact ih h

end Render.Document

namespace Structure

mutual

/-- The nodes of an entry and those below it from front to back. With each stands the node of the
nearest entry above it that has one. -/
def Entry.placed (above : Option NodeId) : Entry → List (Option NodeId × NodeId)
  | .mk none _ children => placedAll above children
  | .mk (some node) _ children => (above, node) :: placedAll (some node) children

def placedAll (above : Option NodeId) : List Entry → List (Option NodeId × NodeId)
  | [] => []
  | e :: es => e.placed above ++ placedAll above es

end

@[simp] theorem Entry.placed_extend (above : Option NodeId) (e : Entry) (added : List Contributor) :
    (e.extend added).placed above = e.placed above := by
  obtain ⟨node, contributors, children⟩ := e
  cases node <;> rfl

theorem placedAll_append (above : Option NodeId) (es es' : List Entry) :
    placedAll above (es ++ es') = placedAll above es ++ placedAll above es' := by
  induction es with
  | nil => rfl
  | cons e es ih => simp only [List.cons_append, placedAll, ih, List.append_assoc]

theorem placedAll_contribute (above : Option NodeId) (c : Contributor) (es : List Entry) :
    placedAll above (contribute c es) = placedAll above es := by
  cases es with
  | nil => rfl
  | cons e es => simp only [contribute, placedAll, Entry.placed_extend]

theorem placedAll_attach (above : Option NodeId) {es : List Entry} {nodes : List NodeId}
    (h : nodes.length ≤ es.length) (groups : List (List Contributor)) :
    placedAll above (attach es nodes groups) = placedAll above es := by
  induction groups generalizing es nodes with
  | nil => rw [attach_nil]
  | cons g groups ih =>
    cases es with
    | nil =>
      rw [List.length_nil, Nat.le_zero, List.length_eq_zero_iff] at h
      subst h
      rfl
    | cons e es =>
      have hlength : nodes.tail.length ≤ es.length := by
        rw [List.length_tail]
        exact Nat.sub_le_of_le_add h
      simp only [attach, placedAll, Entry.placed_extend, ih hlength]

/-! ## Single children -/

/-- Whether a text or number is matched does not depend on the map. -/
theorem reconcile_of_shown {v : Value} (hv : v.shown?.isSome) (xs : List Recorded)
    (map map' : ExpressionMap) :
    (reconcile v xs map = [] ∧ reconcile v xs map' = []) ∨
      ∃ g g', reconcile v xs map = [g] ∧ reconcile v xs map' = [g'] := by
  cases xs with
  | nil => exact .inl ⟨rfl, rfl⟩
  | cons first rest =>
    have hsame : (matchGroup map v first).isEmpty = (matchGroup map' v first).isEmpty := by
      rw [isEmpty_matchGroup, isEmpty_matchGroup]
    rw [reconcile_cons, reconcile_cons, ← hsame]
    split
    · split
      · cases v <;> first | exact .inl ⟨rfl, rfl⟩ | cases hv
      · exact .inr ⟨_, _, rfl, rfl⟩
    · exact .inl ⟨rfl, rfl⟩

end Structure

namespace Render

/-- Reconciling finds a match among the children recorded for a fiber. -/
def Fiber.isMatched (s : Store) (f : Fiber) : Bool :=
  !(reconcile (childrenProp f) (recordedFor s f) .empty).isEmpty

namespace Forest

variable {s : Store} {d : Document} {p : NodeId} {least bound : Nat} {x : Forest}

/-! ## The order of the forest -/

/-- The nodes of a forest from front to back, each with the nearest one above it. Of a visual fiber
with nothing below it the children in the document are taken if the fiber is kept. -/
def placed (d : Document) (keep : Fiber → Bool) (above : Option NodeId) :
    Forest → List (Option NodeId × NodeId)
  | nil => []
  | cons f below behind =>
    (match f.node with
      | some node => (above, node) ::
        (if below.isNil then (if keep f then (d.children node).map (some node, ·) else [])
          else below.placed d keep (some node))
      | none => below.placed d keep above) ++ behind.placed d keep above

theorem placed_sublist (d : Document) (keep : Fiber → Bool) (above : Option NodeId) (x : Forest) :
    (x.placed d keep above).Sublist (x.placed d (fun _ => true) above) := by
  induction x generalizing above with
  | nil => exact .slnil
  | cons f below behind ihbelow ihbehind =>
    refine List.Sublist.append ?_ (ihbehind above)
    cases f.node with
    | none => exact ihbelow above
    | some node =>
      refine .cons_cons _ ?_
      cases below with
      | cons g y z => exact ihbelow (some node)
      | nil =>
        cases keep f with
        | true => exact List.Sublist.refl _
        | false => exact List.nil_sublist _

/-- The document has the nodes in the order of the forest. -/
theorem Mirrored.flatMap_visit (h : Mirrored d p least bound x) {depth : Nat}
    (hdepth : bound ≤ least + depth) (above : Option NodeId) :
    x.surface.flatMap (d.visit depth above) = x.placed d (fun _ => true) above := by
  induction h generalizing depth above with
  | nil => rfl
  | virtual bare inside rest ihinside ihrest =>
    have := inside.le
    have := rest.le
    rw [surface, placed, bare]
    dsimp only
    rw [List.flatMap_append, ihinside (by omega), ihrest (by omega)]
  | @text p n least bound f behind node _ order has rest ihrest =>
    have hrest := rest.le
    obtain ⟨k, rfl⟩ : ∃ k, depth = k + 1 := ⟨depth - 1, by omega⟩
    rw [surface, placed, node]
    dsimp only
    rw [List.flatMap_append, ihrest (by omega), List.flatMap_singleton, Document.visit,
      if_pos (has.isVisual (by simp)), Document.visualsTo_succ, has.children_eq]
    rfl
  | @host p n least middle bound f below behind node order has inside rest ihinside ihrest =>
    have hinside := inside.le
    have hrest := rest.le
    obtain ⟨k, rfl⟩ : ∃ k, depth = k + 1 := ⟨depth - 1, by omega⟩
    rw [surface, placed, node]
    dsimp only
    rw [List.flatMap_append, ihrest (by omega), List.flatMap_singleton, Document.visit,
      if_pos (has.isVisual (by simp)), Document.visualsTo_succ, has.children_eq, ihinside (by omega)]
    cases below <;> rfl
  | @direct p n t least bound f behind node _ _ order has text rest ihrest =>
    have hrest := rest.le
    obtain ⟨k, rfl⟩ : ∃ k, depth = k + 1 := ⟨depth - 1, by omega⟩
    have hnone : d.visualsTo k (some t) t = [] := by
      cases k with
      | zero => rfl
      | succ k => rw [Document.visualsTo_succ, text.children_eq]; rfl
    rw [surface, placed, node]
    dsimp only
    rw [List.flatMap_append, ihrest (by omega), List.flatMap_singleton, Document.visit,
      if_pos (has.isVisual (by simp)), Document.visualsTo_succ, has.children_eq, List.flatMap_singleton, Document.visit,
      if_pos (text.isVisual (by simp)), hnone]
    rfl

/-- Nodes with increasing numbers within these bounds. -/
def Ascending (least bound : Nat) (nodes : List NodeId) : Prop :=
  nodes.Pairwise (fun a b => a.index < b.index) ∧
    ∀ node ∈ nodes, least ≤ node.index ∧ node.index < bound

theorem Ascending.append {least middle bound : Nat} {nodes nodes' : List NodeId}
    (h : Ascending least middle nodes) (h' : Ascending middle bound nodes')
    (hleast : least ≤ middle) (hbound : middle ≤ bound) :
    Ascending least bound (nodes ++ nodes') := by
  refine ⟨List.pairwise_append.mpr ⟨h.1, h'.1, ?_⟩, ?_⟩
  · intro a ha b hb
    have := h.2 a ha
    have := h'.2 b hb
    omega
  · intro node hnode
    rcases List.mem_append.mp hnode with hnode | hnode
    · have := h.2 node hnode
      omega
    · have := h'.2 node hnode
      omega

theorem Ascending.cons {least middle bound : Nat} {n : NodeId} {nodes : List NodeId}
    (h : Ascending middle bound nodes) (hleast : least ≤ n.index) (hmiddle : n.index < middle)
    (hbound : middle ≤ bound) : Ascending least bound (n :: nodes) := by
  refine ⟨List.pairwise_cons.mpr ⟨?_, h.1⟩, ?_⟩
  · intro node hnode
    exact Nat.lt_of_lt_of_le hmiddle (h.2 node hnode).1
  · intro node hnode
    rcases List.mem_cons.mp hnode with rfl | hnode
    · omega
    · have := h.2 node hnode
      omega

/-- The nodes are numbered in the order in which they are read. -/
theorem Mirrored.ascending (h : Mirrored d p least bound x) (above : Option NodeId) :
    Ascending least bound ((x.placed d (fun _ => true) above).map Prod.snd) := by
  induction h generalizing above with
  | nil => exact ⟨.nil, nofun⟩
  | virtual bare inside rest ihinside ihrest =>
    rw [placed, bare, List.map_append]
    exact (ihinside above).append (ihrest above) inside.le rest.le
  | @text p n least bound f behind node _ order has rest ihrest =>
    rw [placed, node]
    dsimp only
    rw [has.children_eq]
    exact (ihrest above).cons order (Nat.lt_succ_self _) rest.le
  | @host p n least middle bound f below behind node order has inside rest ihinside ihrest =>
    have hbelow : (if below.isNil then (d.children n).map (some n, ·)
        else below.placed d (fun _ => true) (some n)) = below.placed d (fun _ => true) (some n) := by
      cases below with
      | nil => rw [has.children_eq]; rfl
      | cons g y z => rfl
    have hinside := inside.le
    have hrest := rest.le
    rw [placed, node]
    dsimp only
    rw [if_pos rfl, hbelow, List.cons_append, List.map_cons, List.map_append]
    exact ((ihinside (some n)).append (ihrest above) hinside hrest).cons order
      (Nat.lt_succ_self _) (by omega)
  | @direct p n t least bound f behind node _ _ order has text rest ihrest =>
    have hrest := rest.le
    rw [placed, node]
    dsimp only
    rw [has.children_eq]
    exact ((ihrest above).cons (Nat.le_refl _) (Nat.lt_succ_self _) hrest).cons order.1 order.2
      (Nat.le_of_lt hrest)

/-- A node stands in the document right below the nearest one above it. -/
theorem Mirrored.parent_eq (h : Mirrored d p least bound x) {container : NodeId}
    {above : Option NodeId} (habove : above.getD container = p) :
    ∀ a ∈ x.placed d (fun _ => true) above,
      (d.get? a.2).bind (·.parent) = some (a.1.getD container) := by
  induction h generalizing above with
  | nil => exact nofun
  | virtual bare inside rest ihinside ihrest =>
    intro a ha
    rw [placed, bare] at ha
    rcases List.mem_append.mp ha with ha | ha
    · exact ihinside habove a ha
    · exact ihrest habove a ha
  | @text p n least bound f behind node _ order has rest ihrest =>
    intro a ha
    rw [placed, node] at ha
    dsimp only at ha
    rw [has.children_eq] at ha
    rcases List.mem_cons.mp ha with rfl | ha
    · rw [has.parent_eq, habove]
    · exact ihrest habove a ha
  | @host p n least middle bound f below behind node order has inside rest ihinside ihrest =>
    intro a ha
    rw [placed, node] at ha
    dsimp only at ha
    rw [List.cons_append] at ha
    rcases List.mem_cons.mp ha with rfl | ha
    · rw [has.parent_eq, habove]
    rcases List.mem_append.mp ha with ha | ha
    · cases below with
      | nil =>
        rw [has.children_eq] at ha
        cases ha
      | cons g y z => exact ihinside rfl a ha
    · exact ihrest habove a ha
  | @direct p n t least bound f behind node _ _ order has text rest ihrest =>
    intro a ha
    rw [placed, node] at ha
    dsimp only at ha
    rw [has.children_eq] at ha
    rcases List.mem_cons.mp ha with rfl | ha
    · rw [has.parent_eq, habove]
    rcases List.mem_cons.mp ha with rfl | ha
    · exact text.parent_eq
    · exact ihrest habove a ha

/-! ## Entries -/

/-- The entries have the nodes in the order of the forest, but for direct texts that nothing
matches. -/
theorem Mirrored.placedAll_entries (h : Mirrored d p least bound x) (s : Store)
    (map : ExpressionMap) (above : Option NodeId) :
    placedAll above (x.entries s d map) = x.placed d (Fiber.isMatched s) above := by
  induction h generalizing map above with
  | nil => rfl
  | @virtual p least middle bound f below behind bare inside rest ihinside ihrest =>
    rw [entries, placedAll_append, ihrest, placed, entriesOf, bare]
    dsimp only
    congr 1
    cases below with
    | nil => rfl
    | cons g y z => rw [isNil, if_neg (by decide), placedAll_contribute, ihinside]
  | @text p n least bound f behind node _ order has rest ihrest =>
    rw [entries, placedAll_append, ihrest, placed, entriesOf, node]
    dsimp only
    have hnone : (d.children n).length ≤ ([] : List Entry).length :=
      Nat.le_of_eq (congrArg List.length has.children_eq)
    have hattach := placedAll_attach (some n) hnone
      (reconcile (childrenProp f) (recordedFor s f) map)
    rw [visualEntry, placedAll, Entry.placed, entries, hattach, has.children_eq]
    cases Fiber.isMatched s f <;> rfl
  | @host p n least middle bound f below behind node order has inside rest ihinside ihrest =>
    rw [entries, placedAll_append, ihrest, placed, entriesOf, node]
    dsimp only
    have hlength : (d.children n).length ≤ (below.entries s d map).length := by
      rw [has.children_eq, length_entries]
      exact below.length_surface_le
    have hattach := placedAll_attach (some n) hlength
      (reconcile (childrenProp f) (recordedFor s f) map)
    rw [visualEntry, placedAll, Entry.placed, hattach, ihinside]
    cases below with
    | nil =>
      rw [has.children_eq]
      cases Fiber.isMatched s f <;> rfl
    | cons g y z => simp [placedAll, isNil]
  | @direct p n t least bound f behind node element shown order has text rest ihrest =>
    rw [entries, placedAll_append, ihrest, placed, entriesOf, node]
    dsimp only
    rw [visualEntry, placedAll, Entry.placed, has.children_eq, Fiber.isMatched]
    rcases reconcile_of_shown shown (recordedFor s f) map .empty with ⟨hmap, hempty⟩ | ⟨g, g', hmap, hempty⟩
    · rw [hmap, hempty]
      rfl
    · rw [hmap, hempty]
      rfl

/-- A text stands in the node of a host element that has a text or number for its only child. -/
structure DirectText (d : Document) (f : Fiber) (t : NodeId) : Prop where
  element : f.kind = .element
  shown : (childrenProp f).shown?.isSome
  only : ∃ n, f.node = some n ∧ d.children n = [t]
  text : (d.get? t).map (·.kind) = some .text

/-- What is left out is a direct text of a fiber that is not kept. -/
theorem Mirrored.exists_directText (h : Mirrored d p least bound x) {keep : Fiber → Bool}
    {above : Option NodeId} {a : Option NodeId × NodeId}
    (hmem : a ∈ x.placed d (fun _ => true) above) (hnot : a ∉ x.placed d keep above) :
    ∃ f, Occurs f .nil x ∧ keep f = false ∧ a.1 = f.node ∧ DirectText d f a.2 := by
  induction h generalizing above with
  | nil => cases hmem
  | virtual bare inside rest ihinside ihrest =>
    rw [placed, bare] at hmem hnot
    rw [List.mem_append, not_or] at hnot
    rcases List.mem_append.mp hmem with hmem | hmem
    · obtain ⟨f, hf, h⟩ := ihinside hmem hnot.1
      exact ⟨f, .under hf, h⟩
    · obtain ⟨f, hf, h⟩ := ihrest hmem hnot.2
      exact ⟨f, .after hf, h⟩
  | @text p n least bound f behind node _ order has rest ihrest =>
    rw [placed, node] at hmem hnot
    dsimp only at hmem hnot
    rw [List.mem_append, not_or] at hnot
    rw [has.children_eq] at hmem
    rcases List.mem_cons.mp hmem with rfl | hmem
    · exact absurd List.mem_cons_self hnot.1
    · obtain ⟨f, hf, h⟩ := ihrest hmem hnot.2
      exact ⟨f, .after hf, h⟩
  | @host p n least middle bound f below behind node order has inside rest ihinside ihrest =>
    rw [placed, node] at hmem hnot
    dsimp only at hmem hnot
    rw [List.mem_append, not_or, List.mem_cons, not_or] at hnot
    rcases List.mem_append.mp hmem with hmem | hmem
    · rcases List.mem_cons.mp hmem with rfl | hmem
      · exact absurd rfl hnot.1.1
      · cases below with
        | nil =>
          rw [has.children_eq] at hmem
          cases hmem
        | cons g y z =>
          obtain ⟨f, hf, h⟩ := ihinside hmem hnot.1.2
          exact ⟨f, .under hf, h⟩
    · obtain ⟨f, hf, h⟩ := ihrest hmem hnot.2
      exact ⟨f, .after hf, h⟩
  | @direct p n t least bound f behind node element shown order has text rest ihrest =>
    rw [placed, node] at hmem hnot
    dsimp only at hmem hnot
    rw [List.mem_append, not_or, List.mem_cons, not_or] at hnot
    rw [has.children_eq] at hmem hnot
    rcases List.mem_cons.mp hmem with rfl | hmem
    · exact absurd rfl hnot.1.1
    rcases List.mem_cons.mp hmem with rfl | hmem
    · refine ⟨f, .here, ?_, node.symm, element, shown, ⟨n, node, has.children_eq⟩, text.kind_eq⟩
      cases hkeep : keep f with
      | false => rfl
      | true =>
        rw [hkeep] at hnot
        exact absurd (List.mem_singleton.mpr rfl) hnot.1.2
    · obtain ⟨f, hf, h⟩ := ihrest hmem hnot.2
      exact ⟨f, .after hf, h⟩

/-- What lies in a forest that stands in a tree stands there too. -/
theorem Stands.occurs {t : FiberTree} {above : Option FiberId} {n : Nat} {f : Fiber} {below : Forest}
    (h : x.Stands t above n) (hf : Occurs f below x) :
    ∃ above' n' behind, (Forest.cons f below behind).Stands t above' n' := by
  induction hf generalizing above n with
  | here => exact ⟨above, n, _, h⟩
  | under _ ih => exact ih h.2.1
  | after _ ih => exact ih h.2.2

/-- The fibers of a forest that stands in a tree are fibers of the tree. -/
theorem Stands.exists_fiber {t : FiberTree} {above : Option FiberId} {n : Nat} {f : Fiber}
    {below : Forest} (h : x.Stands t above n) (hf : Occurs f below x) :
    ∃ id parent child sibling, t.get? id = some { f with parent, child, sibling } ∧
      (below = .nil → child = none) := by
  obtain ⟨above', n', behind, h⟩ := h.occurs hf
  refine ⟨⟨n'⟩, _, _, _, h.1, ?_⟩
  rintro rfl
  rfl

end Forest

end Render

namespace Structure

/-- The entries of a structure mirror what stands in a document below a container: without those that
have no node they are nodes of the document in its order, each below the same node as there, and each
node stands there once. The nodes are visual and were added to a document of the given size. What has
no entry is a text put directly into a host element, which nothing recorded for it matches. -/
structure MirrorsDocument (s : Store) (d : Document) (tree : FiberTree) (container : NodeId) (size : Nat)
    (entries : List Entry) : Prop where
  sublist : (placedAll none entries).Sublist (d.visuals container)
  nodup : ((d.visuals container).map Prod.snd).Nodup
  visual : ∀ a ∈ d.visuals container, d.isVisual a.2 = true
  below : ∀ a ∈ d.visuals container, (d.get? a.2).bind (·.parent) = some (a.1.getD container)
  new : ∀ a ∈ d.visuals container, size ≤ a.2.index
  missing : ∀ a ∈ d.visuals container, a ∉ placedAll none entries →
    ∃ id f, tree.get? id = some f ∧ f.child = none ∧ a.1 = f.node ∧ Forest.DirectText d f a.2 ∧
      ∀ map, reconcile (childrenProp f) (recordedFor s f) map = []

end Structure

namespace Render

variable {depth : Nat} {container : NodeId} {v : Value} {s s' : Store} {d d' : Document}
  {x : Forest} {tree : FiberTree} {l : List Eval.Creation}

theorem Rendered.mirrored (h : Rendered depth container v s d x tree s' d' l)
    (hcontainer : container.index < d.size) : x.Mirrored d' container d.size d'.size := by
  obtain ⟨t, hplants, -⟩ := h.planted
  have hsize := Document.size_clearChildren container d
  have hmirrored := Plants.mirrors depth depth _ _ _ _ _ _ hplants
    (Nat.lt_of_lt_of_eq hcontainer hsize.symm)
  rw [show (Mounting.start container v s d).document.size = d.size from hsize] at hmirrored
  exact hmirrored

theorem Document.children_clearChildren (id : NodeId) (d : Document) :
    (d.clearChildren id).children id = [] := by
  unfold Document.clearChildren
  generalize d.children id = ids
  have hfold : ∀ d' : Document, d'.children id = [] →
      (ids.foldl (fun d child => d.modify child fun n => { n with parent := none }) d').children
        id = [] := by
    induction ids with
    | nil => exact fun _ h => h
    | cons other ids ih =>
      intro d' h
      refine ih _ ?_
      rw [Document.children, Document.get?_modify]
      split
      · rw [Option.map_map]
        exact h
      · exact h
  refine hfold _ ?_
  rw [Document.children, Document.get?_modify, if_pos rfl]
  cases d.get? id <;> rfl

/-- Below the container stands what was mounted and nothing else. -/
theorem Rendered.visuals_eq (h : Rendered depth container v s d x tree s' d' l)
    (hcontainer : container.index < d.size) :
    d'.visuals container = x.placed d' (fun _ => true) none := by
  have hmirrored := h.mirrored hcontainer
  have hle := hmirrored.le
  have hchildren : d'.children container = x.surface := by
    rw [(h.draws hcontainer).children_eq
      (Nat.lt_of_lt_of_eq hcontainer (Document.size_clearChildren container d).symm),
      Document.children_clearChildren, List.nil_append]
  obtain ⟨k, hk⟩ : ∃ k, d'.size = k + 1 := ⟨d'.size - 1, by omega⟩
  rw [Document.visuals, hk, Document.visualsTo_succ, hchildren]
  exact hmirrored.flatMap_visit (by omega) none

/-- The structure of a rendering mirrors the document below the container. -/
theorem Rendered.mirrorsDocument (h : Rendered depth container v s d x tree s' d' l)
    (hcontainer : container.index < d.size) :
    MirrorsDocument s' d' tree container d.size ((ofTree? s' d' tree).getD []) := by
  have hmirrored := h.mirrored hcontainer
  have hvisuals := h.visuals_eq hcontainer
  have hplaced : placedAll none ((ofTree? s' d' tree).getD []) =
      x.placed d' (Fiber.isMatched s') none := by
    rw [h.ofTree?_eq]
    cases x with
    | nil => rfl
    | cons g y z =>
      rw [Forest.isNil, if_neg (by decide), Option.getD_some, Forest.entries, placedAll_append]
      refine (List.append_nil _).trans ?_
      exact (placedAll_contribute none _ _).trans (hmirrored.placedAll_entries s' _ none)
  obtain ⟨hsorted, hbounds⟩ := hmirrored.ascending none
  rw [← hvisuals] at hsorted hbounds
  refine ⟨?_, ?_, ?_, ?_, ?_, ?_⟩
  · rw [hplaced, hvisuals]
    exact x.placed_sublist d' _ none
  · refine hsorted.imp ?_
    rintro a b hlt rfl
    exact Nat.lt_irrefl _ hlt
  · exact fun a => Document.isVisual_of_mem_visualsTo
  · rw [hvisuals]
    exact hmirrored.parent_eq rfl
  · exact fun a ha => (hbounds a.2 (List.mem_map_of_mem ha)).1
  · intro a hmem hnot
    rw [hvisuals] at hmem
    rw [hplaced] at hnot
    obtain ⟨f, hf, hkeep, hnode, hdirect⟩ := hmirrored.exists_directText hmem hnot
    obtain ⟨id, parent, child, sibling, hfiber, hchild⟩ :=
      h.stands.stands.exists_fiber (.under hf)
    refine ⟨id, _, hfiber, hchild rfl, hnode, ?_, ?_⟩
    · exact ⟨hdirect.element, hdirect.shown, hdirect.only, hdirect.text⟩
    · intro map
      rcases reconcile_of_shown hdirect.shown (recordedFor s' f) map .empty with
        ⟨hnone, -⟩ | ⟨g, g', -, hsome⟩
      · exact hnone
      · rw [Fiber.isMatched, hsome] at hkeep
        cases hkeep

end Render

end MarkupTrace
