import MarkupTrace.Proofs.Containers
import Mathlib.Data.String.Basic

/-!
# Markup written directly

Rendering makes nodes, links them, and the markup is read off what the container then holds. Here a
recursion writes the markup of a value down without a document. A render comes to the same: it
succeeds when the recursion does and stops at the same error, with the same components called in the
same order, and the container then shows what the recursion wrote, whatever was rendered before.
-/

namespace MarkupTrace

open Render

namespace Keyed

variable {α : Type}

theorem mem_insert {key : String} {value : α} {entries : Keyed α} {e : String × α}
    (h : e ∈ entries.insert key value) : e = (key, value) ∨ e ∈ entries := by
  induction entries with
  | nil => exact .inl (List.mem_singleton.mp h)
  | cons first rest ih =>
    obtain ⟨k, v⟩ := first
    unfold insert at h
    split at h
    · rcases List.mem_cons.mp h with rfl | h
      · exact .inl rfl
      · exact .inr (List.mem_cons_of_mem _ h)
    · split at h
      · exact List.mem_cons.mp h
      · rcases List.mem_cons.mp h with rfl | h
        · exact .inr List.mem_cons_self
        · exact (ih h).imp_right (List.mem_cons_of_mem _)

theorem increasing_insert (key : String) (value : α) {entries : Keyed α}
    (h : entries.Pairwise fun a b => a.1 < b.1) :
    (entries.insert key value).Pairwise fun a b => a.1 < b.1 := by
  induction h with
  | nil => exact List.pairwise_singleton _ _
  | @cons first rest hfirst hrest ih =>
    obtain ⟨k, v⟩ := first
    unfold insert
    split
    · rename_i hk
      subst hk
      exact .cons hfirst hrest
    · rename_i hk
      split
      · rename_i hlt
        refine .cons ?_ (.cons hfirst hrest)
        intro e he
        rcases List.mem_cons.mp he with rfl | he
        · exact hlt
        · exact String.lt_trans hlt (hfirst e he)
      · rename_i hlt
        refine .cons ?_ ih
        intro e he
        rcases mem_insert he with rfl | he
        · exact Std.lt_of_le_of_ne hlt hk
        · exact hfirst e he

/-- Entries are put in the order of their keys, each key once. -/
theorem increasing_ofList (entries : List (String × α)) :
    (ofList entries).Pairwise fun a b => a.1 < b.1 := by
  suffices h : ∀ done : Keyed α, (done.Pairwise fun a b => a.1 < b.1) →
      (extend done entries).Pairwise fun a b => a.1 < b.1 from h [] .nil
  induction entries with
  | nil => exact fun done h => h
  | cons e entries ih => exact fun done h => ih _ (increasing_insert e.1 e.2 h)

end Keyed

namespace Render

/-! ## The recursion -/

/-- Writes markup. The store changes as the components that are called change it. -/
abbrev Writing := Attempt Store (Stop RenderError) String

/-- Double quotes are written as an entity. -/
def quoted (value : String) : String :=
  String.ofList (value.toList.flatMap fun c => if c = '"' then "&quot;".toList else [c])

/-- The props that are texts or numbers, but for the children, in the order of their names. -/
def writeAttributes (props : Fields) : String :=
  let others := props.filter fun p => p.1 != "children"
  let shown := others.filterMap fun p => p.2.shown?.map fun shown => (p.1, shown)
  String.join ((Keyed.ofList shown).map fun a => " " ++ a.1 ++ "=\"" ++ quoted a.2 ++ "\"")

def writeItems (write : Value → Writing) : List Value → Writing
  | [] => return ""
  | v :: vs => do
    let first ← write v
    return first ++ (← writeItems write vs)

/-- What stands inside a host element. -/
def writeContent (write : Value → Writing) : Option Value → Writing
  | none => return ""
  | some v =>
    match v.shown? with
    | some shown => return shown
    | none => write v

/-- The place that an element names gets its record. -/
def notePlace (e : CreatedElement Value) : Attempt Store (Stop RenderError) Unit :=
  Attempt.modify fun s => (sourceRecord e.source s).2

def callComponent (depth : Nat) (f : Function) (props : Value) :
    Attempt Store (Stop RenderError) Value :=
  Attempt.within id (fun s _ => s) (Stop.map RenderError.eval)
    (Eval.call depth (.function f) [props])

/-- Writes the markup of a value down, to a depth. -/
def writeValue (depth : Nat) : Nat → Value → Writing
  | 0, _ => Attempt.fail .exhausted
  | n + 1, v =>
    match v with
    | .undefined | .null | .bool _ => return ""
    | .text s => return s
    | .number x => return Source.printNumber x
    | .array _ items => writeItems (writeValue depth n) items
    | .element e => do
      notePlace e
      match e.type with
      | .host tag =>
        let inner ← writeContent (writeValue depth n) (Keyed.get? "children" e.props)
        return "<" ++ tag ++ writeAttributes e.props ++ ">" ++ inner ++ "</" ++ tag ++ ">"
      | .component f =>
        let rendered ← callComponent depth f (Value.props e)
        writeValue depth n rendered
    | other => Attempt.fail (.error (.invalidChild other.typeName))

/-- A single text or number in an element is written as it is anywhere else. -/
theorem writeContent_eq (depth n : Nat) (v : Value) :
    writeContent (writeValue depth (n + 1)) (some v) = writeValue depth (n + 1) v := by
  unfold writeContent
  cases v <;> rfl

theorem escapeAttribute_eq (value : String) : Document.escapeAttribute value = quoted value := by
  apply String.toList_injective
  rw [Document.escapeAttribute, quoted, String.toList_join, String.toList_ofList,
    List.flatMap_map]
  congr 1
  funext c
  split
  · rfl
  · simp

/-- The attributes of a new element are read off as they are written. -/
theorem attributesHtml_extend (props : Fields) :
    Document.attributesHtml (Keyed.extend [] (attributesOf props)) = writeAttributes props := by
  have hshown : attributesOf props = (props.filter fun p => p.1 != "children").filterMap
      fun p => p.2.shown?.map fun shown => (p.1, shown) := by
    rw [attributesOf, List.filterMap_filter]
    congr 1
    funext p
    by_cases hp : p.1 = "children" <;> simp [hp]
  unfold writeAttributes Document.attributesHtml
  rw [hshown]
  simp only [escapeAttribute_eq]
  rfl

/-! ## New nodes -/

theorem Document.get?_setAttributes_self (id : NodeId) (attributes : Keyed String) {d : Document}
    {n : Node} (hn : d.get? id = some n) :
    (attributes.foldl (fun d a => d.setAttribute id a.1 a.2) d).get? id =
      some { n with attributes := Keyed.extend n.attributes attributes } := by
  induction attributes generalizing d n with
  | nil => exact hn
  | cons a attributes ih =>
    have hset : (d.setAttribute id a.1 a.2).get? id =
        some { n with attributes := n.attributes.insert a.1 a.2 } := by
      rw [setAttribute, get?_modify, if_pos rfl, hn]
      rfl
    exact ih hset

namespace Mounting

variable {m : Mounting} {parent : NodeId} (hparent : parent.index < m.document.size)
include hparent

theorem get?_appendText_self (content : String) :
    (m.appendText parent content).document.get? ⟨m.document.size⟩ =
      some { Node.new .text content with parent := some parent } := by
  have hne : parent ≠ ⟨m.document.size⟩ := fun h => Nat.lt_irrefl _ (h ▸ hparent)
  have hnew : (m.document.createText content).2.get? ⟨m.document.size⟩ =
      some (.new .text content) := Document.get?_add_self _ _
  rw [appendText, Document.get?_appendChild, if_neg hne, Document.get?_modify, if_pos rfl, hnew]
  rfl

theorem get?_appendElement_self (tag : String) (attributes : Keyed String) :
    (m.appendElement parent tag attributes).document.get? ⟨m.document.size⟩ =
      some { Node.new .element tag with
        attributes := Keyed.extend [] attributes, parent := some parent } := by
  have hne : parent ≠ ⟨m.document.size⟩ := fun h => Nat.lt_irrefl _ (h ▸ hparent)
  have hnew : (m.document.createElement tag).2.get? ⟨m.document.size⟩ =
      some (.new .element tag) := Document.get?_add_self _ _
  rw [appendElement, Document.get?_appendChild, if_neg hne, Document.get?_modify, if_pos rfl,
    Document.get?_setAttributes_self _ attributes hnew]
  rfl

end Mounting

/-! ## What was added to a node -/

/-- Wherever the nodes that were made since the document had this size are kept, these read so. -/
def ReadsAs (least : Nat) (d : Document) (ids : List NodeId) (text : String) : Prop :=
  ∀ later : Document,
    (∀ id : NodeId, least ≤ id.index → id.index < d.size → later.get? id = d.get? id) →
      ∀ depth, d.size - least ≤ depth → String.join (ids.map (later.htmlTo depth)) = text

/-- A node gets further children, new ones, and they read so. No other node changes. -/
structure Writes (parent : NodeId) (d d' : Document) (text : String) : Prop where
  size_le : d.size ≤ d'.size
  kept : ∀ id : NodeId, id.index < d.size → id ≠ parent → d'.get? id = d.get? id
  added : ∃ ids, d'.get? parent =
    (d.get? parent).map (fun n => { n with children := n.children ++ ids }) ∧
      ReadsAs d.size d' ids text

namespace Writes

variable {parent : NodeId} {d d₁ d₂ : Document}

theorem nothing (parent : NodeId) (d : Document) : Writes parent d d "" := by
  refine ⟨Nat.le_refl _, fun _ _ _ => rfl, [], ?_, fun _ _ _ _ => rfl⟩
  simp

/-- What is added later leaves what was added before to read as it did. -/
theorem append {first second : String} (h : Writes parent d d₁ first)
    (h' : Writes parent d₁ d₂ second) (hparent : parent.index < d.size) :
    Writes parent d d₂ (first ++ second) := by
  have hle := h.size_le
  have hle' := h'.size_le
  obtain ⟨ids, hids, hreads⟩ := h.added
  obtain ⟨ids', hids', hreads'⟩ := h'.added
  refine ⟨Nat.le_trans hle hle', ?_, ids ++ ids', ?_, ?_⟩
  · intro id hid hne
    rw [h'.kept id (Nat.lt_of_lt_of_le hid hle) hne, h.kept id hid hne]
  · rw [hids', hids, Option.map_map]
    congr 1
    funext n
    simp
  · intro later hlater depth hdepth
    have hfirst : String.join (ids.map (later.htmlTo depth)) = first := by
      apply hreads later _ depth (by omega)
      intro id hleast hid
      have hne : id ≠ parent := by
        rintro rfl
        omega
      rw [hlater id hleast (Nat.lt_of_lt_of_le hid hle'), h'.kept id hid hne]
    have hsecond : String.join (ids'.map (later.htmlTo depth)) = second :=
      hreads' later (fun id hleast => hlater id (Nat.le_trans hle hleast)) depth (by omega)
    rw [List.map_append, String.join_append, hfirst, hsecond]

variable {m : Mounting} (hparent : parent.index < m.document.size)
include hparent

theorem text (content : String) :
    Writes parent m.document (m.appendText parent content).document content := by
  have hsize := @Mounting.size_appendText m parent content
  refine ⟨by omega, ?_, [⟨m.document.size⟩], ?_, ?_⟩
  · intro id hid hne
    rw [Mounting.get?_appendText hid, if_neg (Ne.symm hne)]
  · rw [Mounting.get?_appendText hparent, if_pos rfl]
  · intro later hlater depth hdepth
    have hnew := hlater ⟨m.document.size⟩ (Nat.le_refl _) (by simp [hsize])
    rw [Mounting.get?_appendText_self hparent] at hnew
    obtain ⟨depth, rfl⟩ : ∃ n, depth = n + 1 := ⟨depth - 1, by omega⟩
    simp [Document.htmlTo, hnew, Node.new]

/-- An element with what was added to it afterwards. -/
theorem element {tag : String} {attributes : Keyed String} {d' : Document} {inner : String}
    (h : Writes ⟨m.document.size⟩ (m.appendElement parent tag attributes).document d' inner) :
    Writes parent m.document d' ("<" ++ tag ++ Document.attributesHtml (Keyed.extend [] attributes)
      ++ ">" ++ inner ++ "</" ++ tag ++ ">") := by
  have hsize := @Mounting.size_appendElement m parent tag attributes
  have hle := h.size_le
  have hold : ∀ id : NodeId, id.index < m.document.size → d'.get? id =
      (m.appendElement parent tag attributes).document.get? id := by
    intro id hid
    apply h.kept id (by omega)
    rintro rfl
    exact Nat.lt_irrefl _ hid
  refine ⟨by omega, ?_, [⟨m.document.size⟩], ?_, ?_⟩
  · intro id hid hne
    rw [hold id hid, Mounting.get?_appendElement hid, if_neg (Ne.symm hne)]
  · rw [hold parent hparent, Mounting.get?_appendElement hparent, if_pos rfl]
  · intro later hlater depth hdepth
    obtain ⟨ids, hids, hreads⟩ := h.added
    rw [Mounting.get?_appendElement_self hparent] at hids
    have hnew := hlater ⟨m.document.size⟩ (Nat.le_refl _) (by simp; omega)
    rw [hids] at hnew
    obtain ⟨depth, rfl⟩ : ∃ n, depth = n + 1 := ⟨depth - 1, by omega⟩
    have hinner : String.join (ids.map (later.htmlTo depth)) = inner := by
      apply hreads later _ depth (by omega)
      intro id hleast hid
      exact hlater id (by omega) hid
    simp [Document.htmlTo, hnew, Node.new, hinner]

end Writes

/-! ## Mounting goes as writing -/

/-- A mounting into a node ends as a writing does and leaves the same store. When both succeed, what
was written is what the node got. -/
def Mount.Tells {α : Type} (parent : NodeId) (x : Mount α) (y : Writing) : Prop :=
  ∀ m, match y m.store with
    | (.ok text, s) => ∃ a m', x m = (.ok a, m') ∧ m'.store = s ∧
        (parent.index < m.document.size → Writes parent m.document m'.document text)
    | (.error e, s) => ∃ m', x m = (.error e, m') ∧ m'.store = s

/-- Changes neither the store nor the document, and does not fail. -/
def Mount.Unseen {α : Type} (x : Mount α) : Prop :=
  ∀ m, ∃ a m', x m = (.ok a, m') ∧ m'.store = m.store ∧ m'.document = m.document

namespace Mount.Unseen

theorem addFiber (f : Fiber) : Unseen (Mount.addFiber f) := fun _ => ⟨_, _, rfl, rfl, rfl⟩

theorem link (parent : FiberId) (ids : List FiberId) : Unseen (Mount.link parent ids) :=
  fun _ => ⟨_, _, rfl, rfl, rfl⟩

theorem pure {α : Type} (a : α) : Unseen (Pure.pure a : Mount α) := fun _ => ⟨_, _, rfl, rfl, rfl⟩

theorem bind {α β : Type} {x : Mount α} {f : α → Mount β} (hx : Unseen x)
    (hf : ∀ a, Unseen (f a)) : Unseen (x >>= f) := by
  intro m
  obtain ⟨a, m₁, ha, hstore, hdocument⟩ := hx m
  obtain ⟨b, m₂, hb, hstore', hdocument'⟩ := hf a m₁
  refine ⟨b, m₂, ?_, hstore'.trans hstore, hdocument'.trans hdocument⟩
  rw [Attempt.bind_ok ha, hb]

end Mount.Unseen

namespace Mount.Tells

variable {α β : Type} {parent : NodeId}

theorem fail (e : Stop RenderError) :
    Tells (α := α) parent (Attempt.fail e) (Attempt.fail e) := fun m => ⟨m, rfl, rfl⟩

theorem nothing (a : α) : Tells parent (Pure.pure a) (return "") :=
  fun m => ⟨a, m, rfl, rfl, fun _ => .nothing parent m.document⟩

theorem text (content : String) : Tells parent (Mount.appendText parent content) (return content) :=
  fun m => ⟨_, m.appendText parent content, rfl, rfl, fun hparent => .text hparent content⟩

/-- What is not seen may come before. -/
theorem after {x : Mount α} {f : α → Mount β} {y : Writing} (hx : Unseen x)
    (hf : ∀ a, Tells parent (f a) y) : Tells parent (x >>= f) y := by
  intro m
  obtain ⟨a, m₁, ha, hstore, hdocument⟩ := hx m
  have hrest := hf a m₁
  rw [Attempt.bind_ok ha, ← hstore, ← hdocument]
  exact hrest

/-- What is not seen may come behind. -/
theorem before {x : Mount α} {f : α → Mount β} {y : Writing} (hx : Tells parent x y)
    (hf : ∀ a, Unseen (f a)) : Tells parent (x >>= f) y := by
  intro m
  have hfirst := hx m
  generalize y m.store = result at hfirst ⊢
  rcases result with ⟨e | text, s⟩
  · obtain ⟨m₁, herror, hstore⟩ := hfirst
    exact ⟨m₁, Attempt.bind_error herror f, hstore⟩
  · obtain ⟨a, m₁, ha, hstore, hwrites⟩ := hfirst
    obtain ⟨b, m₂, hb, hstore', hdocument⟩ := hf a m₁
    refine ⟨b, m₂, ?_, hstore'.trans hstore, ?_⟩
    · rw [Attempt.bind_ok ha, hb]
    · rw [hdocument]
      exact hwrites

/-- One mounting after the other gives the texts one after the other. -/
theorem append {x : Mount α} {f : α → Mount β} {y z : Writing} (hx : Tells parent x y)
    (hf : ∀ a, Tells parent (f a) z) :
    Tells parent (x >>= f) (do let first ← y; return first ++ (← z)) := by
  intro m
  have hfirst := hx m
  rw [Attempt.bind_apply]
  rcases hy : y m.store with ⟨e | first, s₁⟩
  · rw [hy] at hfirst
    obtain ⟨m₁, herror, hstore⟩ := hfirst
    exact ⟨m₁, Attempt.bind_error herror f, hstore⟩
  · rw [hy] at hfirst
    obtain ⟨a, m₁, ha, rfl, hwrites⟩ := hfirst
    have hrest := hf a m₁
    dsimp only
    rw [Attempt.bind_apply, Attempt.bind_ok ha]
    rcases hz : z m₁.store with ⟨e | second, s₂⟩
    · rw [hz] at hrest
      exact hrest
    · rw [hz] at hrest
      obtain ⟨b, m₂, hb, hstore, hwrites'⟩ := hrest
      refine ⟨b, m₂, hb, hstore, fun hparent => ?_⟩
      have hgrown := hwrites hparent
      exact hgrown.append (hwrites' (Nat.lt_of_lt_of_le hparent hgrown.size_le)) hparent

/-- The record of a place is made on both sides. -/
theorem source {f : Option RecordRef → Mount β} {y : Writing} (e : CreatedElement Value)
    (hf : ∀ r, Tells parent (f r) y) :
    Tells parent (Mount.source e.source >>= f) (do notePlace e; y) :=
  fun m => hf (sourceRecord e.source m.store).1 (m.withSource e.source)

/-- A component is called on both sides. -/
theorem call {f : Value → Mount β} {y : Value → Writing} (depth : Nat) (component : Function)
    (props : Value) (hf : ∀ v, Tells parent (f v) (y v)) :
    Tells parent (Mount.ofRun (Eval.call depth (.function component) [props]) >>= f)
      (callComponent depth component props >>= y) := by
  intro m
  rw [Attempt.bind_apply, Attempt.bind_apply, callComponent, Mount.ofRun, Attempt.within,
    Attempt.within]
  dsimp only [id]
  rcases Eval.call depth (.function component) [props] m.store with ⟨e | v, s⟩
  · exact ⟨_, rfl, rfl⟩
  · exact hf v { m with store := s }

/-- What is mounted into a new element stands between its tags. -/
theorem element {f : NodeId → Mount β} {y : Writing} (tag : String) (attributes : Keyed String)
    (hf : ∀ node, Tells node (f node) y) :
    Tells parent (Mount.appendElement parent tag attributes >>= f) (do
      let inner ← y
      return "<" ++ tag ++ Document.attributesHtml (Keyed.extend [] attributes) ++ ">" ++ inner ++
        "</" ++ tag ++ ">") := by
  intro m
  have hinner := hf ⟨m.document.size⟩ (m.appendElement parent tag attributes)
  rw [Attempt.bind_apply]
  rcases hy : y m.store with ⟨e | inner, s⟩
  · rw [show (m.appendElement parent tag attributes).store = m.store from rfl, hy] at hinner
    exact hinner
  · rw [show (m.appendElement parent tag attributes).store = m.store from rfl, hy] at hinner
    obtain ⟨a, m', ha, hstore, hwrites⟩ := hinner
    refine ⟨a, m', ha, hstore, fun hparent => .element hparent (hwrites ?_)⟩
    rw [Mounting.size_appendElement]
    exact Nat.lt_succ_self _

section

variable {mounter : Mounter} {write : Value → Writing}
  (hm : ∀ v node, Tells node (mounter v node) (write v))
include hm

theorem item (v : Value) : Tells parent (mountItem mounter v parent) (write v) := by
  unfold mountItem
  split
  · exact after (.addFiber _) fun _ => (hm _ _).before fun _ =>
      .bind (.link _ _) fun _ => .pure _
  · exact hm _ _

theorem items (vs : List Value) :
    Tells parent (mountItems mounter parent vs) (writeItems write vs) := by
  induction vs with
  | nil => exact nothing _
  | cons v vs ih => exact (item hm v).append fun _ => ih.before fun _ => .pure _

theorem content (fiber : FiberId) (v : Option Value) :
    Tells parent (mountContent mounter fiber parent v) (writeContent write v) := by
  unfold mountContent writeContent
  cases v with
  | none => exact nothing _
  | some v =>
    dsimp only
    cases v.shown? with
    | some shown =>
      dsimp only
      split
      · rename_i hempty
        subst hempty
        exact nothing _
      · exact (text shown).before fun _ => .pure _
    | none => exact (hm _ _).before fun _ => .link _ _

end

end Mount.Tells

/-- Mounting a value goes as writing it, to every depth. -/
theorem mount_tells (depth n : Nat) (v : Value) (parent : NodeId) :
    Mount.Tells parent (mount depth n v parent) (writeValue depth n v) := by
  induction n generalizing v parent with
  | zero => exact .fail _
  | succ n ih =>
    unfold mount mountStep writeValue
    cases v with
    | undefined => exact .nothing _
    | null => exact .nothing _
    | bool b => exact .nothing _
    | text s =>
      dsimp only
      split
      · rename_i hempty
        subst hempty
        exact .nothing _
      · exact (Mount.Tells.text s).before fun _ => .bind (.addFiber _) fun _ => .pure _
    | number x => exact (Mount.Tells.text _).before fun _ => .bind (.addFiber _) fun _ => .pure _
    | array identity items => exact Mount.Tells.items ih items
    | element e =>
      dsimp only
      cases e.type with
      | host tag =>
        dsimp only
        rw [← attributesHtml_extend, ← Attempt.bind_assoc]
        exact .element tag _ fun node => .source e fun _ => .after (.addFiber _) fun _ =>
          (Mount.Tells.content ih _ _).before fun _ => .pure _
      | component f =>
        exact .source e fun _ => .after (.addFiber _) fun _ => .call depth f _ fun v =>
          (ih v parent).before fun _ => .bind (.link _ _) fun _ => .pure _
    | _ => exact .fail _

/-- Rendering a value into a container that is there gives what was written. -/
theorem renderInto_tells (depth : Nat) (container : NodeId) (v : Value) (s : Store) (d : Document) :
    match writeValue depth depth v s with
    | (.ok text, store) => ∃ tree d', renderInto depth container v s d = (.ok tree, store, d') ∧
        ∀ n, d.get? container = some n → n.kind = .container → d'.html container = text
    | (.error e, store) => ∃ d', renderInto depth container v s d = (.error e, store, d') := by
  have htells : Mount.Tells container (mountRoot depth container v) (writeValue depth depth v) :=
    .after (.addFiber _) fun _ => (mount_tells depth depth v container).before fun _ => .link _ _
  have htold := htells ⟨s, d.clearChildren container, .empty⟩
  unfold renderInto
  rcases hwritten : writeValue depth depth v s with ⟨e | text, store⟩
  · rw [hwritten] at htold
    obtain ⟨m', herror, rfl⟩ := htold
    exact ⟨m'.document, by rw [herror]; rfl⟩
  · rw [hwritten] at htold
    obtain ⟨a, m', hok, rfl, hwrites⟩ := htold
    refine ⟨m'.tree, m'.document, by rw [hok]; rfl, fun n hn hkind => ?_⟩
    have hcontainer : container.index < d.size := (Array.getElem?_eq_some_iff.mp hn).1
    have hsize := Document.size_clearChildren container d
    obtain ⟨hle, -, ids, hids, hreads⟩ := hwrites (by rwa [hsize])
    dsimp only at hle hids hreads
    rw [Document.get?_clearChildren, hn] at hids
    have hinner := hreads m'.document (fun _ _ _ => rfl) (m'.document.size - 1) (by omega)
    obtain ⟨k, hk⟩ : ∃ k, m'.document.size = k + 1 := ⟨m'.document.size - 1, by omega⟩
    rw [hk, Nat.add_sub_cancel] at hinner
    simp [Document.html, Document.htmlTo, hk, hids, hkind, hinner]

end Render

namespace Live.Session

/-- After any history, a render of any value succeeds when the value can be written down and fails
with the same error when it cannot, evaluating the same. A root that its own renderer rendered into
then shows what was written. -/
theorem render_writes_value {s : Session} (h : s.Reached) {root : RootId} {r : Root}
    (hroot : s.root? root = some r) (depth : Nat) (id : RendererId) (v : Value) :
    match writeValue depth depth v s.store with
    | (.ok text, store) => ∃ s', s.render depth id root v = (.ok (), s') ∧ s'.store = store ∧
        (id = r.owner → s'.html root = text)
    | (.error e, store) => ∃ s', s.render depth id root v = (.error e, s') ∧ s'.store = store := by
  have htells := renderInto_tells depth r.container v s.store (s.document id)
  obtain ⟨result, store, d, hinto, hrender⟩ := render_of_root? hroot depth id v
  rw [hinto] at htells
  generalize writeValue depth depth v s.store = written at htells ⊢
  rcases written with ⟨e | text, store'⟩
  · obtain ⟨d', herror⟩ := htells
    cases herror
    rcases hrender with ⟨e', he', hrender⟩ | ⟨tree, hok, -⟩
    · cases he'
      exact ⟨_, hrender, rfl⟩
    · cases hok
  · obtain ⟨tree, d', hok, hhtml⟩ := htells
    cases hok
    rcases hrender with ⟨e, herror, -⟩ | ⟨tree', hok, hrender⟩
    · cases herror
    cases hok
    refine ⟨_, hrender, (commit_eq id root tree _).2.2, ?_⟩
    rintro rfl
    obtain ⟨n, hn, hkind⟩ := h.contained _ (mem_places hroot)
    obtain ⟨renderer, hrenderer⟩ := h.contained.exists_renderer hroot
    rw [html, root?_committed hroot]
    dsimp only [Option.map_some, Option.getD_some]
    rw [document_committed hrenderer]
    exact hhtml n hn hkind

/-- Arrays in an array, and an element with an attribute that has a quote in it. -/
def quotedElement : Value :=
  .array 20 [.text "a", .array 21 [.bool true, .element ⟨22, .host "i", 23,
    [("children", .array 24 [.null, .text "y"]), ("title", .text "\"z")], none, none⟩]]

/-- A second rendering shows what is written of its value, and nothing of the first. -/
theorem render_writes_value_second : ∃ r s', oneRendered.Reached ∧
    oneRendered.root? ⟨0⟩ = some r ∧ oneRendered.html ⟨0⟩ = "<p>a<b>c</b></p>" ∧
    oneRendered.render 5 ⟨1⟩ ⟨0⟩ quotedElement = (.ok (), s') ∧
    s'.html ⟨0⟩ = "a<i title=\"&quot;z\">y</i>" := by
  obtain ⟨r, hroot, howner⟩ : ∃ r, oneRendered.root? ⟨0⟩ = some r ∧ r.owner = ⟨1⟩ := ⟨_, rfl, rfl⟩
  have hwritten : (writeValue 5 5 quotedElement oneRendered.store).1.toOption =
      some "a<i title=\"&quot;z\">y</i>" := by decide
  have hrender := render_writes_value oneRendered_reached hroot 5 ⟨1⟩ quotedElement
  generalize writeValue 5 5 quotedElement oneRendered.store = written at hwritten hrender
  rcases written with ⟨e | text, store⟩
  · cases hwritten
  · cases hwritten
    obtain ⟨s', hok, -, hhtml⟩ := hrender
    exact ⟨r, s', oneRendered_reached, hroot, by decide, hok, hhtml howner.symm⟩

end Live.Session

end MarkupTrace
