import MarkupTrace.Proofs.Contributors
import MarkupTrace.Proofs.TextLines
import MarkupTrace.Structure.Drawing

/-!
# What a drawing tells

Below the line with the number of roots a drawing has a line for each entry at any depth, in the order
of their paths: an entry comes before those below it, and these before its later siblings. In front of
the connector stands one cell for each entry around, and the connector shows whether it is the last of
its siblings. So the shape of the forest can be read off the text, already off what stands in front of
the labels.

Texts may contain anything, as they are drawn escaped. Tags and the names of files and components are
drawn as they are, and with a line feed among them a line of the drawing would be none of an entry.
-/

namespace MarkupTrace

open Render Structure Text

namespace Structure

/-! ## Places -/

/-- Where an entry stands in a forest. The path counts the siblings before each entry on the way to
it. Of each entry around it, from the outermost on, it is known whether it is the last of its
siblings. -/
structure Place where
  path : List Nat
  around : List Bool
  isLast : Bool
  entry : Entry

/-- How many entries are around it. -/
def Place.depth (p : Place) : Nat := p.around.length

/-- A place among the children of an entry, seen from the forest of this entry. -/
def Place.under (i : Nat) (isLast : Bool) (p : Place) : Place :=
  { p with path := i :: p.path, around := isLast :: p.around }

/-- The places in a forest. -/
inductive StandsIn : List Entry → Place → Prop
  | here (before : List Entry) (e : Entry) (after : List Entry) :
      StandsIn (before ++ e :: after) ⟨[before.length], [], after.isEmpty, e⟩
  | under (before : List Entry) {e : Entry} (after : List Entry) {p : Place}
      (below : StandsIn e.children p) :
      StandsIn (before ++ e :: after) (p.under before.length after.isEmpty)

mutual

/-- The places of an entry and those below it from front to back. -/
def Entry.placesAt (i : Nat) (isLast : Bool) : Entry → List Place
  | .mk node contributors children =>
    ⟨[i], [], isLast, .mk node contributors children⟩ ::
      (placesFrom 0 children).map (Place.under i isLast)

/-- The places in a part of a forest that has `i` siblings before it. -/
def placesFrom (i : Nat) : List Entry → List Place
  | [] => []
  | e :: es => e.placesAt i es.isEmpty ++ placesFrom (i + 1) es

end

variable {i : Nat} {e : Entry} {es : List Entry}

theorem placesFrom_cons : placesFrom i (e :: es) = ⟨[i], [], es.isEmpty, e⟩ ::
    ((placesFrom 0 e.children).map (Place.under i es.isEmpty) ++ placesFrom (i + 1) es) := by
  cases e
  rfl

mutual

theorem Entry.children_induction {motive : List Entry → Prop} (nil : motive [])
    (cons : ∀ e es, motive e.children → motive es → motive (e :: es)) :
    ∀ e : Entry, motive e.children
  | .mk _ _ children => forest_induction nil cons children

/-- A forest is empty, or it has a first entry with a forest below it and one behind it. -/
@[elab_as_elim]
theorem forest_induction {motive : List Entry → Prop} (nil : motive [])
    (cons : ∀ e es, motive e.children → motive es → motive (e :: es)) :
    ∀ es : List Entry, motive es
  | [] => nil
  | e :: es => cons e es (Entry.children_induction nil cons e) (forest_induction nil cons es)

end

theorem map_entry_placesFrom (i : Nat) (es : List Entry) :
    (placesFrom i es).map Place.entry = allEntries es := by
  induction es using forest_induction generalizing i with
  | nil => rfl
  | cons e es below behind =>
    have hunder : Place.entry ∘ Place.under i es.isEmpty = Place.entry := rfl
    rw [placesFrom_cons, List.map_cons, List.map_append, List.map_map, hunder, below, behind,
      allEntries_cons]

theorem standsIn_of_mem (before : List Entry) {p : Place} (h : p ∈ placesFrom before.length es) :
    StandsIn (before ++ es) p := by
  induction es using forest_induction generalizing before p with
  | nil => cases h
  | cons e es below behind =>
    rw [placesFrom_cons] at h
    rcases List.mem_cons.mp h with rfl | h
    · exact .here before e es
    rcases List.mem_append.mp h with h | h
    · obtain ⟨q, hq, rfl⟩ := List.mem_map.mp h
      exact .under before es (below [] hq)
    · have hbehind := behind (before ++ [e]) (by simpa using h)
      rwa [List.append_assoc] at hbehind

theorem placesAt_subset (i : Nat) (before : List Entry) (e : Entry) (after : List Entry) :
    e.placesAt (i + before.length) after.isEmpty ⊆ placesFrom i (before ++ e :: after) := by
  induction before generalizing i with
  | nil => exact List.subset_append_left _ _
  | cons e' before ih =>
    have hlength : i + (e' :: before).length = i + 1 + before.length := by
      rw [List.length_cons]
      omega
    rw [hlength]
    exact List.subset_append_of_subset_right _ (ih (i + 1))

theorem mem_of_standsIn {p : Place} (h : StandsIn es p) : p ∈ placesFrom 0 es := by
  induction h with
  | here before e after =>
    apply placesAt_subset 0 before e after
    cases e
    rw [Nat.zero_add]
    exact List.mem_cons_self
  | @under before e after p _ ih =>
    apply placesAt_subset 0 before e after
    cases e
    rw [Nat.zero_add]
    exact List.mem_cons_of_mem _ (List.mem_map_of_mem ih)

theorem mem_placesFrom_zero {p : Place} : p ∈ placesFrom 0 es ↔ StandsIn es p :=
  ⟨standsIn_of_mem [], mem_of_standsIn⟩

theorem path_of_mem {p : Place} (h : p ∈ placesFrom i es) : ∃ j path, p.path = j :: path ∧ i ≤ j := by
  induction es generalizing i with
  | nil => cases h
  | cons e es ih =>
    rw [placesFrom_cons] at h
    rcases List.mem_cons.mp h with rfl | h
    · exact ⟨i, [], rfl, Nat.le_refl i⟩
    rcases List.mem_append.mp h with h | h
    · obtain ⟨q, -, rfl⟩ := List.mem_map.mp h
      exact ⟨i, q.path, rfl, Nat.le_refl i⟩
    · obtain ⟨j, path, hpath, hj⟩ := ih h
      exact ⟨j, path, hpath, Nat.le_of_succ_le hj⟩

/-- The order of the paths is that of a preorder walk. -/
theorem pairwise_path (i : Nat) (es : List Entry) :
    (placesFrom i es).Pairwise fun p q => p.path < q.path := by
  induction es using forest_induction generalizing i with
  | nil => exact .nil
  | cons e es below behind =>
    have hbehind : ∀ path, ∀ q ∈ placesFrom (i + 1) es, i :: path < q.path := by
      intro path q hq
      obtain ⟨j, path', hpath, hj⟩ := path_of_mem hq
      rw [hpath]
      exact List.cons_lt_cons_iff.mpr (.inl hj)
    rw [placesFrom_cons, List.pairwise_cons, List.pairwise_append, List.pairwise_map]
    refine ⟨fun q hq => ?_, (below 0).imp List.cons_lt_cons_self.mpr, behind (i + 1), ?_⟩
    · rcases List.mem_append.mp hq with hq | hq
      · obtain ⟨p, hp, rfl⟩ := List.mem_map.mp hq
        obtain ⟨j, path, hpath, -⟩ := path_of_mem hp
        refine List.cons_lt_cons_self.mpr ?_
        rw [hpath]
        exact List.nil_lt_cons j path
      · exact hbehind [] q hq
    · intro p hp q hq
      obtain ⟨p, -, rfl⟩ := List.mem_map.mp hp
      exact hbehind p.path q hq

/-! ## Lines of a drawing -/

/-- A cell for each entry around. -/
def Place.cells (p : Place) : List Char := p.around.flatMap fun isLast => (cell isLast).toList

/-- What stands in front of a label. -/
def Place.margin (p : Place) : List Char := p.cells ++ (connector p.isLast).toList

def Place.line (document : Document) (p : Place) : List Char :=
  p.margin ++ (p.entry.label document).toList

theorem length_cells (p : Place) : p.cells.length = 2 * p.depth := by
  have hcell (isLast : Bool) : (cell isLast).toList.length = 2 := by cases isLast <;> rfl
  simp [Place.cells, Place.depth, hcell, Nat.mul_comm]

theorem length_margin (p : Place) : p.margin.length = 2 * p.depth + 3 := by
  have hconnector : (connector p.isLast).toList.length = 3 := by cases p.isLast <;> rfl
  rw [Place.margin, List.length_append, length_cells, hconnector]

/-- The line above the entries. -/
def headLine (n : Nat) : List Char := '⧉' :: ' ' :: Nat.toDigits 10 n ++ " root(s)".toList

theorem drawEntries_cons (document : Document) (margin : String) (e : Entry) (es : List Entry) :
    drawEntries document margin (e :: es) =
      margin ++ connector es.isEmpty ++ e.label document ++ "\n" ++
        drawEntries document (margin ++ cell es.isEmpty) e.children ++
          drawEntries document margin es := by
  cases e
  rfl

theorem toList_drawEntries (document : Document) (margin : String) (i : Nat) (es : List Entry) :
    (drawEntries document margin es).toList =
      (placesFrom i es).flatMap fun p => margin.toList ++ p.line document ++ ['\n'] := by
  induction es using forest_induction generalizing margin i with
  | nil => rfl
  | cons e es below behind =>
    have hunder (p : Place) : margin.toList ++ (p.under i es.isEmpty).line document ++ ['\n'] =
        (margin ++ cell es.isEmpty).toList ++ p.line document ++ ['\n'] := by
      simp [Place.line, Place.margin, Place.cells, Place.under]
    rw [drawEntries_cons, placesFrom_cons, List.flatMap_cons, List.flatMap_append, List.flatMap_map]
    simp only [String.toList_append, below _ 0, behind _ (i + 1), hunder]
    simp [Place.line, Place.margin, Place.cells]

theorem toList_draw (document : Document) (es : List Entry) : (draw document es).toList =
    (headLine es.length :: (placesFrom 0 es).map (Place.line document)).flatMap (· ++ ['\n']) := by
  have hdigits : (toString es.length).toList = Nat.toDigits 10 es.length := Nat.toList_repr
  have hhead : (s!"⧉ {es.length} root(s)\n").toList = headLine es.length ++ ['\n'] := by
    rw [String.toList_append, String.toList_append, hdigits, headLine]
    simp only [List.append_assoc]
    rfl
  rw [draw, String.toList_append, hhead, toList_drawEntries document "" 0, List.flatMap_cons,
    List.flatMap_map]
  rfl

/-! ## Labels without line feeds -/

/-- The names of the file and the component are on one line. -/
def Contributor.Unbroken (c : Contributor) : Prop :=
  '\n' ∉ c.location.fileName.toList ∧ ∀ name ∈ c.component.name?, '\n' ∉ name.toList

instance (c : Contributor) : Decidable c.Unbroken := inferInstanceAs (Decidable (_ ∧ _))

/-- The tags are on one line. Nothing is asked of texts. -/
def UnbrokenTags (document : Document) : Prop :=
  ∀ n ∈ document.nodes, n.kind = .element → '\n' ∉ n.name.toList

instance (document : Document) : Decidable (UnbrokenTags document) :=
  inferInstanceAs (Decidable (∀ n ∈ document.nodes, n.kind = .element → '\n' ∉ n.name.toList))

theorem feed_not_mem_toString (n : Nat) : '\n' ∉ (toString n).toList := by
  have hdigits : (toString n).toList = Nat.toDigits 10 n := Nat.toList_repr
  rw [hdigits]
  exact feed_not_mem_toDigits (by decide) n

theorem feed_not_mem_toString_int (n : Int) : '\n' ∉ (toString n).toList := by
  cases n with
  | ofNat n => exact feed_not_mem_toString n
  | negSucc n =>
    have hnegative : (toString (Int.negSucc n)).toList = '-' :: (toString (n + 1)).toList := by
      have hrepr : toString (Int.negSucc n) = "-" ++ (n + 1).repr := rfl
      rw [hrepr, String.toList_append]
      rfl
    rw [hnegative]
    exact List.not_mem_cons_of_ne_of_not_mem (by decide) (feed_not_mem_toString (n + 1))

theorem feed_not_mem_inspectText (s : String) : '\n' ∉ (inspectText s).toList := by
  have hchar (c : Char) : '\n' ∉ inspectChar c := by
    by_cases hfeed : c = '\n'
    · rw [hfeed]
      decide
    · have hne : '\n' ≠ c := Ne.symm hfeed
      have hhex := feed_not_mem_toDigits (by decide : 1 < 16) c.toNat
      unfold inspectChar hex
      split_ifs <;> simp_all
  simp [inspectText, hchar]

theorem feed_not_mem_location {l : Location} (h : '\n' ∉ l.fileName.toList) :
    '\n' ∉ l.text.toList := by
  have hself (s : String) : toString s = s := rfl
  have hspan : '\n' ∉ s!"[{l.pos}..{l.stop}]".toList := by
    have hpos := feed_not_mem_toString_int l.pos
    have hstop := feed_not_mem_toString_int l.stop
    simp_all
  unfold Location.text
  cases l.line with
  | none => simp_all
  | some n =>
    have hline := feed_not_mem_toString n
    simp_all

theorem feed_not_mem_display {c : Contributor} (h : c.Unbroken) : '\n' ∉ c.display.toList := by
  obtain ⟨hfile, hname⟩ := h
  have hcomponent : '\n' ∉ c.component.display.toList := by
    unfold Component.display
    cases hc : c.component <;> simp_all [Component.name?]
  have hlocation := feed_not_mem_location hfile
  simp [Contributor.display, hcomponent, hlocation]

theorem feed_not_mem_describe {document : Document} (h : UnbrokenTags document) (id : NodeId) :
    '\n' ∉ (document.describe id).toList := by
  have hself (s : String) : toString s = s := rfl
  unfold Document.describe
  cases hn : document.get? id with
  | none =>
    have hindex := feed_not_mem_toString id.index
    simp_all
  | some n =>
    cases hkind : n.kind with
    | text =>
      have htext := feed_not_mem_inspectText n.name
      simp [hkind, htext]
    | element =>
      have htag := h n (Array.mem_of_getElem? hn) hkind
      simp [hkind, htag]
    | container => 
      simp [hkind, containerName]

theorem feed_not_mem_shorten {s : String} (limit : Nat) (h : '\n' ∉ s.toList) :
    '\n' ∉ (shorten limit s).toList := by
  unfold shorten
  split
  · have htake : '\n' ∉ s.toList.take limit := fun hmem => h (List.mem_of_mem_take hmem)
    simp [htake]
  · exact h

theorem feed_not_mem_intercalate {texts : List (List Char)} (h : ∀ text ∈ texts, '\n' ∉ text) :
    '\n' ∉ [',', ' '].intercalate texts := by
  induction texts with
  | nil => simp
  | cons text texts ih =>
    cases texts with
    | nil => simp_all
    | cons text' texts =>
      rw [List.intercalate_cons_cons]
      simp_all

theorem feed_not_mem_contributors {contributors : List Contributor}
    (h : ∀ c ∈ contributors, c.Unbroken) :
    '\n' ∉ (", ".intercalate (contributors.map Contributor.display)).toList := by
  rw [String.toList_intercalate]
  apply feed_not_mem_intercalate
  simpa using fun c hc => feed_not_mem_display (h c hc)

/-- The label when `shown` stands for the node. -/
theorem feed_not_mem_behind {shown : String} (hshown : '\n' ∉ shown.toList)
    {contributors : List Contributor} (h : ∀ c ∈ contributors, c.Unbroken) :
    '\n' ∉ (if contributors.isEmpty then shown
      else shown ++ " ← " ++ ", ".intercalate (contributors.map Contributor.display)).toList := by
  have hcontributors := feed_not_mem_contributors h
  split
  · exact hshown
  · simp only [String.toList_append, List.mem_append, not_or]
    exact ⟨⟨hshown, by simp⟩, hcontributors⟩

theorem feed_not_mem_label {document : Document} (hdocument : UnbrokenTags document) {e : Entry}
    (he : ∀ c ∈ e.contributors, c.Unbroken) : '\n' ∉ (e.label document).toList := by
  have hnone : '\n' ∉ noNode.toList := by simp [noNode]
  unfold Entry.label
  cases e.node with
  | none => exact feed_not_mem_behind hnone he
  | some id =>
    have hnode := feed_not_mem_shorten labelLimit (feed_not_mem_describe hdocument id)
    exact feed_not_mem_behind hnode he

theorem feed_not_mem_margin (p : Place) : '\n' ∉ p.margin := by
  have hcell : ∀ isLast, '\n' ∉ (cell isLast).toList := by decide
  have hconnector : ∀ isLast, '\n' ∉ (connector isLast).toList := by decide
  simp [Place.margin, Place.cells, hcell, hconnector]

theorem feed_not_mem_headLine (n : Nat) : '\n' ∉ headLine n := by
  have hdigits := feed_not_mem_toDigits (by decide : 1 < 10) n
  simp [headLine, hdigits]

/-- A drawing has a line for each entry and none besides the one above them. -/
theorem splitOn_draw {document : Document} (hdocument : UnbrokenTags document)
    (hes : ∀ e ∈ allEntries es, ∀ c ∈ e.contributors, c.Unbroken) :
    (draw document es).toList.splitOn '\n' =
      headLine es.length :: (placesFrom 0 es).map (Place.line document) ++ [[]] := by
  rw [toList_draw, splitOn_closed]
  rw [List.forall_mem_cons, List.forall_mem_map]
  refine ⟨feed_not_mem_headLine es.length, fun p hp => ?_⟩
  have hentry : p.entry ∈ allEntries es := by
    rw [← map_entry_placesFrom 0 es]
    exact List.mem_map_of_mem hp
  exact List.not_mem_append (feed_not_mem_margin p) (feed_not_mem_label hdocument (hes _ hentry))

/-! ## Shapes -/

/-- How many cells stand in front of the connector, and whether this is the one of a last sibling. -/
def readMargin : List Char → Nat × Bool
  | ' ' :: ' ' :: cs => ((readMargin cs).1 + 1, (readMargin cs).2)
  | '│' :: ' ' :: cs => ((readMargin cs).1 + 1, (readMargin cs).2)
  | '└' :: _ => (0, true)
  | _ => (0, false)

theorem readMargin_cell (isLast : Bool) (cs : List Char) :
    readMargin ((cell isLast).toList ++ cs) = ((readMargin cs).1 + 1, (readMargin cs).2) := by
  cases isLast <;> rfl

theorem readMargin_connector (isLast : Bool) (cs : List Char) :
    readMargin ((connector isLast).toList ++ cs) = (0, isLast) := by
  cases isLast <;> simp [connector, readMargin]

/-- Whatever stands behind a margin, it is read in the same way. -/
theorem readMargin_margin (p : Place) (label : List Char) :
    readMargin (p.margin ++ label) = (p.depth, p.isLast) := by
  obtain ⟨path, around, isLast, e⟩ := p
  unfold Place.margin Place.cells Place.depth
  induction around with
  | nil => exact readMargin_connector isLast label
  | cons last around ih =>
    simp only [List.flatMap_cons, List.append_assoc, readMargin_cell] at ih ⊢
    rw [ih, List.length_cons]

/-- A forest without what its entries are about. -/
inductive Shape where
  | node (below : List Shape)

mutual

def Entry.shape : Entry → Shape
  | .mk _ _ children => .node (shapes children)

def shapes : List Entry → List Shape
  | [] => []
  | e :: es => e.shape :: shapes es

end

theorem shapes_cons (e : Entry) (es : List Entry) :
    shapes (e :: es) = .node (shapes e.children) :: shapes es := by
  cases e
  rfl

/-- Puts an entry in front of others. Those that come next and are deeper are below it. -/
def plant (depth : Nat) (behind : List (Nat × Shape)) : List (Nat × Shape) :=
  (depth, .node ((behind.takeWhile (depth < ·.1)).map Prod.snd)) ::
    behind.dropWhile (depth < ·.1)

/-- The forest that has entries of these depths, in the order of a preorder walk. -/
def forestOf (depths : List Nat) : List Shape := (depths.foldr plant []).map Prod.snd

theorem plant_deeper {depth : Nat} {below : List Shape} {behind : List (Nat × Shape)}
    (h : ∀ t ∈ behind.head?, t.1 ≤ depth) :
    plant depth (below.map (depth + 1, ·) ++ behind) = (depth, .node below) :: behind := by
  have hbelow : ∀ t ∈ below.map (depth + 1, ·), decide (depth < t.1) = true := by simp
  have hstop : behind.takeWhile (depth < ·.1) = [] ∧ behind.dropWhile (depth < ·.1) = behind := by
    cases behind with
    | nil => exact ⟨rfl, rfl⟩
    | cons t behind => simpa using h t rfl
  have hshapes : (below.map (depth + 1, ·)).map Prod.snd = below := by
    rw [List.map_map]
    exact List.map_id below
  rw [plant, List.takeWhile_append_of_pos hbelow, List.dropWhile_append_of_pos hbelow, hstop.1,
    hstop.2, List.append_nil, hshapes]

/-- By induction on the forest. What stands behind it is not deeper, so nothing of it is put below the
entries of the forest. -/
theorem foldr_plant (depth i : Nat) (es : List Entry) (behind : List (Nat × Shape))
    (h : ∀ t ∈ behind.head?, t.1 ≤ depth) :
    ((placesFrom i es).map (depth + Place.depth ·)).foldr plant behind =
      (shapes es).map (depth, ·) ++ behind := by
  induction es using forest_induction generalizing depth i behind with
  | nil => rfl
  | cons e es below rest =>
    have hunder : (fun p => depth + Place.depth p) ∘ Place.under i es.isEmpty =
        fun p => depth + 1 + Place.depth p := by
      funext p
      simp [Place.depth, Place.under]
      omega
    have hrest := rest depth (i + 1) behind h
    have hhead : ∀ t ∈ ((shapes es).map (depth, ·) ++ behind).head?, t.1 ≤ depth := by
      cases es with
      | nil => exact h
      | cons e' es =>
        rw [shapes_cons]
        rintro t ⟨⟩
        exact Nat.le_refl depth
    have hbelow := below (depth + 1) 0 _ fun t ht => Nat.le_succ_of_le (hhead t ht)
    have hdepth : depth + Place.depth ⟨[i], [], es.isEmpty, e⟩ = depth := rfl
    rw [placesFrom_cons, List.map_cons, List.map_append, List.map_map, hunder, List.foldr_cons,
      List.foldr_append, hrest, hbelow, hdepth, plant_deeper hhead, shapes_cons]
    rfl

theorem forestOf_depths (es : List Entry) :
    forestOf ((placesFrom 0 es).map Place.depth) = shapes es := by
  have hplanted := foldr_plant 0 0 es [] nofun
  simp only [Nat.zero_add, List.append_nil] at hplanted
  rw [forestOf, hplanted, List.map_map]
  exact List.map_id _

/-- The forest that a drawing shows. The line above the entries and what stands behind the last line
break are left out. -/
def readDrawing (text : String) : List Shape :=
  forestOf ((text.toList.splitOn '\n').tail.dropLast.map fun line => (readMargin line).1)

/-- Only the margins are read, so nothing depends on the labels and on the line above. -/
theorem readDrawing_eq {text : String} {head : List Char} {places : List Place}
    {label : Place → List Char}
    (h : text.toList.splitOn '\n' = head :: places.map (fun p => p.margin ++ label p) ++ [[]]) :
    readDrawing text = forestOf (places.map Place.depth) := by
  have hread : (fun line => (readMargin line).1) ∘ (fun p => p.margin ++ label p) = Place.depth :=
    funext fun p => congrArg Prod.fst (readMargin_margin p (label p))
  rw [readDrawing, h, List.cons_append, List.tail_cons, List.dropLast_concat, List.map_map, hread]

/-! ## Drawings -/

/-- What a text tells about a forest that it draws. Its lines are those of the places in the forest,
each of them once and in the order of a preorder walk, and from the text alone the depths, the last
siblings and the shape of the forest can be read. -/
structure Tells (document : Document) (es : List Entry) (text : String) (places : List Place) :
    Prop where
  ordered : places.Pairwise fun p q => p.path < q.path
  complete : ∀ p, p ∈ places ↔ StandsIn es p
  entries : places.map Place.entry = allEntries es
  lines : text.toList.splitOn '\n' = headLine es.length :: places.map (Place.line document) ++ [[]]
  margins : ∀ p ∈ places, readMargin (p.line document) = (p.depth, p.isLast)
  shape : readDrawing text = shapes es

namespace Tells

variable {document document' : Document} {es' : List Entry} {text text' : String}
  {places places' : List Place}

theorem shapes_eq (h : Tells document es text places) :
    shapes es = forestOf (places.map Place.depth) := h.shape.symm.trans (readDrawing_eq h.lines)

/-- The cells are as wide as two characters for each entry around, so they tell the depths. -/
theorem shapes_of_cells (h : Tells document es text places) (h' : Tells document' es' text' places')
    (hcells : places'.map Place.cells = places.map Place.cells) : shapes es' = shapes es := by
  have hdepths (ps : List Place) :
      ps.map Place.depth = (ps.map Place.cells).map (·.length / 2) := by
    simp [length_cells]
  rw [h.shapes_eq, h'.shapes_eq, hdepths, hdepths, hcells]

theorem shapes_of_margins (h : Tells document es text places)
    (h' : Tells document' es' text' places')
    (hmargins : places'.map Place.margin = places.map Place.margin) : shapes es' = shapes es := by
  have hdepths (ps : List Place) :
      ps.map Place.depth = (ps.map Place.margin).map (·.length / 2 - 1) := by
    rw [List.map_map]
    refine List.map_congr_left fun p _ => ?_
    rw [Function.comp_apply, length_margin]
    omega
  rw [h.shapes_eq, h'.shapes_eq, hdepths, hdepths, hmargins]

end Tells

/-- A drawing tells all about the shape of a forest when the tags and the names of files and
components are on one line, whatever the texts are. Where the shapes of two forests differ, so do the
cells, and what stands in front of the labels as a whole. -/
theorem drawings_tell_shape {document : Document} {es : List Entry}
    (hdocument : UnbrokenTags document)
    (hes : ∀ e ∈ allEntries es, ∀ c ∈ e.contributors, c.Unbroken) :
    ∃ places, Tells document es (draw document es) places ∧
      ∀ document' es' text' places', Tells document' es' text' places' → shapes es' ≠ shapes es →
        places'.map Place.cells ≠ places.map Place.cells ∧
          places'.map Place.margin ≠ places.map Place.margin := by
  have hlines := splitOn_draw hdocument hes
  have hshape : readDrawing (draw document es) = shapes es := by
    rw [readDrawing_eq hlines, forestOf_depths]
  have htells : Tells document es (draw document es) (placesFrom 0 es) :=
    { ordered := pairwise_path 0 es
      complete := fun _ => mem_placesFrom_zero
      entries := map_entry_placesFrom 0 es
      lines := hlines
      margins := fun p _ => readMargin_margin p _
      shape := hshape }
  exact ⟨placesFrom 0 es, htells, fun _ _ _ _ hother hne =>
    ⟨fun hcells => hne (htells.shapes_of_cells hother hcells),
      fun hmargins => hne (htells.shapes_of_margins hother hmargins)⟩⟩

/-- An element with a text on two lines. -/
def drawnDocument : Document := ⟨#[.new .element "div", .new .text "a\nb"]⟩

/-- The element with its text and with a component that rendered nothing, and behind it an entry of
which nothing is known. -/
def drawnEntries : List Entry :=
  [.mk (some ⟨0⟩) [⟨.tag "div", ⟨"app.jsx", 0, 28, some 1⟩, .undefined⟩]
    [.leaf ⟨1⟩ [], .mk none [⟨.function "App", .unknown, .undefined⟩] []], .placeholder]

/-- The text on two lines is drawn on one. -/
theorem drawings_tell_shape_broken_text :
    UnbrokenTags drawnDocument ∧
      (∀ e ∈ allEntries drawnEntries, ∀ c ∈ e.contributors, c.Unbroken) ∧
      ∃ places, Tells drawnDocument drawnEntries (draw drawnDocument drawnEntries) places ∧
        places.length = 4 ∧
        readDrawing (draw drawnDocument drawnEntries) = [.node [.node [], .node []], .node []] := by
  have hdocument : UnbrokenTags drawnDocument := by decide +kernel
  have hes : ∀ e ∈ allEntries drawnEntries, ∀ c ∈ e.contributors, c.Unbroken := by decide +kernel
  obtain ⟨places, htells, -⟩ := drawings_tell_shape hdocument hes
  have hlength : places.length = (allEntries drawnEntries).length := by
    rw [← htells.entries, List.length_map]
  exact ⟨hdocument, hes, places, htells, hlength, htells.shape⟩

example : draw drawnDocument drawnEntries = "⧉ 2 root(s)
├─ <div> ← <div> app.jsx:1 [0..28]
│ ├─ #text \"a\\nb\"
│ └─ ∅ ← App unknown [-1..-1]
└─ ∅
" := by decide +kernel

end Structure

end MarkupTrace
