import MarkupTrace.Proofs.RereadModules

/-!
# The strings of a printed module

Values, specifiers, keys and texts of attributes are printed in the order in which they stand in the
tree, each where a token begins. A string between quotes is accepted in its position and read as
itself, but for controls that have a code; a key, which has no quotes, is read as itself only if it
is an identifier.
-/

namespace MarkupTrace.Source

open Text Grammar Grammar.Parser

/-! ## Places of tokens -/

theorem comma_not_mem (c : Char) (cs : List Char) : ',' ∉ cs.take (lexeme c cs).2 := by
  intro hx
  have hor := mem_lexeme hx
  revert hor
  decide

/-- Where a character stands that is in no token but its own, a token begins. By induction on the
length of the text before it, token by token. -/
theorem suffix_tokensFrom {x : Char} (hx : ∀ c (cs : List Char), x ∉ cs.take (lexeme c cs).2)
    (ds : List Char) (n : Nat) : ∀ (offset : Nat) (cs : List Char), cs.length = n →
      tokensFrom (offset + byteLength cs) (x :: ds) <:+ tokensFrom offset (cs ++ x :: ds) := by
  induction n using Nat.strongRecOn with
  | ind n ih =>
    rintro offset cs rfl
    cases cs with
    | nil => exact List.suffix_refl _
    | cons c cs =>
      have hle := le_length_of_not_mem (hx c) cs ds
      rw [List.cons_append, tokensFrom_cons offset c, List.drop_append_of_le_length hle,
        List.take_append_of_le_length hle]
      generalize (lexeme c (cs ++ x :: ds)).2 = k at hle ⊢
      have hrest := ih (cs.drop k).length (by rw [List.length_drop, List.length_cons]; omega)
        (offset + byteLength (c :: cs.take k)) _ rfl
      rw [Nat.add_assoc, ← byteLength_append, List.cons_append, List.take_append_drop] at hrest
      exact hrest.trans (List.suffix_cons _ _)

namespace Grammar

theorem Parser.Consumes.agree {α : Type} {p : Parser α} {s r : List Char} {P Q : α → Prop}
    (h : p.Consumes s r P) (h' : p.Consumes s r Q) : ∃ a, P a ∧ Q a := by
  obtain ⟨a, offset, ha, hgives⟩ := h 0
  obtain ⟨b, offset', hb, hgives'⟩ := h' 0
  obtain ⟨rfl, -⟩ := hgives.unique hgives'
  exact ⟨a, ha, hb⟩

/-! ## Lengths of strings -/

/-- How many characters the tokens of the input have. -/
def weight (i : Input) : Nat := (textOf i.tokens).length

theorem weight_chars (offset : Nat) (cs : List Char) : weight (chars offset cs) = cs.length := by
  obtain ⟨b, hb, -, hnil⟩ := tokensFrom_eq_append (List.append_nil (tokensFrom offset cs)).symm
  cases b with
  | cons c b =>
    rw [tokensFrom_cons] at hnil
    cases hnil
  | nil =>
    rw [List.append_nil] at hb
    show (textOf (tokensFrom offset cs)).length = cs.length
    rw [← hb]

theorem weight_le {i r : Input} (h : r.tokens <:+ i.tokens) : weight r ≤ weight i := by
  obtain ⟨ts, hts⟩ := h
  unfold weight
  rw [← hts, textOf_append, List.length_append]
  exact Nat.le_add_left _ _

theorem weight_cons {i r : Input} {t : Token} (h : i.tokens = t :: r.tokens) :
    weight i = t.text.toList.length + weight r := by
  unfold weight
  rw [h, textOf_cons, List.length_append]

/-- A token of a text is not empty. -/
theorem weight_lt {offset : Nat} {cs : List Char} {i r : Input} {t : Token}
    (hi : i.tokens <:+ (chars offset cs).tokens) (h : i.tokens = t :: r.tokens) :
    weight r < weight i := by
  obtain ⟨c, more, -, htext⟩ :=
    Lexed.mem ⟨offset, cs, rfl⟩ (hi.subset (h ▸ List.mem_cons_self))
  rw [weight_cons h, htext, String.toList_ofList, List.length_cons]
  omega

theorem unescape_length (cs : List Char) : (unescape cs).length = cs.length := by
  cases cs <;> rfl

theorem stringPart_weight {q : Kind} {i r : Input} {s : String}
    (h : (stringPart q).Gives i s r) : s.toList.length + weight r ≤ weight i := by
  rcases gives_orElse.mp h with h | ⟨-, h⟩
  · obtain ⟨t, hescaped, rfl⟩ := gives_map.mp h
    obtain ⟨m, b, hb, ht⟩ := gives_before.mp hescaped
    rw [String.toList_ofList, unescape_length, ← weight_cons (gives_satisfy.mp ht).1]
    exact weight_le (Leaves.suffix hb)
  · obtain ⟨t, ht, rfl⟩ := gives_map.mp h
    exact (weight_cons (gives_satisfy.mp ht).1).ge

theorem stringParts_weight {q : Kind} {i r : Input} {parts : List String}
    (h : Repeats (stringPart q) i parts r) :
    (String.join parts).toList.length + weight r ≤ weight i := by
  induction h with
  | stop => exact (Nat.zero_add _).le
  | idle hgives hlt => exact absurd (Advances.left_lt hgives) hlt
  | more hgives _ _ ih =>
    have hpart := stringPart_weight hgives
    rw [String.join_cons, String.toList_append, List.length_append]
    omega

/-- Two quotes more are read than the string has characters. -/
theorem string_weight {offset : Nat} {cs : List Char} {i r : Input} {s : String × Span}
    (hi : i.tokens <:+ (chars offset cs).tokens) (h : Grammar.string.Gives i s r) :
    s.1.toList.length + 2 + weight r ≤ weight i := by
  have hquoted : ∀ q, (quotedBy q).Gives i s r → s.1.toList.length + 2 + weight r ≤ weight i := by
    intro q h
    obtain ⟨⟨⟨opening, parts⟩, closing⟩, hall, rfl⟩ := gives_map.mp h
    obtain ⟨n, hstart, hclosing⟩ := gives_both.mp hall
    obtain ⟨m, hopening, hparts⟩ := gives_both.mp hstart
    have hmany : (stringPart q).many.Gives m parts n := hparts
    have hn := (Leaves.suffix hmany).trans ((Leaves.suffix hopening).trans hi)
    have hfirst := weight_lt hi (gives_satisfy.mp hopening).1
    have hlast := weight_lt hn (gives_satisfy.mp hclosing).1
    have hjoin := stringParts_weight (gives_many.mp hmany)
    show (String.join parts).toList.length + 2 + weight r ≤ weight i
    omega
  rcases gives_orElse.mp h with h | ⟨-, h⟩
  · exact hquoted _ h
  · exact hquoted _ h

/-- A printed key is read as itself if and only if it is an identifier: as a string it would have to
be shorter by its quotes. -/
theorem key_consumes_iff (k : String) (behind : List Char) :
    (key.skip (mark .colon)).Consumes (' ' :: (k.toList ++ ':' :: behind)) behind (· = k) ↔
      IsIdentifier k := by
  constructor
  · intro h
    obtain ⟨_, offset, rfl, hgives⟩ := h 0
    obtain ⟨m, colon, hkey, hcolon⟩ := gives_skip.mp hgives
    rcases gives_orElse.mp hkey with hname | ⟨-, hstring⟩
    · exact anyName_yieldsIn ⟨0, _, rfl⟩ _ _ _ (List.suffix_refl _) hname
    · obtain ⟨⟨_, span⟩, hstring, rfl⟩ := gives_map.mp hstring
      obtain ⟨n, u, hu, hstring⟩ := gives_before.mp hstring
      obtain ⟨p, v, hv, hcolon⟩ := gives_before.mp hcolon
      have hn := Leaves.suffix hu
      have hm := (Leaves.suffix hstring).trans hn
      have hp := (Leaves.suffix hv).trans hm
      have hquotes := string_weight hn hstring
      have hmark := weight_lt hp (gives_satisfy.mp hcolon).1
      have htrivia := weight_le hn
      have htrivia' := weight_le (Leaves.suffix hv)
      rw [weight_chars] at htrivia hmark
      simp only [List.length_cons, List.length_append] at htrivia hquotes
      omega
  · intro hk
    have hword : EndsWord (':' :: behind) := endsWord_colon behind
    have hskips := (solid_identifier hk hword).skips_space
    exact (((anyName_consumes hk hword).padded hskips).orElse_left _).skip
      (mark_consumes (k := .colon) rfl (by decide) behind)

end Grammar

/-! ## Strings in their positions -/

/-- A string of a module, by the position that it stands in. -/
inductive Literal
  | value (s : String)
  | specifier (s : String)
  | key (s : String)
  | raw (s : String)
  deriving DecidableEq

namespace Literal

/-- What is printed for the string. A key is printed bare, between a space and a colon. -/
def form : Literal → String
  | .value s | .specifier s => Text.quote s
  | .key k => " " ++ k ++ ":"
  | .raw s => printRaw s

/-- What can stand before it: a key begins behind a brace or a comma. -/
def Follows : Literal → List Char → Prop
  | .key _, cs => ∃ ds x, cs = ds ++ [x] ∧ (x = '\x7b' ∨ x = ',')
  | _, _ => True

theorem Follows.prepend {l : Literal} {ds : List Char} (h : l.Follows ds) (cs : List Char) :
    l.Follows (cs ++ ds) := by
  cases l with
  | key k =>
    obtain ⟨ds', x, rfl, hx⟩ := h
    exact ⟨cs ++ ds', x, (List.append_assoc ..).symm, hx⟩
  | _ => trivial

/-- The parser of its position accepts what is printed for the string, before `behind`, and gives the
same string. -/
def ReadsBack (behind : List Char) : Literal → Prop
  | .value s => (atom expression).Consumes ((Text.quote s).toList ++ behind) behind (· = .text s)
  | .specifier s => Grammar.string.Consumes ((Text.quote s).toList ++ behind) behind (·.1 = s)
  | .key k =>
    (Grammar.key.skip (mark .colon)).Consumes ((" " ++ k ++ ":").toList ++ behind) behind (· = k)
  | .raw s => rawString.Consumes ((printRaw s).toList ++ behind) behind (· = s)

/-- Strings between quotes are read back if no character has a code, keys if they are identifiers. -/
def IsPrintable : Literal → Prop
  | .value s | .specifier s => Quotable s
  | .key k => IsIdentifier k
  | .raw _ => True

/-- A string is accepted and read, with its codes as letters. -/
theorem value_rereads (s : String) (behind : List Char) : (atom expression).Consumes
    ((Text.quote s).toList ++ behind) behind (· = .text (reread s)) := by
  refine literal_atom (front_string s behind) (by decide) ((solid_string s behind).skips.before
    (.firstOf_here ((string_rereads s behind).map ?_) _))
  rintro ⟨_, span⟩ rfl
  rfl

theorem readsBack_iff {l : Literal} (behind : List Char)
    (hraw : ∀ s, l = .raw s → '"' ∉ s.toList ∨ '\'' ∉ s.toList) :
    l.ReadsBack behind ↔ l.IsPrintable := by
  cases l with
  | value s =>
    refine Iff.trans ⟨fun h => ?_, fun h => ?_⟩ reread_eq_iff
    · obtain ⟨_, rfl, hs⟩ := (value_rereads s behind).agree h
      exact (Expr.text.inj hs)
    · have hread := value_rereads s behind
      rwa [h] at hread
  | specifier s =>
    refine Iff.trans ⟨fun h => ?_, fun h => ?_⟩ reread_eq_iff
    · obtain ⟨_, hread, hs⟩ := (string_rereads s behind).agree h
      exact hread.symm.trans hs
    · have hread := string_rereads s behind
      rwa [h] at hread
  | key k =>
    have htext : (" " ++ k ++ ":").toList ++ behind = ' ' :: (k.toList ++ ':' :: behind) := by
      simp
    refine Iff.trans ?_ (key_consumes_iff k behind)
    rw [ReadsBack, htext]
  | raw s => exact iff_of_true (rawString_consumes (hraw s rfl) behind) trivial

end Literal

/-- The string that the node is or has, if any. -/
def Node.literal? : Node → Option Literal
  | .expr (.text s) => some (.value s)
  | .property (.entry k _) => some (.key k)
  | .attribute (.text _ raw) => some (.raw raw)
  | .statement (.imports decl) => some (.specifier decl.specifier)
  | _ => none

theorem Node.eq_of_literal {x : Node} {raw : String} (h : x.literal? = some (.raw raw)) :
    ∃ name, x = .attribute (.text name raw) := by
  unfold literal? at h
  split at h
  case h_3 name _ =>
    cases h
    exact ⟨name, rfl⟩
  all_goals cases h

/-- The strings of a module, as they stand in it. -/
def Module.literals (m : Module) : List Literal := m.nodes.filterMap Node.literal?

/-! ## Order -/

/-- What is printed for the strings stands in the text, one behind the other. -/
inductive Stand : List Literal → List Char → Prop
  | nil (cs : List Char) : Stand [] cs
  | cons {l : Literal} {ls : List Literal} {before behind : List Char} (h : l.Follows before)
      (hrest : Stand ls behind) : Stand (l :: ls) (before ++ (l.form.toList ++ behind))

namespace Stand

variable {l : Literal} {ls ms : List Literal} {cs ds : List Char}

theorem append (h : Stand ls cs) (h' : Stand ms ds) : Stand (ls ++ ms) (cs ++ ds) := by
  induction h with
  | nil cs =>
    cases h' with
    | nil ds => exact .nil _
    | cons hl hrest =>
      rw [← List.append_assoc]
      exact .cons (hl.prepend cs) hrest
  | cons hl _ ih =>
    rw [List.append_assoc, List.append_assoc]
    exact .cons hl ih

theorem prepend (cs : List Char) (h : Stand ms ds) : Stand ms (cs ++ ds) := (nil cs).append h

theorem extend (h : Stand ls cs) (ds : List Char) : Stand ls (cs ++ ds) := by
  have happend := h.append (nil ds)
  rwa [List.append_nil] at happend

/-- Among strings that stand in a text, each has its place between those before and behind it. -/
theorem split (h : Stand (ls ++ l :: ms) cs) : ∃ before behind,
    cs = before ++ (l.form.toList ++ behind) ∧ l.Follows before ∧ Stand ls before ∧
      Stand ms behind := by
  induction ls generalizing cs with
  | nil =>
    cases h with
    | cons hl hrest => exact ⟨_, _, rfl, hl, .nil _, hrest⟩
  | cons l' ls ih =>
    cases h with
    | @cons _ _ first _ hl hrest =>
      obtain ⟨before, behind, rfl, hfollows, hls, hms⟩ := ih hrest
      refine ⟨first ++ (l'.form.toList ++ before), behind, by simp only [List.append_assoc], ?_,
        .cons hl hls, hms⟩
      rw [← List.append_assoc]
      exact hfollows.prepend _

theorem single (hl : l.Follows []) : Stand [l] l.form.toList := by
  have h := cons hl (nil [])
  rwa [List.nil_append, List.append_nil] at h

theorem parenthesize {text : String} (h : Stand ls text.toList) (wanted : Bool) :
    Stand ls (parenthesize wanted text).toList := by
  cases wanted with
  | false => exact h
  | true =>
    rw [Source.parenthesize, if_pos rfl, String.toList_append, String.toList_append]
    exact (h.prepend _).extend _

section

variable {β : Type} {f : β → List Char} {g : β → List Literal} {xs : List β}

theorem joined (h : ∀ x ∈ xs, Stand (g x) (f x)) : Stand (xs.flatMap g) (joined f xs) := by
  induction xs with
  | nil => exact .nil _
  | cons x xs ih =>
    rw [List.forall_mem_cons] at h
    cases xs with
    | nil =>
      rw [List.flatMap_singleton]
      exact h.1
    | cons y xs => exact h.1.append ((ih h.2).prepend [',', ' '])

/-- Behind a brace, items stand behind the brace or a comma, and a space. -/
theorem joined_behind (h : ∀ x ∈ xs, ∀ c, c = '\x7b' ∨ c = ',' → Stand (g x) (c :: ' ' :: f x))
    {c : Char} (hc : c = '\x7b' ∨ c = ',') :
    Stand (xs.flatMap g) (c :: ' ' :: Grammar.joined f xs) := by
  induction xs generalizing c with
  | nil => exact .nil _
  | cons x xs ih =>
    rw [List.forall_mem_cons] at h
    cases xs with
    | nil =>
      rw [List.flatMap_singleton]
      exact h.1 c hc
    | cons y xs => exact (h.1 c hc).append (ih h.2 (.inr rfl))

end

end Stand

mutual

theorem expr_stands : (e : Expr) → (depth : Nat) →
    Stand (e.nodes.filterMap Node.literal?) (e.printAt depth).toList
  | .text s, depth => by
    rw [Expr.nodes, Expr.printAt]
    exact .single (l := .value s) trivial
  | .number _, _ | .bool _, _ | .null, _ | .this, _ | .name _, _ | .location _, _ | .helper _, _ => by
    rw [Expr.nodes]
    exact .nil _
  | .member object property, depth => by
    rw [Expr.nodes, Expr.printAt, String.toList_append, String.toList_append]
    exact ((expr_stands object depth).extend _).extend _
  | .call callee arguments, depth => by
    rw [Expr.nodes, Expr.printAt]
    simp only [String.toList_append, toList_printItems, nodesOfItems_eq]
    rw [List.filterMap_cons_none rfl, List.filterMap_append, List.filterMap_flatMap]
    exact ((((expr_stands callee depth).parenthesize _).extend _).append
      (.joined (items_stand arguments depth))).extend _
  | .arrow _ b, depth => by
    rw [Expr.nodes, Expr.printAt, String.toList_append, String.toList_append]
    exact (body_stands b depth).prepend _
  | .object [], _ => by
    rw [Expr.nodes, nodesOfProperties]
    exact .nil _
  | .object (p :: ps), depth => by
    rw [Expr.nodes, Expr.printAt]
    simp only [String.toList_append, toList_printProperties, nodesOfProperties_eq]
    rw [List.filterMap_cons_none rfl, List.filterMap_flatMap]
    exact (Stand.joined_behind (properties_stand (p :: ps) depth) (.inl rfl)).extend _
  | .array items, depth => by
    rw [Expr.nodes, Expr.printAt]
    simp only [String.toList_append, toList_printItems, nodesOfItems_eq]
    rw [List.filterMap_cons_none rfl, List.filterMap_flatMap]
    exact ((Stand.joined (items_stand items depth)).prepend _).extend _
  | .paren inner, depth => by
    rw [Expr.nodes, Expr.printAt, String.toList_append, String.toList_append]
    exact ((expr_stands inner depth).prepend _).extend _
  | .markup x, depth => by
    rw [Expr.nodes, Expr.printAt]
    exact element_stands x depth

theorem items_stand : (es : List Expr) → (depth : Nat) → ∀ e ∈ es,
    Stand (e.nodes.filterMap Node.literal?) (e.printAt depth).toList
  | [], _ => nofun
  | e :: es, depth => List.forall_mem_cons.mpr ⟨expr_stands e depth, items_stand es depth⟩

theorem body_stands : (b : Body) → (depth : Nat) →
    Stand (b.nodes.filterMap Node.literal?) (b.printAt depth).toList
  | .result value, depth => by
    rw [Body.nodes, Body.printAt]
    exact (expr_stands value depth).parenthesize _
  | .block statements, depth => by
    rw [Body.nodes, Body.printAt]
    simp only [String.toList_append]
    exact (((statements_stand statements (depth + 1)).prepend _).extend _).extend _

theorem properties_stand : (ps : List Property) → (depth : Nat) → ∀ p ∈ ps, ∀ c,
    c = '\x7b' ∨ c = ',' →
      Stand (p.nodes.filterMap Node.literal?) (c :: ' ' :: (p.printAt depth).toList)
  | [], _ => nofun
  | p :: ps, depth => List.forall_mem_cons.mpr ⟨property_stands p depth, properties_stand ps depth⟩

theorem property_stands : (p : Property) → (depth : Nat) → ∀ c, c = '\x7b' ∨ c = ',' →
    Stand (p.nodes.filterMap Node.literal?) (c :: ' ' :: (p.printAt depth).toList)
  | .entry key value, depth, c, hc => by
    have hkey : (Literal.key key).Follows [c] := ⟨[], c, rfl, hc⟩
    have hstand := Stand.cons hkey ((expr_stands value depth).prepend [' '])
    have htext : c :: ' ' :: (key ++ ": " ++ value.printAt depth).toList =
        [c] ++ ((Literal.key key).form.toList ++ ([' '] ++ (value.printAt depth).toList)) := by
      simp [Literal.form]
    rw [Property.nodes, Property.printAt, htext]
    exact hstand
  | .shorthand _, _, _, _ => by
    rw [Property.nodes]
    exact .nil _
  | .spread value, depth, c, _ => by
    rw [Property.nodes, Property.printAt, String.toList_append]
    exact ((expr_stands value depth).prepend "...".toList).prepend [c, ' ']

theorem element_stands : (x : Element) → (depth : Nat) →
    Stand (x.nodes.filterMap Node.literal?) (x.printAt depth).toList
  | .mk name attributes content span, depth => by
    rw [Element.nodes, Element.printAt]
    simp only [String.toList_append]
    rw [List.filterMap_cons_none rfl, List.filterMap_append]
    exact ((attributes_stand attributes depth).prepend _).append (content_stands content depth name)

theorem attributes_stand : (as : List Attribute) → (depth : Nat) →
    Stand ((nodesOfAttributes as).filterMap Node.literal?) (printAttributes depth as).toList
  | [], _ => .nil _
  | a :: as, depth => by
    rw [nodesOfAttributes, printAttributes]
    simp only [String.toList_append]
    rw [List.filterMap_append]
    exact ((attribute_stands a depth).prepend _).append (attributes_stand as depth)

theorem attribute_stands : (a : Attribute) → (depth : Nat) →
    Stand (a.nodes.filterMap Node.literal?) (a.printAt depth).toList
  | .bare _, _ => by
    rw [Attribute.nodes]
    exact .nil _
  | .text name raw, _ => by
    rw [Attribute.nodes, Attribute.printAt, String.toList_append]
    exact (Stand.single (l := .raw raw) trivial).prepend _
  | .value name value, depth => by
    rw [Attribute.nodes, Attribute.printAt]
    simp only [String.toList_append]
    exact ((expr_stands value depth).prepend _).extend _
  | .spread value, depth => by
    rw [Attribute.nodes, Attribute.printAt]
    simp only [String.toList_append]
    exact ((expr_stands value depth).prepend _).extend _

theorem content_stands : (c : Content) → (depth : Nat) → (name : String) →
    Stand (c.nodes.filterMap Node.literal?) (c.printAt depth name).toList
  | .selfClosing, _, _ => by
    rw [Content.nodes]
    exact .nil _
  | .children children, depth, name => by
    rw [Content.nodes, Content.printAt]
    simp only [String.toList_append]
    exact ((((children_stand children depth).prepend _).extend _).extend _).extend _

theorem children_stand : (cs : List Child) → (depth : Nat) →
    Stand ((nodesOfChildren cs).filterMap Node.literal?) (printChildren depth cs).toList
  | [], _ => .nil _
  | c :: cs, depth => by
    rw [nodesOfChildren, printChildren, String.toList_append, List.filterMap_append]
    exact (child_stands c depth).append (children_stand cs depth)

theorem child_stands : (c : Child) → (depth : Nat) →
    Stand (c.nodes.filterMap Node.literal?) (c.printAt depth).toList
  | .text _, _ | .emptyContainer _, _ => by
    rw [Child.nodes]
    exact .nil _
  | .container value _, depth => by
    rw [Child.nodes, Child.printAt, String.toList_append, String.toList_append]
    exact ((expr_stands value depth).prepend _).extend _
  | .element x, depth => by
    rw [Child.nodes, Child.printAt]
    exact element_stands x depth

theorem statement_stands : (s : Statement) → (depth : Nat) →
    Stand (s.nodes.filterMap Node.literal?) (s.printAt depth).toList
  | .imports decl, depth => by
    rw [Statement.nodes, Statement.printAt, Import.print]
    simp only [String.toList_append]
    exact ((((Stand.single (l := .specifier decl.specifier) trivial).prepend _).prepend _)).extend _
  | .const _ _ value, depth => by
    rw [Statement.nodes, Statement.printAt]
    simp only [String.toList_append]
    exact ((expr_stands value depth).prepend _).extend _
  | .returns value, depth => by
    rw [Statement.nodes, Statement.printAt]
    simp only [String.toList_append]
    exact ((expr_stands value depth).prepend _).extend _
  | .returnsNothing, _ => by
    rw [Statement.nodes]
    exact .nil _
  | .expr value, depth => by
    rw [Statement.nodes, Statement.printAt]
    simp only [String.toList_append]
    exact ((expr_stands value depth).prepend _).extend _

theorem statements_stand : (ss : List Statement) → (depth : Nat) →
    Stand ((nodesOfStatements ss).filterMap Node.literal?) (printStatements depth ss).toList
  | [], _ => .nil _
  | s :: ss, depth => by
    rw [nodesOfStatements, printStatements, String.toList_append, List.filterMap_append]
    exact (statement_stands s depth).append (statements_stand ss depth)

end

/-! ## Printed modules -/

/-- A token begins where a string is printed: at its quote, or behind the brace or comma that stands
before a key. -/
theorem Literal.suffix_tokens {l : Literal} {cs : List Char} (h : l.Follows cs) (ds : List Char) :
    tokensFrom (byteLength cs) (l.form.toList ++ ds) <:+
      tokensFrom 0 (cs ++ (l.form.toList ++ ds)) := by
  have hquote : ∀ {x : Char} {more : List Char}, StandsAlone x → l.form.toList = x :: more →
      tokensFrom (byteLength cs) (l.form.toList ++ ds) <:+
        tokensFrom 0 (cs ++ (l.form.toList ++ ds)) := by
    intro x more hx hform
    have hsuffix := suffix_tokensFrom (fun c cs => hx.not_mem (c := c) cs) (more ++ ds) _ 0 cs rfl
    rwa [Nat.zero_add, ← List.cons_append, ← hform] at hsuffix
  cases l with
  | value s | specifier s => exact hquote (x := '"') (by decide) String.toList_ofList
  | raw s =>
    have hform : ∃ x more, StandsAlone x ∧ (printRaw s).toList = x :: more := by
      unfold printRaw
      dsimp only
      rw [String.toList_append, String.toList_append, List.append_assoc]
      split
      · exact ⟨'\'', _, by decide, rfl⟩
      · exact ⟨'"', _, by decide, rfl⟩
    obtain ⟨x, more, hx, hform⟩ := hform
    exact hquote hx hform
  | key k =>
    obtain ⟨before, x, rfl, hx⟩ := h
    generalize (Literal.key k).form.toList ++ ds = rest
    have hmark : lexeme x rest = ((lexeme x rest).1, 0) ∧
        ∀ c (cs : List Char), x ∉ cs.take (lexeme c cs).2 := by
      rcases hx with rfl | rfl
      · exact ⟨rfl, fun c cs => StandsAlone.not_mem (by decide) cs⟩
      · exact ⟨rfl, comma_not_mem⟩
    have hsuffix := suffix_tokensFrom hmark.2 rest _ 0 before rfl
    rw [tokensFrom_cons _ x, hmark.1, Nat.zero_add, List.drop_zero, List.take_zero,
      ← byteLength_append] at hsuffix
    rw [List.append_assoc]
    exact (List.suffix_cons _ _).trans hsuffix

/-- Every string of a module that was read is printed in its place, behind those that stand before it
and before those that stand behind it. A token begins there, and the parser of its position reads the
same string from there if and only if no character has a code, or the key is an identifier. -/
theorem Module.strings_read_back {source : String} {m : Module} (h : Module.parse source = .ok m)
    {ls ms : List Literal} {l : Literal} (hl : m.literals = ls ++ l :: ms) : ∃ before behind,
      m.print.toList = before ++ (l.form.toList ++ behind) ∧ Stand ls before ∧ Stand ms behind ∧
        tokensFrom (byteLength before) (l.form.toList ++ behind) <:+ tokenize m.print ∧
        (l.ReadsBack behind ↔ l.IsPrintable) := by
  have hstand : Stand m.literals m.print.toList := statements_stand m.body 0
  rw [hl] at hstand
  obtain ⟨before, behind, hprint, hfollows, hls, hms⟩ := hstand.split
  refine ⟨before, behind, hprint, hls, hms, ?_, Literal.readsBack_iff behind ?_⟩
  · rw [tokenize, hprint]
    exact Literal.suffix_tokens hfollows behind
  · rintro raw rfl
    have hmem : Literal.raw raw ∈ m.literals := hl ▸ List.mem_append_right _ List.mem_cons_self
    obtain ⟨x, hx, hraw⟩ := List.mem_filterMap.mp hmem
    obtain ⟨name, rfl⟩ := Node.eq_of_literal hraw
    exact ((Module.readable_of_parse h).nodes _ hx).2

/-- All sorts of strings, among them a key that is not an identifier and a string with a code. -/
def quotedModule : String :=
  "import a from './x';\n" ++
  "export const b = <p q='\"'>\x7b [\x7b c: \"\\n\", 'd-e': \"\x01\" \x7d] \x7d</p>;\n"

theorem strings_read_back_quotedModule : ∃ m before behind, Module.parse quotedModule = .ok m ∧
    m.literals = [.specifier "./x", .raw "\"", .key "c"] ++
      .value "\n" :: [.key "d-e", .value "\x01"] ∧
    m.print.toList = before ++ ((Literal.value "\n").form.toList ++ behind) ∧
    Stand [.specifier "./x", .raw "\"", .key "c"] before ∧
    Stand [.key "d-e", .value "\x01"] behind ∧
    tokensFrom (byteLength before) ((Literal.value "\n").form.toList ++ behind) <:+
      tokenize m.print ∧
    ((Literal.value "\n").ReadsBack behind ↔ (Literal.value "\n").IsPrintable) := by
  have hquoted : (match Module.parse quotedModule with
      | .ok m => decide (m.literals = [.specifier "./x", .raw "\"", .key "c"] ++
          .value "\n" :: [.key "d-e", .value "\x01"])
      | .error _ => false) = true := by decide +kernel
  cases h : Module.parse quotedModule with
  | error e =>
    rw [h] at hquoted
    cases hquoted
  | ok m =>
    rw [h] at hquoted
    have hliterals := of_decide_eq_true hquoted
    obtain ⟨before, behind, hread⟩ := Module.strings_read_back h hliterals
    exact ⟨m, before, behind, rfl, hliterals, hread⟩

end MarkupTrace.Source
