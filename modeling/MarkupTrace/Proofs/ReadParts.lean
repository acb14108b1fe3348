import MarkupTrace.Proofs.Unfolding
import MarkupTrace.Annotate.Report
import Mathlib.Tactic.SplitIfs

/-!
# Where the elements of a module were read

The elements of a module, at any depth, and its location literals are collected. Each element of a
module that was read comes from a place in the text where the rule for elements gives it, and a module
that was read has no location literals.
-/

namespace MarkupTrace.Source

/-- An element or a location literal. -/
inductive Part
  | element (e : Element)
  | location (l : LocationLiteral)

mutual

def Expr.parts : Expr → List Part
  | .text _ | .number _ | .bool _ | .null | .this | .name _ | .helper _ => []
  | .member object _ => object.parts
  | .call callee arguments => callee.parts ++ partsOfItems arguments
  | .arrow _ body => body.parts
  | .object properties => partsOfProperties properties
  | .array items => partsOfItems items
  | .paren inner => inner.parts
  | .markup e => e.parts
  | .location l => [.location l]

def partsOfItems : List Expr → List Part
  | [] => []
  | e :: es => e.parts ++ partsOfItems es

def Body.parts : Body → List Part
  | .result value => value.parts
  | .block statements => partsOfStatements statements

def Property.parts : Property → List Part
  | .entry _ value => value.parts
  | .shorthand _ => []
  | .spread value => value.parts

def partsOfProperties : List Property → List Part
  | [] => []
  | p :: ps => p.parts ++ partsOfProperties ps

def Element.parts : Element → List Part
  | .mk name attributes content span =>
    .element (.mk name attributes content span) :: (partsOfAttributes attributes ++ content.parts)

def Attribute.parts : Attribute → List Part
  | .bare _ | .text _ _ => []
  | .value _ value => value.parts
  | .spread value => value.parts

def partsOfAttributes : List Attribute → List Part
  | [] => []
  | a :: as => a.parts ++ partsOfAttributes as

def Content.parts : Content → List Part
  | .selfClosing => []
  | .children children => partsOfChildren children

def Child.parts : Child → List Part
  | .text _ | .emptyContainer _ => []
  | .container value _ => value.parts
  | .element e => e.parts

def partsOfChildren : List Child → List Part
  | [] => []
  | c :: cs => c.parts ++ partsOfChildren cs

def Statement.parts : Statement → List Part
  | .imports _ | .returnsNothing => []
  | .const _ _ value => value.parts
  | .returns value => value.parts
  | .expr value => value.parts

def partsOfStatements : List Statement → List Part
  | [] => []
  | s :: ss => s.parts ++ partsOfStatements ss

end

def Module.parts (m : Module) : List Part := partsOfStatements m.body

theorem partsOfItems_eq (es : List Expr) : partsOfItems es = es.flatMap Expr.parts := by
  induction es with
  | nil => rw [partsOfItems, List.flatMap_nil]
  | cons e es ih => rw [partsOfItems, List.flatMap_cons, ih]

theorem partsOfProperties_eq (ps : List Property) :
    partsOfProperties ps = ps.flatMap Property.parts := by
  induction ps with
  | nil => rw [partsOfProperties, List.flatMap_nil]
  | cons p ps ih => rw [partsOfProperties, List.flatMap_cons, ih]

theorem partsOfAttributes_eq (as : List Attribute) :
    partsOfAttributes as = as.flatMap Attribute.parts := by
  induction as with
  | nil => rw [partsOfAttributes, List.flatMap_nil]
  | cons a as ih => rw [partsOfAttributes, List.flatMap_cons, ih]

theorem partsOfAttributes_append (as bs : List Attribute) :
    partsOfAttributes (as ++ bs) = partsOfAttributes as ++ partsOfAttributes bs := by
  rw [partsOfAttributes_eq, partsOfAttributes_eq, partsOfAttributes_eq, List.flatMap_append]

theorem partsOfChildren_eq (cs : List Child) : partsOfChildren cs = cs.flatMap Child.parts := by
  induction cs with
  | nil => rw [partsOfChildren, List.flatMap_nil]
  | cons c cs ih => rw [partsOfChildren, List.flatMap_cons, ih]

theorem partsOfStatements_eq (ss : List Statement) :
    partsOfStatements ss = ss.flatMap Statement.parts := by
  induction ss with
  | nil => rw [partsOfStatements, List.flatMap_nil]
  | cons s ss ih => rw [partsOfStatements, List.flatMap_cons, ih]

namespace Grammar

open Grammar.Parser

/-! ## Properties of what is read from a text -/

/-- Every value that the parser reads from an end of the first tokens, leaving the others at least,
has the property. -/
def Parser.YieldsBetween {α : Type} (ts us : List Token) (p : Parser α) (P : α → Prop) : Prop :=
  ∀ i a r, i.tokens <:+ ts → us <:+ r.tokens → p.Gives i a r → P a

/-- Every value that the parser reads from an end of the tokens has the property. -/
def Parser.YieldsIn {α : Type} (ts : List Token) (p : Parser α) (P : α → Prop) : Prop :=
  ∀ i a r, i.tokens <:+ ts → p.Gives i a r → P a

theorem Parser.yieldsIn_iff {α : Type} {ts : List Token} {p : Parser α} {P : α → Prop} :
    p.YieldsIn ts P ↔ p.YieldsBetween ts [] P :=
  ⟨fun h i a r hi _ => h i a r hi, fun h i a r hi => h i a r hi (List.nil_suffix)⟩

namespace Parser.YieldsBetween

variable {α β : Type} {ts us : List Token} {P : α → Prop} {Q : β → Prop} {p p' : Parser α}
  {q : Parser β}

theorem any (ts us : List Token) (p : Parser α) : YieldsBetween ts us p fun _ => True :=
  fun _ _ _ _ _ _ => trivial

theorem map (hp : YieldsBetween ts us p P) {f : α → β} (hf : ∀ a, P a → Q (f a)) :
    YieldsBetween ts us (p.map f) Q := by
  intro i b r hi hr h
  obtain ⟨a, ha, rfl⟩ := gives_map.mp h
  exact hf a (hp _ _ _ hi hr ha)

theorem both [Leaves p] [Leaves q] (hp : YieldsBetween ts us p P) (hq : YieldsBetween ts us q Q) :
    YieldsBetween ts us (p.both q) fun c => P c.1 ∧ Q c.2 := by
  intro i c r hi hr h
  obtain ⟨m, ha, hb⟩ := gives_both.mp h
  exact ⟨hp _ _ _ hi (hr.trans (Leaves.suffix hb)) ha, hq _ _ _ ((Leaves.suffix ha).trans hi) hr hb⟩

theorem skip [Leaves p] (hp : YieldsBetween ts us p P) (q : Parser β) [Leaves q] :
    YieldsBetween ts us (p.skip q) P :=
  (hp.both (any ts us q)).map fun _ h => h.1

theorem before (p : Parser α) [Leaves p] [Leaves q] (hq : YieldsBetween ts us q Q) :
    YieldsBetween ts us (p.before q) Q :=
  ((any ts us p).both hq).map fun _ h => h.2

theorem orElse (hp : YieldsBetween ts us p P) (hp' : YieldsBetween ts us p' P) :
    YieldsBetween ts us (p.orElse p') P := by
  intro i a r hi hr h
  rcases gives_orElse.mp h with h | ⟨-, h⟩
  · exact hp _ _ _ hi hr h
  · exact hp' _ _ _ hi hr h

theorem firstOf {ps : List (Parser α)} (h : ∀ p ∈ ps, YieldsBetween ts us p P) :
    YieldsBetween ts us (firstOf ps) P := by
  induction ps with
  | nil => exact fun _ _ _ _ _ h => absurd h not_gives_firstOf_nil
  | cons p ps ih =>
    intro i a r hi hr ha
    rcases gives_firstOf_cons.mp ha with ha | ⟨-, ha⟩
    · exact h p List.mem_cons_self _ _ _ hi hr ha
    · exact ih (fun p hp => h p (List.mem_cons_of_mem _ hp)) _ _ _ hi hr ha

theorem optional (hp : YieldsBetween ts us p P) :
    YieldsBetween ts us p.optional fun o => ∀ a ∈ o, P a := by
  intro i o r hi hr h
  rcases gives_optional.mp h with ⟨a, rfl, ha⟩ | ⟨rfl, -, -⟩
  · intro b hb
    cases Option.mem_some.mp hb
    exact hp _ _ _ hi hr ha
  · exact nofun

theorem many [Leaves p] (hp : YieldsBetween ts us p P) :
    YieldsBetween ts us p.many fun as => ∀ a ∈ as, P a := by
  intro i as r hi hr h
  have hrepeats := gives_many.mp h
  clear h
  induction hrepeats with
  | stop h => exact nofun
  | more h hlt hrest ih =>
    exact List.forall_mem_cons.mpr ⟨hp _ _ _ hi (hr.trans hrest.suffix) h,
      ih ((Leaves.suffix h).trans hi) hr⟩
  | idle h hlt => exact List.forall_mem_singleton.mpr (hp _ _ _ hi hr h)

theorem separated [Leaves p] [Leaves q] (hp : YieldsBetween ts us p P) :
    YieldsBetween ts us (p.separated q) fun as => ∀ a ∈ as, P a := by
  intro i as r hi hr h
  rcases gives_separated.mp h with ⟨rfl, -, -⟩ | ⟨a, m, as', n, rfl, ha, hrest, hend⟩
  · exact nofun
  have hn : us <:+ n.tokens := by
    rcases hend with ⟨b, hb⟩ | ⟨-, rfl⟩
    · exact hr.trans (Leaves.suffix hb)
    · exact hr
  refine List.forall_mem_cons.mpr ⟨hp _ _ _ hi (hn.trans hrest.suffix) ha, ?_⟩
  have hm := (Leaves.suffix ha).trans hi
  clear h ha hi hend hr
  induction hrest with
  | stop h => exact nofun
  | back h hitem => exact nofun
  | more h hitem hlt hrest ih =>
    have hbehind := (Leaves.suffix h).trans hm
    exact List.forall_mem_cons.mpr ⟨hp _ _ _ hbehind (hn.trans hrest.suffix) hitem,
      ih hn ((Leaves.suffix hitem).trans hbehind)⟩
  | idle h hitem hlt =>
    exact List.forall_mem_singleton.mpr (hp _ _ _ ((Leaves.suffix h).trans hm) hn hitem)

theorem refine (hp : YieldsBetween ts us p P) {f : α → Option β} (hf : ∀ a, P a → ∀ b ∈ f a, Q b) :
    YieldsBetween ts us (p.refine f) Q := by
  intro i b r hi hr h
  obtain ⟨a, ha, hb⟩ := gives_refine.mp h
  exact hf a (hp _ _ _ hi hr ha) b hb

theorem charged (hp : YieldsBetween ts us p P) (name : String) :
    YieldsBetween ts us (p.charged name) P :=
  fun _ _ _ hi hr h => hp _ _ _ hi hr (gives_charged.mp h)

theorem listed [Leaves p] (hp : YieldsBetween ts us p P) (opening closing : Kind) :
    YieldsBetween ts us (listed opening closing p) fun as => ∀ a ∈ as, P a :=
  (before _ hp.separated).skip _

end Parser.YieldsBetween

namespace Parser.YieldsIn

variable {α β : Type} {ts : List Token} {P : α → Prop} {Q : β → Prop} {p p' : Parser α}
  {q : Parser β}

theorem any (ts : List Token) (p : Parser α) : YieldsIn ts p fun _ => True :=
  fun _ _ _ _ _ => trivial

theorem map (hp : YieldsIn ts p P) {f : α → β} (hf : ∀ a, P a → Q (f a)) :
    YieldsIn ts (p.map f) Q :=
  yieldsIn_iff.mpr ((yieldsIn_iff.mp hp).map hf)

theorem both [Leaves p] [Leaves q] (hp : YieldsIn ts p P) (hq : YieldsIn ts q Q) :
    YieldsIn ts (p.both q) fun c => P c.1 ∧ Q c.2 :=
  yieldsIn_iff.mpr ((yieldsIn_iff.mp hp).both (yieldsIn_iff.mp hq))

theorem skip [Leaves p] (hp : YieldsIn ts p P) (q : Parser β) [Leaves q] :
    YieldsIn ts (p.skip q) P :=
  yieldsIn_iff.mpr ((yieldsIn_iff.mp hp).skip q)

theorem before (p : Parser α) [Leaves p] [Leaves q] (hq : YieldsIn ts q Q) :
    YieldsIn ts (p.before q) Q :=
  yieldsIn_iff.mpr ((yieldsIn_iff.mp hq).before p)

theorem orElse (hp : YieldsIn ts p P) (hp' : YieldsIn ts p' P) : YieldsIn ts (p.orElse p') P :=
  yieldsIn_iff.mpr ((yieldsIn_iff.mp hp).orElse (yieldsIn_iff.mp hp'))

theorem firstOf {ps : List (Parser α)} (h : ∀ p ∈ ps, YieldsIn ts p P) :
    YieldsIn ts (firstOf ps) P :=
  yieldsIn_iff.mpr (.firstOf fun p hp => yieldsIn_iff.mp (h p hp))

theorem optional (hp : YieldsIn ts p P) : YieldsIn ts p.optional fun o => ∀ a ∈ o, P a :=
  yieldsIn_iff.mpr (yieldsIn_iff.mp hp).optional

theorem many [Leaves p] (hp : YieldsIn ts p P) : YieldsIn ts p.many fun as => ∀ a ∈ as, P a :=
  yieldsIn_iff.mpr (yieldsIn_iff.mp hp).many

theorem separated [Leaves p] [Leaves q] (hp : YieldsIn ts p P) :
    YieldsIn ts (p.separated q) fun as => ∀ a ∈ as, P a :=
  yieldsIn_iff.mpr (yieldsIn_iff.mp hp).separated

theorem refine (hp : YieldsIn ts p P) {f : α → Option β} (hf : ∀ a, P a → ∀ b ∈ f a, Q b) :
    YieldsIn ts (p.refine f) Q :=
  yieldsIn_iff.mpr ((yieldsIn_iff.mp hp).refine hf)

theorem charged (hp : YieldsIn ts p P) (name : String) : YieldsIn ts (p.charged name) P :=
  yieldsIn_iff.mpr ((yieldsIn_iff.mp hp).charged name)

theorem listed [Leaves p] (hp : YieldsIn ts p P) (opening closing : Kind) :
    YieldsIn ts (listed opening closing p) fun as => ∀ a ∈ as, P a :=
  yieldsIn_iff.mpr ((yieldsIn_iff.mp hp).listed opening closing)

end Parser.YieldsIn

/-! ## Elements -/

/-- An element was read from an end of the tokens `ts`, leaving the tokens `us` at least; a location
literal never is. -/
def ReadBetween (ts us : List Token) : Part → Prop
  | .element e => ∃ i r, i.tokens <:+ ts ∧ us <:+ r.tokens ∧ (element expression).Gives i e r
  | .location _ => False

theorem ReadBetween.mono {ts us ts' us' : List Token} {x : Part} (h : ReadBetween ts us x)
    (hts : ts <:+ ts') (hus : us' <:+ us) : ReadBetween ts' us' x := by
  cases x with
  | element e =>
    obtain ⟨i, r, hi, hr, he⟩ := h
    exact ⟨i, r, hi.trans hts, hus.trans hr, he⟩
  | location l => exact h

/-- All parts were read from these tokens, the last ones aside. -/
def AllBetween (ts us : List Token) (xs : List Part) : Prop := ∀ x ∈ xs, ReadBetween ts us x

namespace AllBetween

variable {ts us : List Token} {xs ys : List Part}

theorem nil (ts us : List Token) : AllBetween ts us [] := nofun

theorem append (hx : AllBetween ts us xs) (hy : AllBetween ts us ys) :
    AllBetween ts us (xs ++ ys) := by
  intro x h
  rcases List.mem_append.mp h with h | h
  · exact hx x h
  · exact hy x h

theorem flatMap {α : Type} {f : α → List Part} {l : List α} (h : ∀ a ∈ l, AllBetween ts us (f a)) :
    AllBetween ts us (l.flatMap f) := by
  intro x hx
  obtain ⟨a, ha, hx⟩ := List.mem_flatMap.mp hx
  exact h a ha x hx

theorem mono {ts' us' : List Token} (h : AllBetween ts us xs) (hts : ts <:+ ts')
    (hus : us' <:+ us) : AllBetween ts' us' xs :=
  fun x hx => (h x hx).mono hts hus

end AllBetween

/-- An element was read somewhere in the tokens; a location literal never is. -/
def ReadIn (ts : List Token) : Part → Prop
  | .element e => ∃ i r, i.tokens <:+ ts ∧ (element expression).Gives i e r
  | .location _ => False

/-- All parts were read somewhere in the tokens. -/
def AllRead (ts : List Token) (xs : List Part) : Prop := ∀ x ∈ xs, ReadIn ts x

theorem AllBetween.allRead {ts us : List Token} {xs : List Part} (h : AllBetween ts us xs) :
    AllRead ts xs := by
  intro x hx
  have hread := h x hx
  cases x with
  | element e =>
    obtain ⟨i, r, hi, -, he⟩ := hread
    exact ⟨i, r, hi, he⟩
  | location l => exact hread

section

variable {ts us : List Token} {expr : Parser Expr} [Leaves expr]
  (he : expr.YieldsBetween ts us fun e => AllBetween ts us e.parts)
include he

theorem attributeValue_yieldsBetween :
    (attributeValue expr).YieldsBetween ts us fun f => ∀ name, AllBetween ts us (f name).parts := by
  refine .orElse (.map (.any ts us _) ?_) (.map ((YieldsBetween.before _ he).skip _) ?_)
  · intro raw _ name
    simpa only [Attribute.parts] using AllBetween.nil ts us
  · intro e h name
    simpa only [Attribute.parts] using h

theorem tagAttribute_yieldsBetween :
    (tagAttribute expr).YieldsBetween ts us fun a => AllBetween ts us a.parts := by
  refine .orElse (.map ((YieldsBetween.before _ he).skip _) ?_)
    (.map (.both (.any ts us _) (.optional (.before _ (attributeValue_yieldsBetween he)))) ?_)
  · intro e h
    simpa only [Attribute.parts] using h
  · rintro ⟨name, value⟩ ⟨-, h⟩
    cases value with
    | none => simpa only [Attribute.parts] using AllBetween.nil ts us
    | some f => exact h f rfl name

theorem container_yieldsBetween :
    (container expr).YieldsBetween ts us fun c => AllBetween ts us c.parts := by
  refine .map (((YieldsBetween.any ts us _).both he.optional).both (.any ts us _)) ?_
  rintro ⟨⟨opening, value⟩, closing⟩ ⟨⟨-, h⟩, -⟩
  cases value with
  | none => simpa only [Child.parts] using AllBetween.nil ts us
  | some e => simpa only [Child.parts] using h e rfl

theorem child_yieldsBetween {element : Parser Element} [Leaves element]
    (hel : element.YieldsBetween ts us fun e => AllBetween ts us e.parts) :
    (child expr element).YieldsBetween ts us fun c => AllBetween ts us c.parts := by
  refine ((container_yieldsBetween he).orElse (hel.map ?_)).orElse (.map (.any ts us _) ?_)
  · intro e h
    simpa only [Child.parts] using h
  · intro ts' _
    simpa only [Child.parts] using AllBetween.nil ts us

/-- The children that stand behind the attributes. -/
def Tail.given : Tail → Content
  | .selfClosing _ => .selfClosing
  | .children cs _ _ => .children cs

theorem tail_yieldsBetween {element : Parser Element} [Leaves element]
    (hel : element.YieldsBetween ts us fun e => AllBetween ts us e.parts) :
    (tail expr element).YieldsBetween ts us fun t => AllBetween ts us t.given.parts := by
  refine .orElse (.map (.any ts us _) ?_)
    (.map ((YieldsBetween.before _ (child_yieldsBetween he hel).many).both (.any ts us _)) ?_)
  · intro last _
    simpa only [Tail.given, Content.parts] using AllBetween.nil ts us
  · rintro ⟨cs, closing, last⟩ ⟨h, -⟩
    simpa only [Tail.given, Content.parts, partsOfChildren_eq] using AllBetween.flatMap h

/-- What is inside an element. -/
theorem elementBody_yieldsBetween {element : Parser Element} [Leaves element]
    (hel : element.YieldsBetween ts us fun e => AllBetween ts us e.parts) :
    (elementBody expr element).YieldsBetween ts us fun e =>
      AllBetween ts us (partsOfAttributes e.attributes ++ e.content.parts) := by
  refine .charged (.refine
    (((YieldsBetween.any ts us _).both (tagAttribute_yieldsBetween he).many).both
      (tail_yieldsBetween he hel)) ?_) _
  rintro ⟨⟨⟨first, name⟩, attributes⟩, t⟩ ⟨⟨-, has⟩, ht⟩ e h
  have hattributes : AllBetween ts us (partsOfAttributes attributes) := by
    rw [partsOfAttributes_eq]
    exact .flatMap has
  cases t with
  | selfClosing last =>
    cases Option.mem_some.mp h
    exact hattributes.append ht
  | children cs closing last =>
    simp only [assemble] at h
    split_ifs at h with hclosing
    · cases Option.mem_some.mp h
      exact hattributes.append ht
    · cases h

/-- An element is read where it stands, and so are all inside it. -/
theorem element_yieldsBetween
    (hagree : ∀ i, i.tokens <:+ ts → element expr i = element expression i) :
    (element expr).YieldsBetween ts us fun e => AllBetween ts us e.parts := by
  suffices ∀ n (i : Input), i.left = n → ∀ e r, i.tokens <:+ ts → us <:+ r.tokens →
      (element expr).Gives i e r → AllBetween ts us e.parts from fun i e r => this _ i rfl e r
  intro n
  induction n using Nat.strongRecOn with
  | ind n ih =>
    rintro i rfl e r hi hr h
    have hinner : (below i.left (element expr)).YieldsBetween ts us fun e =>
        AllBetween ts us e.parts := by
      intro j e' r' hj hr' h'
      obtain ⟨hlt, h'⟩ := gives_below.mp h'
      exact ih j.left hlt j rfl e' r' hj hr' h'
    have hleaves : Leaves (element expr) := inferInstance
    have := hleaves.below i.left
    have hbody : (elementBody expr (below i.left (element expr))).Gives i e r := by
      obtain ⟨alt, h⟩ := h
      exact ⟨alt, (recursive_apply (elementBody expr) i).symm.trans h⟩
    have hread : ReadBetween ts us (.element e) := by
      obtain ⟨alt, h⟩ := h
      exact ⟨i, r, hi, hr, alt, (hagree i hi).symm.trans h⟩
    have hinside := elementBody_yieldsBetween he hinner i e r hi hr hbody
    obtain ⟨name, attributes, content, span⟩ := e
    intro x hx
    rw [Element.parts] at hx
    rcases List.mem_cons.mp hx with rfl | hx
    · exact hread
    · exact hinside x hx

/-! ## Expressions and modules -/

theorem declaration_yieldsBetween :
    (declaration expr).YieldsBetween ts us fun s => AllBetween ts us s.parts := by
  refine .charged (.map ((((YieldsBetween.any ts us _).both he).skip _)) ?_) _
  rintro ⟨⟨exported, name⟩, value⟩ ⟨-, h⟩
  simpa only [Statement.parts] using h

theorem expressionStatement_yieldsBetween :
    (expressionStatement expr).YieldsBetween ts us fun s => AllBetween ts us s.parts := by
  refine (he.skip _).map ?_
  intro e h
  simpa only [Statement.parts] using h

theorem returnStatement_yieldsBetween :
    (returnStatement expr).YieldsBetween ts us fun s => AllBetween ts us s.parts := by
  refine .map ((YieldsBetween.before _ he.optional).skip _) ?_
  intro value h
  cases value with
  | none => simpa only [Statement.parts] using AllBetween.nil ts us
  | some e => simpa only [Statement.parts] using h e rfl

theorem body_yieldsBetween : (body expr).YieldsBetween ts us fun b => AllBetween ts us b.parts := by
  have hs : (blockStatement expr).YieldsBetween ts us fun s => AllBetween ts us s.parts :=
    ((declaration_yieldsBetween he).orElse (returnStatement_yieldsBetween he)).orElse
      (expressionStatement_yieldsBetween he)
  refine .orElse (.map ((YieldsBetween.before _ hs.many).skip _) ?_) (he.map ?_)
  · intro ss h
    simpa only [Body.parts, partsOfStatements_eq] using AllBetween.flatMap h
  · intro e h
    simpa only [Body.parts] using h

theorem property_yieldsBetween :
    (property expr).YieldsBetween ts us fun p => AllBetween ts us p.parts := by
  refine .firstOf ?_
  simp only [List.forall_mem_cons, List.not_mem_nil, false_imp_iff, implies_true, and_true]
  refine ⟨.map (.before _ he) ?_, .map ((YieldsBetween.any ts us _).both he) ?_,
    .map (.any ts us _) ?_⟩
  · intro e h
    simpa only [Property.parts] using h
  · rintro ⟨k, e⟩ ⟨-, h⟩
    simpa only [Property.parts] using h
  · intro n _
    simpa only [Property.parts] using AllBetween.nil ts us

instance : Leaves Grammar.number := by
  unfold Grammar.number
  infer_instance

omit [Leaves expr] he in
theorem literal_yieldsBetween : literal.YieldsBetween ts us fun e => AllBetween ts us e.parts := by
  refine .before _ (.firstOf ?_)
  simp only [List.forall_mem_cons, List.not_mem_nil, false_imp_iff, implies_true, and_true]
  refine ⟨.map (.any ts us _) ?_, .map (.any ts us _) ?_, .map (.any ts us _) ?_,
    .map (.any ts us _) ?_, .map (.any ts us _) ?_, .map (.any ts us _) ?_⟩ <;>
  · intro _ _
    simpa only [Expr.parts] using AllBetween.nil ts us

theorem atom_yieldsBetween
    (hel : (element expr).YieldsBetween ts us fun e => AllBetween ts us e.parts) :
    (atom expr).YieldsBetween ts us fun e => AllBetween ts us e.parts := by
  refine .firstOf ?_
  simp only [List.forall_mem_cons, List.not_mem_nil, false_imp_iff, implies_true, and_true]
  refine ⟨.map ((YieldsBetween.any ts us _).both (body_yieldsBetween he)) ?_,
    .map ((YieldsBetween.before _ he).skip _) ?_, literal_yieldsBetween, .map (.before _ hel) ?_,
    (he.listed _ _).map ?_, ((property_yieldsBetween he).listed _ _).map ?_, .map (.any ts us _) ?_⟩
  · rintro ⟨ps, b⟩ ⟨-, h⟩
    simpa only [Expr.parts] using h
  · intro e h
    simpa only [Expr.parts] using h
  · intro e h
    simpa only [Expr.parts] using h
  · intro es h
    simpa only [Expr.parts, partsOfItems_eq] using AllBetween.flatMap h
  · intro ps h
    simpa only [Expr.parts, partsOfProperties_eq] using AllBetween.flatMap h
  · intro n _
    simpa only [Expr.parts] using AllBetween.nil ts us

theorem chainStep_yieldsBetween : (chainStep expr).YieldsBetween ts us fun f =>
    ∀ e, AllBetween ts us e.parts → AllBetween ts us (f e).parts := by
  refine .orElse (.map (.any ts us _) ?_) ((he.listed _ _).map ?_)
  · intro p _ e h
    simpa only [Expr.parts] using h
  · intro as has e h
    simpa only [Expr.parts, partsOfItems_eq] using h.append (AllBetween.flatMap has)

theorem expressionBody_yieldsBetween
    (hel : (element expr).YieldsBetween ts us fun e => AllBetween ts us e.parts) :
    (expressionBody expr).YieldsBetween ts us fun e => AllBetween ts us e.parts := by
  refine .charged (.map ((atom_yieldsBetween he hel).both (chainStep_yieldsBetween he).many) ?_) _
  rintro ⟨first, steps⟩ ⟨hfirst, hsteps⟩
  show AllBetween ts us (steps.foldl (fun e step => step e) first).parts
  induction steps generalizing first with
  | nil => exact hfirst
  | cons step steps ih =>
    rw [List.forall_mem_cons] at hsteps
    exact ih (step first) (hsteps.1 first hfirst) hsteps.2

end

/-- By induction on the number of tokens left. -/
theorem expression_yieldsBetween (ts us : List Token) :
    expression.YieldsBetween ts us fun e => AllBetween ts us e.parts := by
  suffices ∀ n (i : Input), i.left = n → ∀ e r, expression.Gives i e r →
      AllBetween i.tokens r.tokens e.parts from fun i e r hi hr h => (this _ i rfl e r h).mono hi hr
  intro n
  induction n using Nat.strongRecOn with
  | ind n ih =>
    rintro i rfl e r h
    have hinner : (below i.left expression).YieldsBetween i.tokens r.tokens fun e =>
        AllBetween i.tokens r.tokens e.parts := by
      intro j e' r' hj hr' h'
      obtain ⟨hlt, h'⟩ := gives_below.mp h'
      exact (ih j.left hlt j rfl e' r' h').mono hj hr'
    have hleaves : Leaves expression := inferInstance
    have := hleaves.below i.left
    have hagree : ∀ j : Input, j.tokens <:+ i.tokens →
        element (below i.left expression) j = element expression j := by
      intro j hj
      exact agree_element (agree_below i.left expression) j (Nat.lt_succ_of_le (left_le_of_suffix hj))
    have hbody : (expressionBody (below i.left expression)).Gives i e r := by
      obtain ⟨alt, h⟩ := h
      exact ⟨alt, (recursive_apply expressionBody i).symm.trans h⟩
    exact expressionBody_yieldsBetween hinner (element_yieldsBetween hinner hagree) i e r
      (List.suffix_refl _) (List.suffix_refl _) hbody

instance : Leaves atEnd where
  suffix h := by
    obtain ⟨-, rfl⟩ := gives_atEnd.mp h
    exact List.suffix_refl _

instance : Leaves statement := by
  unfold statement importStatement importClause namedBindings namedBinding namespaceBinding
    defaultBinding
  infer_instance

theorem statement_yieldsBetween (ts us : List Token) :
    statement.YieldsBetween ts us fun s => AllBetween ts us s.parts := by
  refine .orElse (.orElse (.charged (.map (.any ts us _) ?_) _)
    (declaration_yieldsBetween (expression_yieldsBetween ts us)))
    (expressionStatement_yieldsBetween (expression_yieldsBetween ts us))
  intro _ _
  simpa only [Statement.parts] using AllBetween.nil ts us

theorem module_yieldsBetween (ts us : List Token) :
    module.YieldsBetween ts us fun m => AllBetween ts us m.parts := by
  refine .map (((statement_yieldsBetween ts us).many.skip _).skip _) ?_
  intro ss h
  simpa only [Module.parts, partsOfStatements_eq] using AllBetween.flatMap h

theorem wholeExpression_yieldsBetween (ts us : List Token) :
    wholeExpression.YieldsBetween ts us fun e => AllBetween ts us e.parts :=
  ((expression_yieldsBetween ts us).skip _).skip _

end Grammar

/-- Every element of a module was read somewhere in its text, and there are no location literals. -/
theorem Module.allRead_of_parse {source : String} {m : Module}
    (h : Module.parse source = .ok m) : Grammar.AllRead (tokenize source) m.parts := by
  unfold Module.parse parseWith at h
  split at h
  · rename_i a rest alt ha
    cases h
    exact (Grammar.module_yieldsBetween _ [] _ _ _ (List.suffix_refl _) List.nil_suffix
      ⟨alt, ha⟩).allRead
  · cases h

/-- So was every element of an expression. -/
theorem Expr.allRead_of_parse {source : String} {e : Expr} (h : Expr.parse source = .ok e) :
    Grammar.AllRead (tokenize source) e.parts := by
  unfold Expr.parse parseWith at h
  split at h
  · rename_i a rest alt ha
    cases h
    exact (Grammar.wholeExpression_yieldsBetween _ [] _ _ _ (List.suffix_refl _) List.nil_suffix
      ⟨alt, ha⟩).allRead
  · cases h

end MarkupTrace.Source
