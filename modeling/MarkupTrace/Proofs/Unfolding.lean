import MarkupTrace.Proofs.Outcomes
import Mathlib.Data.List.Forall2

/-!
# Expressions through themselves

What a parser leaves is an end of its input. The grammar reads expressions and elements inside others
only behind a first token, so the bound that is put on recursive parsers never shows: an expression is
what the rule for expressions gives with expressions inside it.
-/

namespace MarkupTrace.Source.Grammar

namespace Parser

variable {α β : Type}

/-- What is left is an end of the input. -/
class Leaves (p : Parser α) : Prop where
  suffix : ∀ {i : Input} {a : α} {r : Input}, p.Gives i a r → r.tokens <:+ i.tokens

/-- At least one token is taken. -/
class Advances (p : Parser α) : Prop where
  left_lt : ∀ {i : Input} {a : α} {r : Input}, p.Gives i a r → r.left < i.left

theorem left_le_of_suffix {i r : Input} (h : r.tokens <:+ i.tokens) : r.left ≤ i.left := by
  rw [r.left_eq, i.left_eq]
  exact h.length_le

theorem Leaves.left_le {p : Parser α} [Leaves p] {i r : Input} {a : α} (h : p.Gives i a r) :
    r.left ≤ i.left := left_le_of_suffix (Leaves.suffix h)

/-! ## Ends of the input -/

section

variable {p p' : Parser α} {q : Parser β}

instance (accept : Token → Option α) : Leaves (single accept) where
  suffix := by
    intro i a r h
    obtain ⟨t, ht, -⟩ := gives_single.mp h
    rw [ht]
    exact List.suffix_cons t r.tokens

instance (accept : Token → Bool) : Leaves (satisfy accept) := by
  unfold satisfy
  infer_instance

instance (k : Kind) : Leaves (token k) := by
  unfold token
  infer_instance

instance [Leaves p] (f : α → β) : Leaves (p.map f) where
  suffix := by
    intro i b r hb
    obtain ⟨a, ha, -⟩ := gives_map.mp hb
    exact Leaves.suffix ha

instance [Leaves p] [Leaves q] : Leaves (p.both q) where
  suffix := by
    intro i c r h
    obtain ⟨m, ha, hb⟩ := gives_both.mp h
    exact (Leaves.suffix hb).trans (Leaves.suffix ha)

instance [Leaves p] [Leaves q] : Leaves (p.skip q) := by
  unfold Parser.skip
  infer_instance

instance [Leaves p] [Leaves q] : Leaves (p.before q) := by
  unfold Parser.before
  infer_instance

instance [Leaves p] [Leaves p'] : Leaves (p.orElse p') where
  suffix := by
    intro i a r h
    rcases gives_orElse.mp h with h | ⟨-, h⟩
    · exact Leaves.suffix h
    · exact Leaves.suffix h

instance : Leaves (firstOf ([] : List (Parser α))) where
  suffix := fun h => absurd h not_gives_firstOf_nil

instance {ps : List (Parser α)} [Leaves p] [Leaves (firstOf ps)] : Leaves (firstOf (p :: ps)) where
  suffix := by
    intro i a r h
    rcases gives_firstOf_cons.mp h with h | ⟨-, h⟩
    · exact Leaves.suffix h
    · exact Leaves.suffix h

instance [Leaves p] : Leaves p.optional where
  suffix := by
    intro i o r ho
    rcases gives_optional.mp ho with ⟨a, -, ha⟩ | ⟨-, rfl, -⟩
    · exact Leaves.suffix ha
    · exact List.suffix_refl _

theorem Repeats.suffix [Leaves p] {i r : Input} {as : List α} (h : Repeats p i as r) :
    r.tokens <:+ i.tokens := by
  induction h with
  | stop h => exact List.suffix_refl _
  | more h hlt hrest ih => exact ih.trans (Leaves.suffix h)
  | idle h hlt => exact Leaves.suffix h

instance [Leaves p] : Leaves p.many where
  suffix h := (gives_many.mp h).suffix

instance [Leaves p] : Leaves p.many1 where
  suffix := by
    intro i as r has
    obtain ⟨a, m, as', ha, hrest, -⟩ := gives_many1.mp has
    exact hrest.suffix.trans (Leaves.suffix ha)

theorem Continues.suffix [Leaves p] [Leaves q] {i r : Input} {as : List α}
    (h : Continues p q i as r) : r.tokens <:+ i.tokens := by
  induction h with
  | stop h => exact List.suffix_refl _
  | back h hitem => exact List.suffix_refl _
  | more h hitem hlt hrest ih => exact ih.trans ((Leaves.suffix hitem).trans (Leaves.suffix h))
  | idle h hitem hlt => exact (Leaves.suffix hitem).trans (Leaves.suffix h)

instance [Leaves p] [Leaves q] : Leaves (p.separated q) where
  suffix := by
    intro i as r has
    rcases gives_separated.mp has with ⟨-, rfl, -⟩ | ⟨a, m, as', n, -, ha, hrest, hend⟩
    · exact List.suffix_refl _
    · have hn := hrest.suffix.trans (Leaves.suffix ha)
      rcases hend with ⟨b, hb⟩ | ⟨-, rfl⟩
      · exact (Leaves.suffix hb).trans hn
      · exact hn

instance [Leaves p] : Leaves (through p) where
  suffix := by
    intro i a r ha
    have hpasses := gives_through.mp ha
    clear ha
    induction hpasses with
    | here hgives => exact Leaves.suffix hgives
    | @further i m r t a hfails ht hrest ih =>
      rw [ht]
      exact ih.trans (List.suffix_cons t m.tokens)

instance [Leaves p] (f : α → Option β) : Leaves (p.refine f) where
  suffix := by
    intro i b r hb
    obtain ⟨a, ha, -⟩ := gives_refine.mp hb
    exact Leaves.suffix ha

instance [Leaves p] (name : String) : Leaves (p.charged name) where
  suffix h := Leaves.suffix (gives_charged.mp h)

/-! ## Progress -/

instance (accept : Token → Option α) : Advances (single accept) where
  left_lt := by
    intro i a r h
    obtain ⟨t, ht, -⟩ := gives_single.mp h
    rw [i.left_eq, r.left_eq, ht]
    exact Nat.lt_succ_self _

instance (accept : Token → Bool) : Advances (satisfy accept) := by
  unfold satisfy
  infer_instance

instance (k : Kind) : Advances (token k) := by
  unfold token
  infer_instance

instance [Advances p] (f : α → β) : Advances (p.map f) where
  left_lt := by
    intro i b r hb
    obtain ⟨a, ha, -⟩ := gives_map.mp hb
    exact Advances.left_lt ha

instance [Advances p] [Leaves q] : Advances (p.both q) where
  left_lt := by
    intro i c r h
    obtain ⟨m, ha, hb⟩ := gives_both.mp h
    exact Nat.lt_of_le_of_lt (Leaves.left_le hb) (Advances.left_lt ha)

instance [Leaves p] [Advances q] : Advances (p.both q) where
  left_lt := by
    intro i c r h
    obtain ⟨m, ha, hb⟩ := gives_both.mp h
    exact Nat.lt_of_lt_of_le (Advances.left_lt hb) (Leaves.left_le ha)

instance [Advances (p.both q)] : Advances (p.skip q) := by
  unfold Parser.skip
  infer_instance

instance [Advances (p.both q)] : Advances (p.before q) := by
  unfold Parser.before
  infer_instance

instance [Advances p] [Advances p'] : Advances (p.orElse p') where
  left_lt := by
    intro i a r h
    rcases gives_orElse.mp h with h | ⟨-, h⟩
    · exact Advances.left_lt h
    · exact Advances.left_lt h

end

/-! ## Agreement -/

/-- The parsers do the same where fewer than `n` tokens are left. -/
def Agree (n : Nat) (p p' : Parser α) : Prop := ∀ i : Input, i.left < n → p i = p' i

namespace Agree

variable {n : Nat} {p p' : Parser α} {q q' : Parser β}

theorem refl (n : Nat) (p : Parser α) : Agree n p p := fun _ _ => rfl

theorem mono {k : Nat} (h : Agree n p p') (hk : k ≤ n) : Agree k p p' :=
  fun i hi => h i (Nat.lt_of_lt_of_le hi hk)

theorem map (h : Agree n p p') (f : α → β) : Agree n (p.map f) (p'.map f) := by
  intro i hi
  unfold Parser.map
  rw [h i hi]

theorem refine (h : Agree n p p') (f : α → Option β) : Agree n (p.refine f) (p'.refine f) := by
  intro i hi
  unfold Parser.refine
  rw [h i hi]

theorem charged (h : Agree n p p') (name : String) : Agree n (p.charged name) (p'.charged name) := by
  intro i hi
  unfold Parser.charged
  rw [h i hi]

theorem optional (h : Agree n p p') : Agree n p.optional p'.optional := by
  intro i hi
  unfold Parser.optional
  rw [h i hi]

theorem both_of_le {k : Nat} (h : Agree n p p') (hq : Agree k q q')
    (hleft : ∀ i a r, i.left < n → p.Gives i a r → r.left < k) : Agree n (p.both q) (p'.both q') := by
  intro i hi
  unfold Parser.both
  rw [← h i hi]
  cases hp : p i with
  | failed b => rfl
  | done a r alt =>
    dsimp only
    rw [hq r (hleft i a r hi ⟨alt, hp⟩)]

theorem both [Leaves p] (h : Agree n p p') (hq : Agree n q q') :
    Agree n (p.both q) (p'.both q') :=
  h.both_of_le hq fun _ _ _ hi ha => Nat.lt_of_le_of_lt (Leaves.left_le ha) hi

/-- Behind a token the second parsers need not agree as far. -/
theorem both_advances [Advances p] (h : Agree (n + 1) p p') (hq : Agree n q q') :
    Agree (n + 1) (p.both q) (p'.both q') :=
  h.both_of_le hq fun _ _ _ hi ha => Nat.lt_of_lt_of_le (Advances.left_lt ha) (Nat.le_of_lt_succ hi)

theorem skip [Leaves p] (h : Agree n p p') (hq : Agree n q q') :
    Agree n (p.skip q) (p'.skip q') := (h.both hq).map _

theorem before [Leaves p] (h : Agree n p p') (hq : Agree n q q') :
    Agree n (p.before q) (p'.before q') := (h.both hq).map _

theorem before_advances [Advances p] (h : Agree (n + 1) p p') (hq : Agree n q q') :
    Agree (n + 1) (p.before q) (p'.before q') := (h.both_advances hq).map _

theorem orElse {r r' : Parser α} (h : Agree n p p') (h' : Agree n r r') :
    Agree n (p.orElse r) (p'.orElse r') := by
  intro i hi
  unfold Parser.orElse
  rw [h i hi, h' i hi]

theorem firstOf {ps ps' : List (Parser α)} (h : List.Forall₂ (Agree n) ps ps') :
    Agree n (firstOf ps) (firstOf ps') := by
  suffices ∀ alt, Agree n (firstAfter alt ps) (firstAfter alt ps') from this none
  induction h with
  | nil => exact fun alt => refl n _
  | cons hp _ ih =>
    intro alt i hi
    rw [firstAfter, firstAfter, hp i hi]
    split
    · rfl
    · exact ih _ i hi

theorem manyAfter (h : Agree n p p') (alt : Option Blame) {i : Input} (hi : i.left < n) :
    p.manyAfter alt i = p'.manyAfter alt i := by
  fun_induction Parser.manyAfter p alt i with
  | case1 alt i e he =>
    rw [Parser.manyAfter, ← h i hi, he]
  | case2 alt i a m alt₁ ha alt₂ hlt as r alt₃ hm ih =>
    rw [Parser.manyAfter, ← h i hi, ha]
    dsimp only
    rw [if_pos hlt, ← ih (Nat.lt_trans hlt hi), hm]
  | case3 alt i a m alt₁ ha alt₂ hlt e he ih =>
    rw [Parser.manyAfter, ← h i hi, ha]
    dsimp only
    rw [if_pos hlt, ← ih (Nat.lt_trans hlt hi), he]
  | case4 alt i a m alt₁ ha alt₂ hlt =>
    rw [Parser.manyAfter, ← h i hi, ha]
    dsimp only
    rw [if_neg hlt]

theorem many (h : Agree n p p') : Agree n p.many p'.many := fun _ hi => h.manyAfter none hi

theorem itemsAfter [Leaves q] (h : Agree n p p') (alt : Option Blame) {i : Input}
    (hi : i.left < n) : p.itemsAfter q alt i = p'.itemsAfter q alt i := by
  fun_induction Parser.itemsAfter p q alt i with
  | case1 alt i e he => rw [Parser.itemsAfter, he]
  | case2 alt i b m alt₁ hs alt₂ e he =>
    have hm := Nat.lt_of_le_of_lt (Leaves.left_le (p := q) ⟨alt₁, hs⟩) hi
    rw [Parser.itemsAfter, hs]
    dsimp only
    rw [← h m hm, he]
  | case3 alt i b m alt₁ hs alt₂ a k alt₃ ha alt₄ hlt as r alt₅ ended hrest ih =>
    have hm := Nat.lt_of_le_of_lt (Leaves.left_le (p := q) ⟨alt₁, hs⟩) hi
    rw [Parser.itemsAfter, hs]
    dsimp only
    rw [← h m hm, ha]
    dsimp only
    rw [if_pos hlt, ← ih (Nat.lt_trans hlt hi), hrest]
  | case4 alt i b m alt₁ hs alt₂ a k alt₃ ha alt₄ hlt =>
    have hm := Nat.lt_of_le_of_lt (Leaves.left_le (p := q) ⟨alt₁, hs⟩) hi
    rw [Parser.itemsAfter, hs]
    dsimp only
    rw [← h m hm, ha]
    dsimp only
    rw [if_neg hlt]

theorem separated [Leaves p] [Leaves q] (h : Agree n p p') :
    Agree n (p.separated q) (p'.separated q) := by
  intro i hi
  unfold Parser.separated
  rw [← h i hi]
  cases ha : p i with
  | failed b => rfl
  | done a m alt =>
    have hm := Nat.lt_of_le_of_lt (Leaves.left_le (p := p) ⟨alt, ha⟩) hi
    dsimp only
    rw [h.itemsAfter alt hm]

end Agree

/-! ## Recursion -/

/-- The rule uses the parser that it is given only behind a token. -/
structure Guarded (body : Parser α → Parser α) : Prop where
  leaves : ∀ p [Leaves p], Leaves (body p)
  agree : ∀ n p p' [Leaves p] [Leaves p'], Agree n p p' → Agree (n + 1) (body p) (body p')

/-- A parser that fails where not fewer than `n` tokens are left. -/
def below (n : Nat) (p : Parser α) : Parser α := fun i =>
  if i.left < n then p i else .failed (Blame.here i)

theorem agree_below (n : Nat) (p : Parser α) : Agree n (below n p) p := fun _ hi => if_pos hi

theorem gives_below {n : Nat} {p : Parser α} {i r : Input} {a : α} :
    (below n p).Gives i a r ↔ i.left < n ∧ p.Gives i a r := by
  unfold Gives below
  split
  · rename_i h
    simp [h]
  · rename_i h
    simp [h]

variable {body : Parser α → Parser α}

theorem recursive_apply (body : Parser α → Parser α) (i : Input) :
    recursive body i = body (below i.left (recursive body)) i := by
  rw [recursive]
  rfl

theorem Guarded.leaves_recursive (h : Guarded body) : Leaves (recursive body) := by
  suffices ∀ n (i : Input), i.left = n → ∀ a r, Gives (recursive body) i a r →
      r.tokens <:+ i.tokens from ⟨fun hgives => this _ _ rfl _ _ hgives⟩
  intro n
  induction n using Nat.strongRecOn with
  | ind n ih =>
    rintro i rfl a r ⟨alt, ha⟩
    rw [recursive_apply] at ha
    have hbelow : Leaves (below i.left (recursive body)) := by
      constructor
      intro j b m hb
      obtain ⟨hj, hb⟩ := gives_below.mp hb
      exact ih j.left hj j rfl b m hb
    exact (h.leaves _).suffix ⟨alt, ha⟩

theorem Leaves.below {p : Parser α} (h : Leaves p) (n : Nat) : Leaves (Parser.below n p) where
  suffix hgives := h.suffix (gives_below.mp hgives).2

/-- The bound on the inner parser does not matter. -/
theorem Guarded.recursive_eq (h : Guarded body) : recursive body = body (recursive body) := by
  have hleaves := h.leaves_recursive
  funext i
  have hbelow := hleaves.below i.left
  rw [recursive_apply]
  exact h.agree i.left _ _ (agree_below _ _) i (Nat.lt_succ_self _)

end Parser

/-! ## The grammar -/

section

open Grammar.Parser

instance : Leaves trivia := by
  unfold trivia triviaItem lineComment blockComment
  infer_instance

instance (k : Kind) : Advances (mark k) := by
  unfold mark
  infer_instance

instance (k : Kind) : Leaves (mark k) := by
  unfold mark
  infer_instance

instance (w : String) : Advances (word w) := by
  unfold word
  infer_instance

instance (w : String) : Leaves (word w) := by
  unfold word
  infer_instance

instance : Advances name := by
  unfold name
  infer_instance

instance : Leaves name := by
  unfold name
  infer_instance

instance : Leaves anyName := by
  unfold anyName
  infer_instance

instance : Leaves Grammar.string := by
  unfold Grammar.string quotedBy escaped
  infer_instance

instance : Leaves rawString := by
  unfold rawString rawBy
  infer_instance

instance : Leaves markupName := by
  unfold markupName
  infer_instance

instance : Leaves semicolon := by
  unfold semicolon
  infer_instance

instance : Leaves literal := by
  unfold literal number
  infer_instance

instance : Leaves key := by
  unfold key
  infer_instance

instance : Leaves closingTag := by
  unfold closingTag
  infer_instance

instance {α : Type} (item : Parser α) [Leaves item] (opening closing : Kind) :
    Leaves (listed opening closing item) := by
  unfold listed
  infer_instance

instance {α : Type} (item : Parser α) [Leaves item] (opening closing : Kind) :
    Advances (listed opening closing item) := by
  unfold listed
  infer_instance

theorem agree_listed {α : Type} {n : Nat} {item item' : Parser α} [Leaves item]
    (h : Agree n item item') (opening closing : Kind) :
    Agree (n + 1) (listed opening closing item) (listed opening closing item') :=
  .skip (.before_advances (.refl _ _) h.separated) (.refl _ _)

instance : Leaves param := by
  unfold param
  infer_instance

instance : Leaves params := by
  unfold params
  infer_instance

variable {expr expr' : Parser Expr} {element element' : Parser Element} {n : Nat}
  [Leaves expr]

/-! ### Elements -/

instance : Leaves (attributeValue expr) := by
  unfold attributeValue
  infer_instance

instance : Leaves (tagAttribute expr) := by
  unfold tagAttribute
  infer_instance

instance : Leaves (container expr) := by
  unfold container
  infer_instance

instance [Leaves element] : Leaves (child expr element) := by
  unfold child markupText
  infer_instance

instance [Leaves element] : Leaves (tail expr element) := by
  unfold tail
  infer_instance

instance [Leaves element] : Leaves (elementBody expr element) := by
  unfold elementBody
  infer_instance

theorem agree_attributeValue (h : Agree n expr expr') :
    Agree n (attributeValue expr) (attributeValue expr') :=
  .orElse (.refl _ _) (.map (.skip (.before (.refl _ _) h) (.refl _ _)) _)

theorem agree_tagAttribute (h : Agree n expr expr') :
    Agree n (tagAttribute expr) (tagAttribute expr') := by
  refine .orElse (.map (.skip (.before (.refl _ _) h) (.refl _ _)) _) (.map (.both (.refl _ _) ?_) _)
  exact .optional (.before (.refl _ _) (agree_attributeValue h))

theorem agree_container (h : Agree n expr expr') : Agree n (container expr) (container expr') :=
  .map (.both (.both (.refl _ _) h.optional) (.refl _ _)) _

theorem agree_tail [Leaves element] (h : Agree n expr expr') (h' : Agree n element element') :
    Agree n (tail expr element) (tail expr' element') := by
  refine .orElse (.refl _ _) (.map (.both (.before (.refl _ _) (.many ?_)) (.refl _ _)) _)
  exact .orElse (.orElse (agree_container h) (h'.map _)) (.refl _ _)

theorem agree_elementBody [Leaves element] (h : Agree n expr expr')
    (h' : Agree n element element') :
    Agree (n + 1) (elementBody expr element) (elementBody expr' element') := by
  refine .charged (.refine (.both_advances (.both_advances (.refl _ _) ?_) (agree_tail h h')) _) _
  exact (agree_tagAttribute h).many

theorem guarded_elementBody (expr : Parser Expr) [Leaves expr] : Guarded (elementBody expr) where
  leaves _ _ := inferInstance
  agree n _ _ _ _ h := agree_elementBody (.refl n expr) h

/-- An element holds elements that are read in the same way. -/
theorem element_eq (expr : Parser Expr) [Leaves expr] :
    Grammar.element expr = elementBody expr (Grammar.element expr) :=
  (guarded_elementBody expr).recursive_eq

instance : Leaves (Grammar.element expr) := (guarded_elementBody expr).leaves_recursive

theorem agree_element [Leaves expr'] (h : Agree n expr expr') :
    Agree (n + 1) (Grammar.element expr) (Grammar.element expr') := by
  suffices ∀ k (i : Input), i.left = k → i.left < n + 1 →
      Grammar.element expr i = Grammar.element expr' i from fun i hi => this _ i rfl hi
  intro k
  induction k using Nat.strongRecOn with
  | ind k ih =>
    rintro i rfl hi
    rw [element_eq expr, element_eq expr']
    refine agree_elementBody (h.mono (Nat.le_of_lt_succ hi)) ?_ i (Nat.lt_succ_self _)
    exact fun j hj => ih j.left hj j rfl (Nat.lt_trans hj hi)

/-! ### Expressions -/

instance : Leaves (declaration expr) := by
  unfold declaration
  infer_instance

instance : Leaves (returnStatement expr) := by
  unfold returnStatement
  infer_instance

instance : Leaves (expressionStatement expr) := by
  unfold expressionStatement
  infer_instance

instance : Leaves (blockStatement expr) := by
  unfold blockStatement
  infer_instance

instance : Leaves (body expr) := by
  unfold body
  infer_instance

instance : Leaves (arrow expr) := by
  unfold arrow
  infer_instance

instance : Leaves (paren expr) := by
  unfold paren
  infer_instance

instance : Leaves (property expr) := by
  unfold property
  infer_instance

instance : Leaves (atom expr) := by
  unfold atom markup array object
  infer_instance

instance : Leaves (chainStep expr) := by
  unfold chainStep
  infer_instance

instance : Leaves (expressionBody expr) := by
  unfold expressionBody
  infer_instance

theorem agree_declaration (h : Agree n expr expr') :
    Agree (n + 1) (declaration expr) (declaration expr') :=
  .charged (.map (.skip (.both_advances (.refl _ _) h) (.refl _ _)) _) _

theorem agree_blockStatement (h : Agree n expr expr') :
    Agree n (blockStatement expr) (blockStatement expr') := by
  refine .orElse (.orElse ((agree_declaration h).mono (Nat.le_succ n)) ?_) ?_
  · exact .map (.skip (.before (.refl _ _) h.optional) (.refl _ _)) _
  · exact .map (.skip h (.refl _ _)) _

theorem agree_body (h : Agree n expr expr') : Agree n (body expr) (body expr') := by
  refine .orElse (.map (.skip (.before (.refl _ _) ?_) (.refl _ _)) _) (h.map _)
  exact (agree_blockStatement h).many

omit [Leaves expr] in
theorem agree_property (h : Agree n expr expr') : Agree n (property expr) (property expr') := by
  refine .firstOf (.cons ?_ (.cons ?_ (.cons (.refl _ _) .nil)))
  · exact .map (.before (.refl _ _) h) _
  · exact .map (.both (.refl _ _) h) _

theorem agree_atom [Leaves expr'] (h : Agree n expr expr') : Agree (n + 1) (atom expr) (atom expr') := by
  refine .firstOf (.cons ?_ (.cons ?_ (.cons (.refl _ _) (.cons ?_ (.cons ?_ (.cons ?_
    (.cons (.refl _ _) .nil)))))))
  · exact .map (.both_advances (.refl _ _) (agree_body h)) _
  · exact .map (.skip (.before_advances (.refl _ _) h) (.refl _ _)) _
  · exact .map (.before (.refl _ _) (agree_element h)) _
  · exact (agree_listed h _ _).map _
  · exact (agree_listed (agree_property h) _ _).map _

theorem agree_expressionBody [Leaves expr'] (h : Agree n expr expr') :
    Agree (n + 1) (expressionBody expr) (expressionBody expr') := by
  refine .charged (.map (.both (agree_atom h) (.many ?_)) _) _
  exact .orElse (.refl _ _) ((agree_listed h _ _).map _)

theorem guarded_expressionBody : Guarded expressionBody where
  leaves _ _ := inferInstance
  agree _ _ _ _ _ := agree_expressionBody

/-- Expressions hold expressions that are read in the same way. -/
theorem expression_eq : expression = expressionBody expression := guarded_expressionBody.recursive_eq

instance : Leaves expression := guarded_expressionBody.leaves_recursive

end

end MarkupTrace.Source.Grammar
