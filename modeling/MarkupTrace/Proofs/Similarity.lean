import MarkupTrace.Proofs.StoreTyping
import Mathlib.Data.List.Forall2
import Mathlib.Data.List.Zip

/-!
# Similar values

The same code, annotated or not, gives values that differ only in the code of their functions and
in the owner and the source of elements. Reading a property gives similar values again, as long as
it is not one of these two, and similar values are shown alike.
-/

namespace MarkupTrace

open Source Annotate

namespace Annotate

/-- Code with these mentions means under this origin what it means as it was written: no tag leads
to a generated name, and no generated name is the one that stands for itself. -/
structure Origin.Suits (o : Origin) (mentions : List Mention) : Prop where
  fits : o.Fits mentions
  tags : ∀ n, .tag n ∈ mentions → n ∉ o.hidden
  undefined : "undefined" ∉ o.hidden

/-- Code that suits two origins and does not look at where elements come from. -/
structure Shared (o₁ o₂ : Origin) (mentions : List Mention) : Prop where
  left : o₁.Suits mentions
  right : o₂.Suits mentions
  discreet : ∀ n, .property n ∈ mentions → n ≠ "_self" ∧ n ≠ "_source"

variable {o o₁ o₂ : Origin} {xs ys : List Mention} {x : Mention}

theorem Origin.Suits.mono (h : o.Suits xs) (hsub : ys ⊆ xs) : o.Suits ys :=
  ⟨h.fits.mono hsub, fun n hn => h.tags n (hsub hn), h.undefined⟩

namespace Shared

theorem symm (h : Shared o₁ o₂ xs) : Shared o₂ o₁ xs := ⟨h.right, h.left, h.discreet⟩

theorem mono (h : Shared o₁ o₂ xs) (hsub : ys ⊆ xs) : Shared o₁ o₂ ys :=
  ⟨h.left.mono hsub, h.right.mono hsub, fun n hn => h.discreet n (hsub hn)⟩

theorem front (h : Shared o₁ o₂ (xs ++ ys)) : Shared o₁ o₂ xs :=
  h.mono (List.subset_append_left xs ys)

theorem back (h : Shared o₁ o₂ (xs ++ ys)) : Shared o₁ o₂ ys :=
  h.mono (List.subset_append_right xs ys)

theorem tail (h : Shared o₁ o₂ (x :: xs)) : Shared o₁ o₂ xs := h.mono (List.subset_cons_self x xs)

end Shared

end Annotate

/-! ## Lists of entries -/

/-- The same keys in the same order, with related values. -/
def Keyed.Related {α β : Type} (R : α → β → Prop) : Keyed α → Keyed β → Prop :=
  List.Forall₂ fun x y => x.1 = y.1 ∧ R x.2 y.2

namespace Keyed.Related

variable {α β : Type} {R S : α → β → Prop} {xs xs' : Keyed α} {ys ys' : Keyed β}

theorem imp (h : Related R xs ys) (hRS : ∀ a b, R a b → S a b) : Related S xs ys :=
  List.Forall₂.imp (fun _ _ hxy => ⟨hxy.1, hRS _ _ hxy.2⟩) h

theorem get? (h : Related R xs ys) (key : String) :
    Option.Rel R (xs.get? key) (ys.get? key) := by
  induction h with
  | nil => exact .none
  | @cons x y xs ys hxy _ ih =>
    obtain ⟨k, v⟩ := x
    obtain ⟨l, w⟩ := y
    obtain ⟨rfl, hvw⟩ := hxy
    rw [Keyed.get?, Keyed.get?]
    split_ifs
    · exact .some hvw
    · exact ih

theorem insert (h : Related R xs ys) (key : String) {a : α} {b : β} (hab : R a b) :
    Related R (xs.insert key a) (ys.insert key b) := by
  induction h with
  | nil => exact .cons ⟨rfl, hab⟩ .nil
  | @cons x y xs ys hxy hrest ih =>
    obtain ⟨k, v⟩ := x
    obtain ⟨l, w⟩ := y
    obtain ⟨rfl, hvw⟩ := hxy
    rw [Keyed.insert, Keyed.insert]
    split_ifs
    · exact .cons ⟨rfl, hab⟩ hrest
    · exact .cons ⟨rfl, hab⟩ (.cons ⟨rfl, hvw⟩ hrest)
    · exact .cons ⟨rfl, hvw⟩ ih

theorem extend (h : Related R xs ys) (h' : Related R xs' ys') :
    Related R (xs.extend xs') (ys.extend ys') := by
  unfold Keyed.extend
  induction h' generalizing xs ys with
  | nil => exact h
  | @cons x y _ _ hxy _ ih =>
    obtain ⟨k, v⟩ := x
    obtain ⟨l, w⟩ := y
    obtain ⟨rfl, hvw⟩ := hxy
    exact ih (h.insert k hvw)

end Keyed.Related

/-! ## The relation -/

/-- The same function, of code that may run where either of the two was made. -/
structure Function.Similar (home₁ home₂ : Nat → Origin → Prop) (f g : Function) : Prop where
  identity : f.identity = g.identity
  name : f.name = g.name
  params : f.params = g.params
  scope : f.scope = g.scope
  body : ∃ o₁ o₂ b, home₁ f.scope.index o₁ ∧ home₂ g.scope.index o₂ ∧ f.body = o₁.body b ∧
    g.body = o₂.body b ∧ Shared o₁ o₂ (f.params.flatMap Param.mentions ++ b.mentions)

inductive ElementType.Similar (home₁ home₂ : Nat → Origin → Prop) :
    ElementType → ElementType → Prop
  | host (tag : String) : Similar home₁ home₂ (.host tag) (.host tag)
  | component {f g : Function} (h : f.Similar home₁ home₂ g) :
      Similar home₁ home₂ (.component f) (.component g)

namespace Value

/-- The same value up to the code of functions and the owners and sources of elements. Records are
the same if they are among the first `bound`. -/
inductive Similar (home₁ home₂ : Nat → Origin → Prop) (bound : Nat) : Value → Value → Prop
  | undefined : Similar home₁ home₂ bound .undefined .undefined
  | null : Similar home₁ home₂ bound .null .null
  | bool (b : Bool) : Similar home₁ home₂ bound (.bool b) (.bool b)
  | number (n : Double) : Similar home₁ home₂ bound (.number n) (.number n)
  | text (s : String) : Similar home₁ home₂ bound (.text s) (.text s)
  | array (identity : Nat) {xs ys : List Value} (length : xs.length = ys.length)
      (items : ∀ a b, (a, b) ∈ xs.zip ys → Similar home₁ home₂ bound a b) :
      Similar home₁ home₂ bound (.array identity xs) (.array identity ys)
  | object (identity : Nat) {xs ys : Fields} (length : xs.length = ys.length)
      (keys : ∀ a b, (a, b) ∈ xs.zip ys → a.1 = b.1)
      (values : ∀ a b, (a, b) ∈ xs.zip ys → Similar home₁ home₂ bound a.2 b.2) :
      Similar home₁ home₂ bound (.object identity xs) (.object identity ys)
  | element {c d : CreatedElement Value} (identity : c.identity = d.identity)
      (type : c.type.Similar home₁ home₂ d.type) (propsIdentity : c.propsIdentity = d.propsIdentity)
      (length : c.props.length = d.props.length)
      (keys : ∀ a b, (a, b) ∈ c.props.zip d.props → a.1 = b.1)
      (values : ∀ a b, (a, b) ∈ c.props.zip d.props → Similar home₁ home₂ bound a.2 b.2)
      (owner₁ : ∀ v, c.owner = some v → v.Clean home₁)
      (source₁ : ∀ v, c.source = some v → v.Clean home₁)
      (owner₂ : ∀ v, d.owner = some v → v.Clean home₂)
      (source₂ : ∀ v, d.source = some v → v.Clean home₂) :
      Similar home₁ home₂ bound (.element c) (.element d)
  | function {f g : Function} (h : f.Similar home₁ home₂ g) :
      Similar home₁ home₂ bound (.function f) (.function g)
  | location {r : RecordRef} (h : r.index < bound) :
      Similar home₁ home₂ bound (.location r) (.location r)

end Value

section

variable {home₁ home₂ home₁' home₂' : Nat → Origin → Prop} {bound : Nat}

theorem Function.Similar.symm {f g : Function} (h : f.Similar home₁ home₂ g) :
    g.Similar home₂ home₁ f := by
  obtain ⟨o₁, o₂, b, h₁, h₂, hf, hg, hshared⟩ := h.body
  exact ⟨h.identity.symm, h.name.symm, h.params.symm, h.scope.symm, o₂, o₁, b, h₂, h₁, hg, hf,
    h.params ▸ hshared.symm⟩

theorem Function.Similar.mono {f g : Function} (h : f.Similar home₁ home₂ g)
    (h₁ : ∀ i o, home₁ i o → home₁' i o) (h₂ : ∀ i o, home₂ i o → home₂' i o) :
    f.Similar home₁' home₂' g := by
  obtain ⟨o₁, o₂, b, hf, hg, hrest⟩ := h.body
  exact ⟨h.identity, h.name, h.params, h.scope, o₁, o₂, b, h₁ _ _ hf, h₂ _ _ hg, hrest⟩

theorem Function.Similar.clean {f g : Function} (h : f.Similar home₁ home₂ g) : f.Clean home₁ := by
  obtain ⟨o₁, o₂, b, hf, -, hbody, -, hshared⟩ := h.body
  exact ⟨o₁, b, hf, hbody, hshared.left.fits⟩

theorem ElementType.Similar.symm {a b : ElementType} (h : a.Similar home₁ home₂ b) :
    b.Similar home₂ home₁ a := by
  cases h with
  | host tag => exact .host tag
  | component h => exact .component h.symm

theorem ElementType.Similar.mono {a b : ElementType} (h : a.Similar home₁ home₂ b)
    (h₁ : ∀ i o, home₁ i o → home₁' i o) (h₂ : ∀ i o, home₂ i o → home₂' i o) :
    a.Similar home₁' home₂' b := by
  cases h with
  | host tag => exact .host tag
  | component h => exact .component (h.mono h₁ h₂)

theorem ElementType.Similar.name_eq {a b : ElementType} (h : a.Similar home₁ home₂ b) :
    a.name = b.name := by
  cases h with
  | host tag => rfl
  | component h => simp [ElementType.name, Function.displayName, h.name]

end

theorem mem_zip_swap {α β : Type} {xs : List α} {ys : List β} {a : α} {b : β}
    (h : (a, b) ∈ xs.zip ys) : (b, a) ∈ ys.zip xs := by
  rw [← List.zip_swap]
  exact List.mem_map_of_mem h

theorem exists_mem_zip {α β : Type} {xs : List α} {ys : List β} (hlength : xs.length = ys.length)
    {a : α} (ha : a ∈ xs) : ∃ b, (a, b) ∈ xs.zip ys := by
  rw [← List.map_fst_zip hlength.le] at ha
  obtain ⟨⟨a, b⟩, hab, rfl⟩ := List.mem_map.mp ha
  exact ⟨b, hab⟩

theorem getElem?_of_forall₂ {α β : Type} {R : α → β → Prop} {xs : List α} {ys : List β}
    (h : List.Forall₂ R xs ys) (i : Nat) : Option.Rel R xs[i]? ys[i]? := by
  induction h generalizing i with
  | nil => exact .none
  | cons hab _ ih =>
    cases i with
    | zero => exact .some hab
    | succ i => exact ih i

theorem rel_imp {α β : Type} {R S : α → β → Prop} {x : Option α} {y : Option β}
    (h : Option.Rel R x y) (hRS : ∀ a b, R a b → S a b) : Option.Rel S x y := by
  cases h with
  | none => exact .none
  | some h => exact .some (hRS _ _ h)

theorem rel_symm {α β : Type} {R : α → β → Prop} {S : β → α → Prop} {x : Option α} {y : Option β}
    (h : Option.Rel R x y) (hRS : ∀ a b, R a b → S b a) : Option.Rel S y x := by
  cases h with
  | none => exact .none
  | some h => exact .some (hRS _ _ h)

theorem Keyed.related_iff_zip {α β : Type} {R : α → β → Prop} {xs : Keyed α} {ys : Keyed β} :
    Keyed.Related R xs ys ↔ xs.length = ys.length ∧ (∀ a b, (a, b) ∈ xs.zip ys → a.1 = b.1) ∧
      ∀ a b, (a, b) ∈ xs.zip ys → R a.2 b.2 := by
  rw [Keyed.Related, List.forall₂_iff_zip]
  constructor
  · rintro ⟨hlength, h⟩
    exact ⟨hlength, fun a b hab => (h hab).1, fun a b hab => (h hab).2⟩
  · rintro ⟨hlength, hkeys, hvalues⟩
    exact ⟨hlength, fun {a b} hab => ⟨hkeys a b hab, hvalues a b hab⟩⟩

namespace Value.Similar

variable {home₁ home₂ home₁' home₂' : Nat → Origin → Prop} {bound : Nat} {v w : Value}

theorem ofItems (identity : Nat) {xs ys : List Value}
    (h : List.Forall₂ (Similar home₁ home₂ bound) xs ys) :
    Similar home₁ home₂ bound (.array identity xs) (.array identity ys) := by
  obtain ⟨hlength, hitems⟩ := List.forall₂_iff_zip.mp h
  exact .array identity hlength fun a b hab => hitems hab

theorem ofFields (identity : Nat) {xs ys : Fields}
    (h : Keyed.Related (Similar home₁ home₂ bound) xs ys) :
    Similar home₁ home₂ bound (.object identity xs) (.object identity ys) := by
  obtain ⟨hlength, hkeys, hvalues⟩ := Keyed.related_iff_zip.mp h
  exact .object identity hlength hkeys hvalues

theorem symm (h : Similar home₁ home₂ bound v w) : Similar home₂ home₁ bound w v := by
  induction h with
  | undefined => exact .undefined
  | null => exact .null
  | bool b => exact .bool b
  | number n => exact .number n
  | text s => exact .text s
  | array identity length _ ih =>
    exact .array identity length.symm fun a b hab => ih b a (mem_zip_swap hab)
  | object identity length keys _ ih =>
    exact .object identity length.symm (fun a b hab => (keys b a (mem_zip_swap hab)).symm)
      fun a b hab => ih b a (mem_zip_swap hab)
  | element identity type propsIdentity length keys _ owner₁ source₁ owner₂ source₂ ih =>
    exact .element identity.symm type.symm propsIdentity.symm length.symm
      (fun a b hab => (keys b a (mem_zip_swap hab)).symm)
      (fun a b hab => ih b a (mem_zip_swap hab)) owner₂ source₂ owner₁ source₁
  | function h => exact .function h.symm
  | location h => exact .location h

theorem mono (h : Similar home₁ home₂ bound v w) (h₁ : ∀ i o, home₁ i o → home₁' i o)
    (h₂ : ∀ i o, home₂ i o → home₂' i o) : Similar home₁' home₂' bound v w := by
  induction h with
  | undefined => exact .undefined
  | null => exact .null
  | bool b => exact .bool b
  | number n => exact .number n
  | text s => exact .text s
  | array identity length _ ih => exact .array identity length ih
  | object identity length keys _ ih => exact .object identity length keys ih
  | element identity type propsIdentity length keys _ owner₁ source₁ owner₂ source₂ ih =>
    exact .element identity (type.mono h₁ h₂) propsIdentity length keys ih
      (fun v hv => (owner₁ v hv).mono h₁) (fun v hv => (source₁ v hv).mono h₁)
      (fun v hv => (owner₂ v hv).mono h₂) (fun v hv => (source₂ v hv).mono h₂)
  | function h => exact .function (h.mono h₁ h₂)
  | location h => exact .location h

theorem clean (h : Similar home₁ home₂ bound v w) : v.Clean home₁ := by
  have hfields : ∀ {xs ys : Fields}, xs.length = ys.length →
      (∀ a b, (a, b) ∈ xs.zip ys → a.2.Clean home₁) → ∀ e ∈ xs, e.2.Clean home₁ := by
    intro xs ys hlength h e he
    obtain ⟨b, hb⟩ := exists_mem_zip hlength he
    exact h e b hb
  induction h with
  | undefined => exact .undefined
  | null => exact .null
  | bool b => exact .bool b
  | number n => exact .number n
  | text s => exact .text s
  | array identity length _ ih =>
    refine .array identity fun a ha => ?_
    obtain ⟨b, hb⟩ := exists_mem_zip length ha
    exact ih a b hb
  | object identity length keys _ ih => exact .object identity (hfields length ih)
  | element identity type propsIdentity length keys _ owner₁ source₁ owner₂ source₂ ih =>
    refine .element ?_ (hfields length ih) owner₁ source₁
    intro f hf
    rw [hf] at type
    generalize CreatedElement.type _ = t at type
    cases type with
    | component h => exact h.clean
  | function h => exact .function h.clean
  | @location r h => exact .location r

theorem getD {v w : Option Value} (h : Option.Rel (Similar home₁ home₂ bound) v w) :
    Similar home₁ home₂ bound (v.getD .undefined) (w.getD .undefined) := by
  cases h with
  | none => exact .undefined
  | some h => exact h

theorem typeName_eq (h : Similar home₁ home₂ bound v w) : v.typeName = w.typeName := by
  cases h <;> rfl

theorem shown?_eq (h : Similar home₁ home₂ bound v w) : v.shown? = w.shown? := by
  cases h <;> rfl

/-- Properties are similar but for the two that say where an element comes from. -/
theorem get? (h : Similar home₁ home₂ bound v w) {p : String} (hself : p ≠ "_self")
    (hsource : p ≠ "_source") :
    Option.Rel (Similar home₁ home₂ bound) (v.get? p) (w.get? p) := by
  cases h with
  | undefined => exact .none
  | null => exact .none
  | bool b => exact .some .undefined
  | number n => exact .some .undefined
  | function h => exact .some .undefined
  | text s =>
    rw [Value.get?]
    split_ifs
    · exact .some (.number _)
    · exact .some .undefined
  | @array identity xs ys length items =>
    rw [Value.get?, Value.get?, length]
    split_ifs
    · exact .some (.number _)
    · refine .some (getD ?_)
      cases Value.indexOf? p with
      | none => exact .none
      | some i =>
        have hitems : List.Forall₂ (Similar home₁ home₂ bound) xs ys :=
          List.forall₂_iff_zip.mpr ⟨length, fun {a b} hab => items a b hab⟩
        exact getElem?_of_forall₂ hitems i
  | object identity length keys values =>
    exact .some (getD ((Keyed.related_iff_zip.mpr ⟨length, keys, values⟩).get? p))
  | @element c d identity type propsIdentity length keys values =>
    simp only [Value.get?]
    split
    · refine .some ?_
      rw [Value.props, Value.props, propsIdentity]
      exact .object _ length keys values
    · generalize c.type = a at type
      generalize d.type = b at type
      cases type with
      | host tag => exact .some (.text tag)
      | component h => exact .some (.function h)
    · exact absurd rfl hself
    · exact absurd rfl hsource
    · exact .some .undefined
  | location h =>
    simp only [Value.get?]
    split
    · exact .some (.text _)
    · exact .some (.number _)
    · exact .some (.number _)
    · cases RecordRef.place _ |>.line with
      | none => exact .some .undefined
      | some n => exact .some (.number _)
    · exact .some .undefined

end Value.Similar

end MarkupTrace
