import MarkupTrace.Proofs.Loading
import MarkupTrace.Proofs.Planting

/-!
# Rendering keeps the books

Rendering calls components, and so creates elements as loading does. Apart from these calls it only
makes records, for sources that are none. So it changes no record that was there and accounts for
every element that is created, and the same goes for all that may happen to a module from its loading
to a rendering.
-/

namespace MarkupTrace

open Source Annotate Eval Render Store

namespace Eval

/-! ## Types of created elements -/

/-- An element with a host tag was created as a host element. -/
def Creation.Typed (c : Creation) : Prop :=
  isHostTag c.element.name = true → c.value.type = .host c.element.name

/-- All elements that are created have the type their tag says. -/
def Typed (J : Judgement) : Prop :=
  ∀ scope e s v s' l, J scope e s v s' l → ∀ c ∈ l, c.Typed

theorem elementType_of_isHostTag {scope : ScopeId} {name : String} {s s' : Store}
    {type : ElementType} (hname : isHostTag name = true)
    (h : elementType scope name s = (.ok type, s')) : type = .host name := by
  rw [elementType, if_pos hname] at h
  cases h
  rfl

section

variable {J : Judgement} (hJ : Typed J) {scope : ScopeId} {s s' : Store} {v : Value}
  {l : List Creation}
include hJ

theorem Items.typed {es : List Expr} {vs : List Value} (h : Items J scope es s vs s' l) :
    ∀ c ∈ l, c.Typed := by
  induction h with
  | nil => nofun
  | cons head tail ih => exact List.forall_mem_append.mpr ⟨hJ _ _ _ _ _ _ head, ih⟩

theorem Named.typed {name : String} {e : Expr} (h : Named J name scope e s v s' l) :
    ∀ c ∈ l, c.Typed := by
  cases h with
  | arrow made => nofun
  | other unnamed evaluated => exact hJ _ _ _ _ _ _ evaluated

theorem Block.typed {ss : List Statement} (h : Block J scope ss s v s' l) : ∀ c ∈ l, c.Typed := by
  induction h with
  | nil => nofun
  | const bound further ih => exact List.forall_mem_append.mpr ⟨bound.typed hJ, ih⟩
  | expr evaluated further ih =>
    exact List.forall_mem_append.mpr ⟨hJ _ _ _ _ _ _ evaluated, ih⟩
  | returns evaluated => exact hJ _ _ _ _ _ _ evaluated
  | returnsNothing => nofun

theorem Returned.typed {b : Body} (h : Returned J scope b s v s' l) : ∀ c ∈ l, c.Typed := by
  cases h with
  | result evaluated => exact hJ _ _ _ _ _ _ evaluated
  | block ran => exact ran.typed hJ

theorem Called.typed {callee : Value} {arguments : List Value}
    (h : Called J callee arguments s v s' l) : ∀ c ∈ l, c.Typed := by
  cases h with
  | builtin done => nofun
  | function bound ran => exact ran.typed hJ

theorem FieldsOf.typed {fields fields' : Fields} {ps : List Property}
    (h : FieldsOf J scope fields ps s fields' s' l) : ∀ c ∈ l, c.Typed := by
  induction h with
  | nil => nofun
  | entry evaluated further ih =>
    exact List.forall_mem_append.mpr ⟨hJ _ _ _ _ _ _ evaluated, ih⟩
  | shorthand found further ih => exact ih
  | spread evaluated taken further ih =>
    exact List.forall_mem_append.mpr ⟨hJ _ _ _ _ _ _ evaluated, ih⟩

theorem Attributes.typed {g g' : Given} {as : List Attribute}
    (h : Attributes J scope g as s g' s' l) : ∀ c ∈ l, c.Typed := by
  induction h with
  | nil => nofun
  | bare further ih => exact ih
  | text further ih => exact ih
  | value evaluated further ih =>
    exact List.forall_mem_append.mpr ⟨hJ _ _ _ _ _ _ evaluated, ih⟩
  | spread evaluated taken further ih =>
    exact List.forall_mem_append.mpr ⟨hJ _ _ _ _ _ _ evaluated, ih⟩

theorem Contributed.typed {c : Child} {w : Option Value} (h : Contributed J scope c s w s' l) :
    ∀ c ∈ l, c.Typed := by
  cases h with
  | hidden empty => nofun
  | text shown => nofun
  | emptyContainer => nofun
  | container evaluated => exact hJ _ _ _ _ _ _ evaluated
  | element evaluated => exact hJ _ _ _ _ _ _ evaluated

theorem Children.typed {cs : List Child} {given : List (Option Value)}
    (h : Children J scope cs s given s' l) : ∀ c ∈ l, c.Typed := by
  induction h with
  | nil => nofun
  | cons head tail ih => exact List.forall_mem_append.mpr ⟨head.typed hJ, ih⟩

theorem Created.typed {e : Element} {w : CreatedElement Value}
    (h : Created J scope e s w s' l) : ∀ c ∈ l, c.Typed := by
  cases h with
  | mk found attributes children gathered made =>
    refine List.forall_mem_append.mpr
      ⟨List.forall_mem_append.mpr ⟨attributes.typed hJ, children.typed hJ⟩, ?_⟩
    rw [List.forall_mem_singleton]
    cases made
    exact fun hname => elementType_of_isHostTag hname found

theorem Steps.typed : Typed (Steps J) := by
  intro scope e s v s' l h
  cases h with
  | member evaluated read => exact hJ _ _ _ _ _ _ evaluated
  | call evaluated passed called =>
    exact List.forall_mem_append.mpr ⟨List.forall_mem_append.mpr
      ⟨hJ _ _ _ _ _ _ evaluated, passed.typed hJ⟩, called.typed hJ⟩
  | object evaluated made => exact evaluated.typed hJ
  | array evaluated made => exact evaluated.typed hJ
  | paren evaluated => exact hJ _ _ _ _ _ _ evaluated
  | markup created => exact created.typed hJ
  | _ => nofun

theorem TopLevel.typed {modules : Importable} {exports exports' : Fields} {ss : List Statement}
    (h : TopLevel J modules scope exports ss s exports' s' l) : ∀ c ∈ l, c.Typed := by
  induction h with
  | nil => nofun
  | imports bound further ih => exact ih
  | const bound further ih => exact List.forall_mem_append.mpr ⟨bound.typed hJ, ih⟩
  | expr evaluated further ih =>
    exact List.forall_mem_append.mpr ⟨hJ _ _ _ _ _ _ evaluated, ih⟩

end

theorem typed_derives (n : Nat) : Typed (Derives n) := by
  induction n with
  | zero => exact fun _ _ _ _ _ _ h => h.elim
  | succ n ih => exact Steps.typed ih

end Eval

namespace Render

variable {Γ : Typing}

/-! ## Mounting -/

theorem sourceRecord_keeps {s : Store} (hs : s.Sound Γ) (source : Option Value) :
    Keeps Γ s (sourceRecord source s).2 [] := by
  unfold sourceRecord
  split
  · exact .refl hs
  · split
    · rename_i place hplace
      exact newRecord_keeps hs place
    · exact .refl hs
  · exact .refl hs

/-- Mounting a clean value keeps the books. -/
def KeepsBooks (Γ : Typing) (J : Planting) : Prop :=
  ∀ v parent m x m' l, m.store.Sound Γ → v.Clean (m.store.Home Γ) → J v parent m x m' l →
    Keeps Γ m.store m'.store l ∧ ∀ c ∈ l, c.Typed

section

variable {J : Planting} (hJ : KeepsBooks Γ J) {parent : NodeId} {m m' : Mounting}
  {l : List Creation}
include hJ

theorem ItemPlanted.keepsBooks {v : Value} {x : Forest} (hs : m.store.Sound Γ)
    (hv : v.Clean (m.store.Home Γ)) (h : ItemPlanted J parent v m x m' l) :
    Keeps Γ m.store m'.store l ∧ ∀ c ∈ l, c.Typed := by
  cases h with
  | nested mounted =>
    have hkeeps := hJ _ _ (m.plant _) _ _ _ hs hv mounted
    exact hkeeps
  | other single mounted => exact hJ _ _ _ _ _ _ hs hv mounted

theorem ItemsPlanted.keepsBooks {vs : List Value} {xs : List Forest} (hs : m.store.Sound Γ)
    (hvs : ∀ v ∈ vs, v.Clean (m.store.Home Γ)) (h : ItemsPlanted J parent vs m xs m' l) :
    Keeps Γ m.store m'.store l ∧ ∀ c ∈ l, c.Typed := by
  induction h with
  | nil => exact ⟨.refl hs, nofun⟩
  | cons head tail ih =>
    rw [List.forall_mem_cons] at hvs
    obtain ⟨hkeeps, htyped⟩ := head.keepsBooks hJ hs hvs.1
    obtain ⟨hkeeps', htyped'⟩ := ih hkeeps.sound fun v hv => hkeeps.clean (hvs.2 v hv)
    exact ⟨hkeeps.trans hkeeps', List.forall_mem_append.mpr ⟨htyped, htyped'⟩⟩

theorem ContentPlanted.keepsBooks {fiber : FiberId} {v : Option Value} {x : Forest}
    (hs : m.store.Sound Γ) (hv : ∀ w, v = some w → w.Clean (m.store.Home Γ))
    (h : ContentPlanted J fiber parent v m x m' l) :
    Keeps Γ m.store m'.store l ∧ ∀ c ∈ l, c.Typed := by
  cases h with
  | absent => exact ⟨.refl hs, nofun⟩
  | empty hidden => exact ⟨.refl hs, nofun⟩
  | shown shown filled => exact ⟨.refl hs, nofun⟩
  | other composed mounted =>
    have hkeeps := hJ _ _ _ _ _ _ hs (hv _ rfl) mounted
    exact hkeeps

theorem Planted.keepsBooks (depth : Nat) : KeepsBooks Γ (Planted J depth) := by
  intro v parent m x m' l hs hv h
  cases h with
  | absent nothing => exact ⟨.refl hs, nofun⟩
  | text shown filled => exact ⟨.refl hs, nofun⟩
  | array mounted =>
    cases hv with
    | array identity hitems => exact mounted.keepsBooks hJ hs hitems
  | @host e tag parent m m' x l type content =>
    cases hv with
    | element _ hprops _ _ =>
      have hsource : Keeps Γ m.store (m.host e tag parent).store [] := sourceRecord_keeps hs e.source
      obtain ⟨hkeeps, htyped⟩ := content.keepsBooks hJ hsource.sound fun w hw =>
        hsource.clean (hprops _ (Keyed.mem_of_get? hw))
      exact ⟨hsource.trans hkeeps, htyped⟩
  | @component e f parent m m' s v x l₁ l₂ type called mounted =>
    cases hv with
    | element hfunction hprops _ _ =>
      have hsource : Keeps Γ m.store (m.component e).store [] := sourceRecord_keeps hs e.source
      have hcallee : Value.Clean (m.store.Home Γ) (.function f) := .function (hfunction f type)
      have hargument : (Value.props e).Clean (m.store.Home Γ) := .object _ hprops
      obtain ⟨hkeeps, hresult⟩ := Called.keeps (derives_keeps Γ depth).1 hsource.sound
        (hsource.clean hcallee) (List.forall_mem_singleton.mpr (hsource.clean hargument)) called
      obtain ⟨hkeeps', htyped⟩ := hJ _ _ _ _ _ _ hkeeps.sound hresult mounted
      exact ⟨hsource.trans (hkeeps.trans hkeeps'),
        List.forall_mem_append.mpr ⟨called.typed (typed_derives depth), htyped⟩⟩

end

theorem Plants.keepsBooks (Γ : Typing) (depth n : Nat) : KeepsBooks Γ (Plants depth n) := by
  induction n with
  | zero => exact fun _ _ _ _ _ _ _ _ h => h.elim
  | succ n ih => exact Planted.keepsBooks ih depth

/-- A rendering of a clean value keeps the books. -/
theorem Rendered.keepsBooks {depth : Nat} {container : NodeId} {v : Value} {s s' : Store}
    {d d' : Document} {x : Forest} {tree : FiberTree} {l : List Creation} (hs : s.Sound Γ)
    (hv : v.Clean (s.Home Γ)) (h : Rendered depth container v s d x tree s' d' l) :
    Keeps Γ s s' l ∧ ∀ c ∈ l, c.Typed := by
  obtain ⟨t, hplants, -⟩ := h.planted
  exact Plants.keepsBooks Γ depth depth _ _ _ _ _ _ hs hv hplants

/-! ## Between loading and rendering -/

/-- What may happen in between: values of one's own get identities, functions are called, and values
are rendered, in any order. All of this succeeds and uses clean values only. -/
inductive Uses (Γ : Typing) (s : Store) : Store → List Creation → Prop
  | start : Uses Γ s s []
  | identity {s₁ : Store} {l : List Creation} (before : Uses Γ s s₁ l) :
      Uses Γ s s₁.identity.2 l
  | call {depth : Nat} {callee v : Value} {arguments : List Value} {s₁ s₂ : Store}
      {l₁ l₂ : List Creation} (before : Uses Γ s s₁ l₁) (callee_clean : callee.Clean (s₁.Home Γ))
      (arguments_clean : ∀ v ∈ arguments, v.Clean (s₁.Home Γ))
      (called : Called (Derives depth) callee arguments s₁ v s₂ l₂) : Uses Γ s s₂ (l₁ ++ l₂)
  | render {depth : Nat} {container : NodeId} {v : Value} {d d' : Document} {x : Forest}
      {tree : FiberTree} {s₁ s₂ : Store} {l₁ l₂ : List Creation} (before : Uses Γ s s₁ l₁)
      (clean : v.Clean (s₁.Home Γ)) (rendered : Rendered depth container v s₁ d x tree s₂ d' l₂) :
      Uses Γ s s₂ (l₁ ++ l₂)

theorem Uses.keepsBooks {s s' : Store} {l : List Creation} (hs : s.Sound Γ) (h : Uses Γ s s' l) :
    Keeps Γ s s' l ∧ ∀ c ∈ l, c.Typed := by
  induction h with
  | start => exact ⟨.refl hs, nofun⟩
  | identity before ih => exact ⟨ih.1.andThen (identity_keeps ih.1.sound), ih.2⟩
  | @call depth _ _ _ _ _ _ _ before hcallee harguments called ih =>
    have hkeeps := (Called.keeps (derives_keeps Γ depth).1 ih.1.sound hcallee harguments called).1
    exact ⟨ih.1.trans hkeeps,
      List.forall_mem_append.mpr ⟨ih.2, called.typed (typed_derives depth)⟩⟩
  | render before hv rendered ih =>
    obtain ⟨hkeeps, htyped⟩ := rendered.keepsBooks ih.1.sound hv
    exact ⟨ih.1.trans hkeeps, List.forall_mem_append.mpr ⟨ih.2, htyped⟩⟩

end Render

end MarkupTrace
