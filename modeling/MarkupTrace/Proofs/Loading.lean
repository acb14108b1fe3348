import MarkupTrace.Proofs.AttributedElements

/-!
# Loading

The root scope of a module is typed once its declarations stand. Nothing of the module runs before:
up to there only imports and declarations are bound. Loading then keeps the books as all evaluation
does.
-/

namespace MarkupTrace

open Source Annotate Eval Store

/-- A further root scope of an origin. -/
def Typing.open (Γ : Typing) (s : Store) (o : Origin) : Typing :=
  fun k => if k = s.scopes.size then some o else Γ k

namespace Store

variable {Γ : Typing} {s s' : Store} {o : Origin}

/-- A store with one more root scope. -/
structure Opened (Γ : Typing) (o : Origin) (stack : StackId) (bindings : Keyed Value)
    (s s' : Store) : Prop where
  scopes : s'.scopes = s.scopes.push ⟨bindings, none, stack⟩
  records : s'.records = s.records
  stackEntries : s'.stackEntries = s.stackEntries
  clean : ∀ n v, n ∉ o.hidden → bindings.get? n = some v → v.Clean (s.Home Γ)

namespace Opened

variable {stack : StackId} {bindings : Keyed Value} (h : Opened Γ o stack bindings s s')
include h

theorem grows : s.Grows none s' := by
  refine ⟨?_, by rw [h.records], by simp [h.records]⟩
  intro i sc hi
  have hne : i ≠ s.scopes.size := (Array.getElem?_eq_some_iff.mp hi).1.ne
  exact ⟨sc, by rw [h.scopes, Array.getElem?_push, if_neg hne, hi], rfl⟩

theorem declare {n : String} {v : Value} (hv : n ∈ o.hidden ∨ v.Clean (s.Home Γ)) :
    Opened Γ o stack (bindings.insert n v) s (s'.declare ⟨s.scopes.size⟩ n v) := by
  refine ⟨?_, h.records, h.stackEntries, ?_⟩
  · apply Array.ext_getElem?
    intro i
    rw [getElem?_declare, h.scopes, Array.getElem?_push, Array.getElem?_push]
    by_cases hi : i = s.scopes.size
    · subst hi
      simp
    · rw [if_neg hi, if_neg hi]
      have hne : s.scopes.size ≠ i := Ne.symm hi
      simp [hne]
  · intro m w hm hw
    by_cases hmn : m = n
    · subst hmn
      rw [Keyed.get?_insert_self] at hw
      cases hw
      exact hv.resolve_left hm
    · rw [Keyed.get?_insert_of_ne hmn] at hw
      exact h.clean m w hm hw

theorem identity : Opened Γ o stack bindings s s'.identity.2 :=
  ⟨h.scopes, h.records, h.stackEntries, h.clean⟩

theorem lookup (n : String) : s'.lookup n ⟨s.scopes.size⟩ = bindings.get? n := by
  rw [Store.lookup, lookupFrom, h.scopes, Array.getElem?_push_size]
  dsimp only
  cases bindings.get? n <;> rfl

theorem home (Γ' : Typing) (hΓ : Γ' = Γ.open s o) : s'.Home Γ' s.scopes.size o := by
  subst hΓ
  exact .root (by rw [h.scopes, Array.getElem?_push_size]) rfl (if_pos rfl)

/-- A root scope in which everything is declared may be typed. -/
theorem sound (hs : s.Sound Γ) (hdeclared : o.Declared bindings)
    (hstack : ∀ i, o = .annotated i → i.stack.index < s.stackEntries.length) :
    s'.Sound (Γ.open s o) := by
  have hold : ∀ k < s.scopes.size, Γ.open s o k = Γ k := fun k hk => if_neg hk.ne
  have hmono : ∀ i o', s.Home Γ i o' → s'.Home (Γ.open s o) i o' := fun i o' hi =>
    hi.mono h.grows fun k o'' hk hΓ => (hold k hk).trans hΓ
  refine ⟨?_, ?_⟩
  · intro i o' sc hi hsc
    rw [h.scopes, Array.getElem?_push] at hsc
    split_ifs at hsc with heq
    · cases hsc
      subst heq
      cases hi.unique (h.home _ rfl)
      exact ⟨fun n v hn hv => (h.clean n v hn hv).mono hmono, fun _ => hdeclared, by simp⟩
    · have hlt := (Array.getElem?_eq_some_iff.mp hsc).1
      have hsound := hs.scopes i o' sc (hi.shrink h.grows hold hlt) hsc
      exact ⟨fun n v hn hv => (hsound.clean n v hn hv).mono hmono, hsound.outermost,
        hsound.inside⟩
  · intro k i hk
    rw [h.stackEntries]
    unfold Typing.open at hk
    split_ifs at hk with heq
    · exact hstack i (Option.some.inj hk)
    · exact hs.stack k i hk

end Opened

theorem opened_newScope (Γ : Typing) (o : Origin) (stack : StackId) (s : Store) :
    Opened Γ o stack [] s (s.newScope none stack).2 :=
  ⟨rfl, rfl, rfl, nofun⟩

end Store

namespace Eval

variable {Γ : Typing} {J : Judgement} {scope : ScopeId} {s s' : Store} {o : Origin}
  {modules : Importable} {exports exports' : Fields} {l : List Creation}

/-- The importable modules hold clean values only. -/
def Importable.Clean (home : Nat → Origin → Prop) (modules : Importable) : Prop :=
  ∀ m ∈ modules, ∀ e ∈ m.2, e.2.Clean home

theorem Importable.Clean.find {home : Nat → Origin → Prop} (h : modules.Clean home)
    (specifier : String) {fields : Fields}
    (hf : (modules.find? fun m => m.1 == specifier).map (·.2) = some fields) :
    ∀ e ∈ fields, e.2.Clean home := by
  obtain ⟨m, hm, rfl⟩ := Option.map_eq_some_iff.mp hf
  exact h m (List.mem_of_find?_eq_some hm)

/-- An import binding takes a clean value from a module of clean values, at most a new object. -/
theorem importedValue_eq_ok {home : Nat → Origin → Prop} {found : Option Fields}
    {imported : Imported} {v : Value} (hfound : ∀ fields, found = some fields →
      ∀ e ∈ fields, e.2.Clean home) (h : importedValue found imported s = (.ok v, s')) :
    v.Clean home ∧ (s' = s ∨ s' = s.identity.2) := by
  have hget : ∀ key, ((found.bind (Keyed.get? key)).getD .undefined).Clean home := by
    intro key
    cases found with
    | none => exact .undefined
    | some fields => exact Value.Clean.keyed (hfound fields rfl) key
  cases imported with
  | default =>
    cases h
    exact ⟨hget "default", .inl rfl⟩
  | named n =>
    cases h
    exact ⟨hget n, .inl rfl⟩
  | everything =>
    cases found with
    | none =>
      cases h
      exact ⟨.undefined, .inl rfl⟩
    | some fields =>
      cases h
      exact ⟨.object _ (hfound fields rfl), .inr rfl⟩

theorem bindImports_keeps {found : Option Fields} {bs : List Binding} (hs : s.Sound Γ)
    (hi : s.Home Γ scope.index o)
    (hfound : ∀ fields, found = some fields → ∀ e ∈ fields, e.2.Clean (s.Home Γ))
    (hnames : ∀ b ∈ bs, b.name ∉ o.hidden) (h : bindImports scope found bs s = (.ok (), s')) :
    Keeps Γ s s' [] := by
  induction bs generalizing s with
  | nil =>
    cases h
    exact .refl hs
  | cons b bs ih =>
    rw [List.forall_mem_cons] at hnames
    obtain ⟨v, s₁, hv, hrest⟩ := Attempt.bind_eq_ok.mp h
    obtain ⟨u, s₂, hu, hrest⟩ := Attempt.bind_eq_ok.mp hrest
    cases hu
    obtain ⟨hclean, hstore⟩ := importedValue_eq_ok hfound hv
    have k₁ : Keeps Γ s s₁ [] := by
      rcases hstore with rfl | rfl
      · exact .refl hs
      · exact identity_keeps hs
    have k₂ := declare_keeps k₁.sound (k₁.home hi) hnames.1 (k₁.clean hclean)
    have k := k₁.trans k₂
    exact k.trans (ih k.sound (k.home hi) (fun fields hf e he => k.clean (hfound fields hf e he))
      hnames.2 hrest)

/-- Before the declarations of a module only imports are bound, to clean values. -/
theorem bindImports_opened {s₀ : Store} {stack : StackId} {bindings : Keyed Value}
    {found : Option Fields} {bs : List Binding} (h : Opened Γ o stack bindings s₀ s)
    (hfound : ∀ fields, found = some fields → ∀ e ∈ fields, e.2.Clean (s₀.Home Γ))
    (hnames : ∀ b ∈ bs, b.name ∉ o.hidden) (hfresh : ∀ n ∈ o.hidden, bindings.get? n = none)
    (hb : bindImports ⟨s₀.scopes.size⟩ found bs s = (.ok (), s')) :
    ∃ bindings', Opened Γ o stack bindings' s₀ s' ∧ ∀ n ∈ o.hidden, bindings'.get? n = none := by
  induction bs generalizing s bindings with
  | nil =>
    cases hb
    exact ⟨bindings, h, hfresh⟩
  | cons b bs ih =>
    rw [List.forall_mem_cons] at hnames
    obtain ⟨v, s₁, hv, hrest⟩ := Attempt.bind_eq_ok.mp hb
    obtain ⟨u, s₂, hu, hrest⟩ := Attempt.bind_eq_ok.mp hrest
    cases hu
    obtain ⟨hclean, hstore⟩ := importedValue_eq_ok hfound hv
    have h₁ : Opened Γ o stack bindings s₀ s₁ := by
      rcases hstore with rfl | rfl
      · exact h
      · exact h.identity
    refine ih (h₁.declare (n := b.name) (.inr hclean)) hnames.2 ?_ hrest
    intro n hn
    rw [Keyed.get?_insert_of_ne, hfresh n hn]
    rintro rfl
    exact hnames.1 hn

theorem TopLevel.append_imports {imports rest : List Statement}
    (himports : ∀ st ∈ imports, st.isImport = true)
    (h : TopLevel J modules scope exports (imports ++ rest) s exports' s' l) :
    ∃ s₁, TopLevel J modules scope exports imports s exports s₁ [] ∧
      TopLevel J modules scope exports rest s₁ exports' s' l := by
  induction imports generalizing s with
  | nil => exact ⟨s, .nil, h⟩
  | cons st imports ih =>
    rw [List.forall_mem_cons] at himports
    cases h with
    | imports bound further =>
      obtain ⟨s₁, h₁, h₂⟩ := ih himports.2 further
      exact ⟨s₁, .imports bound h₁, h₂⟩
    | const bound further => cases himports.1
    | expr evaluated further => cases himports.1

theorem TopLevel.imports_opened {s₀ : Store} {stack : StackId} {bindings : Keyed Value}
    {imports : List Statement} (himports : ∀ st ∈ imports, st.isImport = true)
    (h : Opened Γ o stack bindings s₀ s) (hmodules : modules.Clean (s₀.Home Γ))
    (hfits : o.Fits (mentionsOfStatements imports))
    (hfresh : ∀ n ∈ o.hidden, bindings.get? n = none)
    (ht : TopLevel J modules ⟨s₀.scopes.size⟩ exports imports s exports' s' l) :
    ∃ bindings', Opened Γ o stack bindings' s₀ s' ∧ ∀ n ∈ o.hidden, bindings'.get? n = none := by
  induction imports generalizing s bindings with
  | nil =>
    cases ht
    exact ⟨bindings, h, hfresh⟩
  | cons st imports ih =>
    rw [List.forall_mem_cons] at himports
    rw [mentionsOfStatements] at hfits
    cases ht with
    | imports bound further =>
      rw [Statement.mentions] at hfits
      obtain ⟨bindings', h', hfresh'⟩ := bindImports_opened h
        (fun fields hf => hmodules.find _ hf)
        (fun b hb => hfits.left.binder (List.mem_map_of_mem hb)) hfresh bound
      exact ih himports.2 h' hfits.right hfresh' further
    | const bound further => cases himports.1
    | expr evaluated further => cases himports.1

/-- The statements behind the declarations. -/
theorem TopLevel.keeps (hJ : Preserves Γ J) {ss : List Statement} (hs : s.Sound Γ)
    (hi : s.Home Γ scope.index o) (hfits : o.Fits (mentionsOfStatements ss))
    (hmodules : modules.Clean (s.Home Γ)) (hexports : ∀ e ∈ exports, e.2.Clean (s.Home Γ))
    (h : TopLevel J modules scope exports (o.statements ss) s exports' s' l) :
    Keeps Γ s s' l ∧ ∀ e ∈ exports', e.2.Clean (s'.Home Γ) := by
  induction ss generalizing s exports l with
  | nil =>
    rw [Origin.statements_nil] at h
    cases h
    exact ⟨.refl hs, hexports⟩
  | cons st ss ih =>
    rw [Origin.statements_cons] at h
    rw [mentionsOfStatements] at hfits
    have hlater : ∀ {s₁ l₁}, Keeps Γ s s₁ l₁ → modules.Clean (s₁.Home Γ) :=
      fun hk m hm e he => hk.clean (hmodules m hm e he)
    cases st with
    | imports decl =>
      rw [Origin.statement_imports] at h
      rw [Statement.mentions] at hfits
      cases h with
      | imports bound further =>
        have k := bindImports_keeps hs hi (fun fields hf => hmodules.find _ hf)
          (fun b hb => hfits.left.binder (List.mem_map_of_mem hb)) bound
        obtain ⟨k', hexports'⟩ := ih k.sound (k.home hi) hfits.right (hlater k)
          (fun e he => k.clean (hexports e he)) further
        exact ⟨k.trans k', hexports'⟩
    | const exported name e =>
      rw [Origin.statement_const] at h
      rw [Statement.mentions] at hfits
      cases h with
      | const bound further =>
        rename_i s₁ v l₁ l₂
        obtain ⟨k₁, hv⟩ := Named.keeps hJ hs hi hfits.left.tail bound
        have k := k₁.andThen (declare_keeps k₁.sound (k₁.home hi)
          (hfits.left.binder List.mem_cons_self) hv)
        have hv' := (declare_keeps k₁.sound (k₁.home hi)
          (hfits.left.binder List.mem_cons_self) hv).clean hv
        have hnext : ∀ e ∈ (if exported then exports.insert name v else exports),
            e.2.Clean ((s₁.declare scope name v).Home Γ) := by
          split_ifs
          · exact Keyed.forall_mem_insert (fun e he => k.clean (hexports e he)) hv' name
          · exact fun e he => k.clean (hexports e he)
        obtain ⟨k', hexports'⟩ := ih k.sound (k.home hi) hfits.right (hlater k) hnext further
        exact ⟨k.trans k', hexports'⟩
    | returns e =>
      rw [Origin.statement_returns] at h
      cases h
    | returnsNothing =>
      rw [Origin.statement_returnsNothing] at h
      cases h
    | expr e =>
      rw [Origin.statement_expr] at h
      rw [Statement.mentions] at hfits
      cases h with
      | expr evaluated further =>
        obtain ⟨k, -⟩ := hJ _ _ _ _ _ _ _ hs hi hfits.left evaluated
        obtain ⟨k', hexports'⟩ := ih k.sound (k.home hi) hfits.right (hlater k)
          (fun e he => k.clean (hexports e he)) further
        exact ⟨k.trans k', hexports'⟩

/-! ## The declarations of an annotated module -/

/-- What is bound under the generated names cannot be called, so far. -/
def InertOn (names : List String) (bindings : Keyed Value) : Prop :=
  ∀ n ∈ names, ∀ v, bindings.get? n = some v → v.Inert

theorem InertOn.insert {names : List String} {bindings : Keyed Value} {w : Value}
    (h : InertOn names bindings) (hw : w.Inert) (key : String) :
    InertOn names (bindings.insert key w) := by
  intro n hn v hv
  by_cases hkey : n = key
  · subst hkey
    rw [Keyed.get?_insert_self] at hv
    cases hv
    exact hw
  · rw [Keyed.get?_insert_of_ne hkey] at hv
    exact h n hn v hv

/-- The bindings of the root scope of code once its declarations were evaluated. -/
def withDeclared : Origin → Keyed Value → Keyed Value
  | .plain, b => b
  | .annotated i, b =>
    let b := if 0 < i.tally.annotated then b.insert i.names.fileName (.text i.fileName) else b
    if 0 < i.tally.wrapped then
      ((b.insert i.names.stack (.stack i.stack)).insert i.names.recordParent
        (.builtin (.recordParent i.stack))).insert i.names.recordExpression
          (.builtin (.recordExpression i.stack))
    else b

theorem declared_withDeclared {b : Keyed Value} (hfresh : ∀ n ∈ o.hidden, b.get? n = none) :
    o.Declared (withDeclared o b) := by
  cases o with
  | plain => trivial
  | annotated i =>
    obtain ⟨hfs, hfp, hfe, hsp, hse, hpe⟩ := i.names_ne
    have hinert : InertOn i.names.toList b := by
      intro n hn v hv
      rw [hfresh n hn] at hv
      cases hv
    have hinert' := hinert.insert (.text i.fileName) i.names.fileName
    refine ⟨?_, ?_, ?_, ?_⟩
    · show InertOn i.names.toList _
      simp only [withDeclared]
      split_ifs
      · exact ((hinert'.insert (.stack _) _).insert (.builtin _) _).insert (.builtin _) _
      · exact ((hinert.insert (.stack _) _).insert (.builtin _) _).insert (.builtin _) _
      · exact hinert'
      · exact hinert
    · intro hannotated
      simp only [withDeclared, if_pos hannotated]
      split_ifs
      · rw [Keyed.get?_insert_of_ne hfe, Keyed.get?_insert_of_ne hfp, Keyed.get?_insert_of_ne hfs]
        exact Keyed.get?_insert_self _ _ _
      · exact Keyed.get?_insert_self _ _ _
    · intro hwrapped
      simp only [withDeclared, if_pos hwrapped]
      rw [Keyed.get?_insert_of_ne hpe]
      exact Keyed.get?_insert_self _ _ _
    · intro hwrapped
      simp only [withDeclared, if_pos hwrapped]
      exact Keyed.get?_insert_self _ _ _

theorem get?_withDeclared {b : Keyed Value} {n : String} (hn : n ∉ o.hidden) :
    (withDeclared o b).get? n = b.get? n := by
  cases o with
  | plain => rfl
  | annotated i =>
    simp only [Origin.hidden, Names.toList, List.mem_cons, List.not_mem_nil, or_false,
      not_or] at hn
    obtain ⟨hf, hs, hp, he⟩ := hn
    simp only [withDeclared]
    split_ifs <;> simp only [Keyed.get?_insert_of_ne, hf, hs, hp, he, ne_eq, not_false_eq_true]

theorem helper_newStack {id : StackId} (hstack : s.stackOf scope = id) :
    helper scope .newStack s = (.ok (.stack id), s) := hstack ▸ rfl

theorem boundStack_eq {n : String} {id : StackId} (hlookup : s.lookup n scope = some (.stack id)) :
    boundStack n scope s = (.ok id, s) := by
  unfold boundStack
  rw [Attempt.bind_ok (show Attempt.gets _ s = (.ok (s.lookup n scope), s) from rfl), hlookup]
  rfl

theorem helper_recordParent {n : String} {id : StackId}
    (hlookup : s.lookup n scope = some (.stack id)) :
    helper scope (.recordParent n) s = (.ok (.builtin (.recordParent id)), s) := by
  rw [helper, Attempt.bind_ok (boundStack_eq hlookup)]
  rfl

theorem helper_recordExpression {n : String} {id : StackId}
    (hlookup : s.lookup n scope = some (.stack id)) :
    helper scope (.recordExpression n) s = (.ok (.builtin (.recordExpression id)), s) := by
  rw [helper, Attempt.bind_ok (boundStack_eq hlookup)]
  rfl

/-- A declaration that annotation puts in is neither exported nor an arrow function. -/
theorem TopLevel.declared {name : String} {e : Expr} {rest : List Statement}
    (he : ∀ params body, e ≠ .arrow params body)
    (h : TopLevel J modules scope exports (declare name e :: rest) s exports' s' l) :
    ∃ v s₁ l₁ l₂, J scope e s v s₁ l₁ ∧
      TopLevel J modules scope exports rest (s₁.declare scope name v) exports' s' l₂ ∧
      l = l₁ ++ l₂ := by
  cases h with
  | const bound further =>
    cases bound with
    | arrow made => exact absurd rfl (he _ _)
    | other _ evaluated => exact ⟨_, _, _, _, evaluated, further, rfl⟩

theorem TopLevel.append_fileName (hreg : Regular J) {i : Instance} {s₀ : Store} {b : Keyed Value}
    {rest : List Statement} (h : Opened Γ (.annotated i) i.stack b s₀ s)
    (ht : TopLevel J modules ⟨s₀.scopes.size⟩ exports
      ((if i.tally.annotated > 0 then [declare i.names.fileName (.text i.fileName)] else []) ++ rest)
      s exports' s' l) :
    ∃ s₁, Opened Γ (.annotated i) i.stack (if 0 < i.tally.annotated then
        b.insert i.names.fileName (.text i.fileName) else b) s₀ s₁ ∧
      TopLevel J modules ⟨s₀.scopes.size⟩ exports rest s₁ exports' s' l := by
  split_ifs at ht ⊢
  · obtain ⟨v, s₁, l₁, l₂, hv, hrest, rfl⟩ := TopLevel.declared (by simp) ht
    obtain ⟨rfl, rfl, rfl⟩ := hreg.text hv
    exact ⟨_, h.declare (.inr (.text _)), hrest⟩
  · exact ⟨s, h, ht⟩

/-- Once the declarations were evaluated, the root scope holds what the code declares. -/
theorem TopLevel.append_declarations (hreg : Regular J) {stack : StackId}
    (hstack : ∀ i, o = .annotated i → i.stack = stack) {s₀ : Store} {b : Keyed Value}
    {rest : List Statement} (h : Opened Γ o stack b s₀ s) (ht : TopLevel J modules
      ⟨s₀.scopes.size⟩ exports (o.declarations ++ rest) s exports' s' l) :
    ∃ s₁, Opened Γ o stack (withDeclared o b) s₀ s₁ ∧
      TopLevel J modules ⟨s₀.scopes.size⟩ exports rest s₁ exports' s' l := by
  cases o with
  | plain => exact ⟨s, h, ht⟩
  | annotated i =>
    obtain rfl := hstack i rfl
    obtain ⟨hfs, hfp, hfe, hsp, hse, hpe⟩ := i.names_ne
    rw [Origin.declarations, declarations, List.append_assoc] at ht
    obtain ⟨s₁, h₁, ht⟩ := TopLevel.append_fileName hreg h ht
    simp only [withDeclared]
    generalize (if 0 < i.tally.annotated then _ else b) = b₁ at h₁ ⊢
    split_ifs at ht ⊢
    · obtain ⟨v₂, s₂, l₁, l₂, hv₂, ht₂, rfl⟩ := TopLevel.declared (by simp) ht
      obtain ⟨hmade₂, rfl⟩ := hreg.helper hv₂
      have hstackOf : s₁.stackOf ⟨s₀.scopes.size⟩ = i.stack := by
        simp [stackOf, scope?, h₁.scopes]
      cases (helper_newStack hstackOf).symm.trans hmade₂
      have h₂ := h₁.declare (n := i.names.stack) (v := .stack i.stack)
        (.inl (by simp [Origin.hidden, Names.toList]))
      have hlookup₂ : Keyed.get? i.names.stack (b₁.insert i.names.stack (.stack i.stack)) =
          some (.stack i.stack) := Keyed.get?_insert_self _ _ _
      obtain ⟨v₃, s₃, l₃, l₄, hv₃, ht₃, rfl⟩ := TopLevel.declared (by simp) ht₂
      obtain ⟨hmade₃, rfl⟩ := hreg.helper hv₃
      cases (helper_recordParent ((h₂.lookup _).trans hlookup₂)).symm.trans hmade₃
      have h₃ := h₂.declare (n := i.names.recordParent) (v := .builtin (.recordParent i.stack))
        (.inl (by simp [Origin.hidden, Names.toList]))
      have hlookup₃ := (Keyed.get?_insert_of_ne hsp (.builtin (.recordParent i.stack))
        (b₁.insert i.names.stack (.stack i.stack))).trans hlookup₂
      obtain ⟨v₄, s₄, l₅, l₆, hv₄, ht₄, rfl⟩ := TopLevel.declared (by simp) ht₃
      obtain ⟨hmade₄, rfl⟩ := hreg.helper hv₄
      cases (helper_recordExpression ((h₃.lookup _).trans hlookup₃)).symm.trans hmade₄
      exact ⟨_, h₃.declare (.inl (by simp [Origin.hidden, Names.toList])), ht₄⟩
    · exact ⟨s₁, h₁, ht⟩

/-! ## Loading -/

theorem mentionsOfStatements_append (ss ts : List Statement) :
    mentionsOfStatements (ss ++ ts) = mentionsOfStatements ss ++ mentionsOfStatements ts := by
  rw [mentionsOfStatements_eq, mentionsOfStatements_eq, mentionsOfStatements_eq, List.flatMap_append]

/-- What loading does, once its root scope is typed. -/
theorem Opened.keeps {stack : StackId} {bindings : Keyed Value} {s₀ : Store} {rest : List Statement}
    {n : Nat} (hs : s₀.Sound Γ) (h : Opened Γ o stack bindings s₀ s)
    (hdeclared : o.Declared bindings)
    (hstack : ∀ i, o = .annotated i → i.stack.index < s₀.stackEntries.length)
    (hmodules : modules.Clean (s₀.Home Γ)) (hfits : o.Fits (mentionsOfStatements rest))
    (ht : TopLevel (Derives n) modules ⟨s₀.scopes.size⟩ [] (o.statements rest) s exports' s' l) :
    Keeps (Γ.open s₀ o) s₀ s' l ∧ ∀ e ∈ exports', e.2.Clean (s'.Home (Γ.open s₀ o)) := by
  have hsound := h.sound hs hdeclared hstack
  have hmono : ∀ i o', s₀.Home Γ i o' → s.Home (Γ.open s₀ o) i o' := fun i o' hi =>
    hi.mono h.grows fun k o'' hk hΓ => (if_neg hk.ne : Γ.open s₀ o k = Γ k).trans hΓ
  obtain ⟨hkeeps, hexports⟩ := TopLevel.keeps (derives_keeps _ n).1 hsound (h.home _ rfl) hfits
    (fun m hm e he => (hmodules m hm e he).mono hmono) (by simp) ht
  refine ⟨⟨hkeeps.sound, h.grows.trans hkeeps.grows,
    hkeeps.stackEntries.trans h.stackEntries, ?_⟩, hexports⟩
  have hrecords : s.records.size = s₀.records.size := by rw [h.records]
  exact hrecords ▸ hkeeps.accounted

/-- Loading a module keeps the books, be it annotated or not. -/
theorem Loads.keeps {m : Module} {stack : StackId} {n : Nat} (hs : s.Sound Γ) (ho : o.Of m stack)
    (hfits : o.Fits m.mentions) (hstack : stack.index < s.stackEntries.length)
    (hmodules : modules.Clean (s.Home Γ)) (h : Loads n modules stack (o.code m) s exports' s' l) :
    Keeps (Γ.open s o) s s' l ∧ ∀ e ∈ exports', e.2.Clean (s'.Home (Γ.open s o)) := by
  have hparts := hfits
  rw [Module.mentions, ← List.take_append_drop m.leadingImports m.body,
    mentionsOfStatements_append] at hparts
  rw [Loads, Origin.code_body ho] at h
  obtain ⟨s₁, h₁, ht₁⟩ := TopLevel.append_imports (isImport_of_mem_take m) h
  obtain ⟨b₁, ho₁, hfresh⟩ := TopLevel.imports_opened (isImport_of_mem_take m)
    (opened_newScope Γ o stack s) hmodules hparts.left (fun _ _ => rfl) h₁
  obtain ⟨s₂, ho₂, ht₂⟩ :=
    TopLevel.append_declarations (regular_derives n) (fun i hi => (ho i hi).2) ho₁ ht₁
  refine Opened.keeps hs ho₂ (declared_withDeclared hfresh) ?_ hmodules hparts.right ht₂
  exact fun i hi => (ho i hi).2 ▸ hstack

end Eval

end MarkupTrace
