import MarkupTrace.Proofs.Attribution

/-!
# Elements and their records

The last attribute of an annotated element makes its record and, if children are recorded, pushes
it. From there to the last recorded child the record is on top whenever a child is recorded, since
what is evaluated in between leaves the stack as it was; the last one pops it. So everything
recorded against the record is of this element.
-/

namespace MarkupTrace.Eval

open Source Annotate Store

variable {Γ : Typing} {J : Judgement} {scope : ScopeId} {s s' : Store} {v : Value}
  {l : List Creation}

/-- Expressions without parts are evaluated by themselves, and elements come with their creation. -/
structure Regular (J : Judgement) : Prop where
  name : ∀ {scope n s v s' l}, J scope (.name n) s v s' l →
    nameValue scope n s = (.ok v, s) ∧ s' = s ∧ l = []
  this : ∀ {scope s v s' l}, J scope .this s v s' l → v = .undefined ∧ s' = s ∧ l = []
  bool : ∀ {scope b s v s' l}, J scope (.bool b) s v s' l → v = .bool b ∧ s' = s ∧ l = []
  text : ∀ {scope t s v s' l}, J scope (.text t) s v s' l → v = .text t ∧ s' = s ∧ l = []
  location : ∀ {scope p s v s' l}, J scope (.location p) s v s' l →
    v = .location ⟨s.records.size, locationOf p scope s⟩ ∧
      s' = (s.newRecord (locationOf p scope s)).2 ∧ l = []
  helper : ∀ {scope x s v s' l}, J scope (.helper x) s v s' l →
    helper scope x s = (.ok v, s') ∧ l = []
  markup : ∀ {scope e s v s' l}, J scope (.markup e) s v s' l →
    ∃ c ∈ l, c.element = e ∧ v = .element c.value

theorem Steps.regular (J : Judgement) : Regular (Steps J) where
  name h := by cases h with | name found => exact ⟨found, rfl, rfl⟩
  this h := by cases h; exact ⟨rfl, rfl, rfl⟩
  bool h := by cases h; exact ⟨rfl, rfl, rfl⟩
  text h := by cases h; exact ⟨rfl, rfl, rfl⟩
  location h := by
    cases h with
    | location made => cases made; exact ⟨rfl, rfl, rfl⟩
  helper h := by cases h with | helper made => exact ⟨made, rfl⟩
  markup h := by
    cases h with
    | markup created =>
      cases created
      exact ⟨_, List.mem_append_right _ List.mem_cons_self, rfl, rfl⟩

/-- What the calls that annotation puts in do: the one that makes and pushes a record, and the one
that records a child. -/
structure Records (Γ : Typing) (J : Judgement) : Prop where
  source : ∀ {i : Instance} {span scope s v s' l}, s.Sound Γ →
    s.Home Γ scope.index (.annotated i) → 0 < i.tally.annotated → 0 < i.tally.wrapped →
    J scope (i.site.source span true) s v s' l →
      v = .location ⟨s.records.size, i.place span⟩ ∧ l = [] ∧
        s' = (s.newRecord (i.place span)).2.push i.stack ⟨s.records.size, i.place span⟩
  child : ∀ {i : Instance} {e span isExpression isLast scope s v s' l}, s.Sound Γ →
    s.Home Γ scope.index (.annotated i) → 0 < i.tally.annotated → 0 < i.tally.wrapped →
    (Origin.annotated i).Fits e.mentions →
    J scope (i.site.record span (Annotate.expr i.site e) isExpression isLast) s v s' l →
      (∀ t, e = .text t → v = .text t) ∧ ∃ s₁, Keeps Γ s s₁ l ∧ v.Clean (s₁.Home Γ) ∧
        s' = s₁.record i.stack ⟨v, i.place span, isExpression⟩ isLast

/-- The place that a location literal of an annotated module denotes. -/
theorem locationOf_site (h : s.Sound Γ) {i : Instance} (hi : s.Home Γ scope.index (.annotated i))
    (ht : 0 < i.tally.annotated) (span : Text.Span) :
    locationOf (i.site.location span) scope s = i.place span := by
  have hname : s.lookup i.names.fileName scope = some (.text i.fileName) :=
    h.lookup_fileName hi ht
  show Location.mk (((s.lookup i.names.fileName scope).bind Value.text?).getD _) _ _ _ = _
  rw [hname]
  rfl

theorem newRecord_keeps (h : s.Sound Γ) (place : Location) :
    Keeps Γ s (s.newRecord place).2 [] :=
  ⟨h.of_scopes_eq rfl rfl, grows_newRecord place s, rfl, .nil⟩

/-- A name that an annotated module declares as a builtin is called as such, or not at all. -/
theorem builtin_of_nameValue {n : String} {b : Builtin} {f : Value}
    (hlookup : s.lookup n scope = some (.builtin b)) (h : nameValue scope n s = (.ok f, s)) :
    f = .builtin b ∨ f = .undefined := by
  unfold nameValue at h
  split_ifs at h with hundefined
  · cases h
    exact .inr rfl
  · have := (lookup_eq_ok.mp h).1
    rw [hlookup] at this
    exact .inl (Option.some.inj this).symm

theorem Steps.records (hJ : Preserves Γ J) (hreg : Regular J) : Records Γ (Steps J) where
  source := by
    intro i span scope s v s' l hs hi ha hw h
    rw [Site.source, if_pos rfl] at h
    cases h with
    | call evaluated passed called =>
      obtain ⟨hname, rfl, rfl⟩ := hreg.name evaluated
      cases passed with
      | cons head tail =>
        obtain ⟨rfl, rfl, rfl⟩ := hreg.location head
        cases tail
        rw [locationOf_site hs hi ha] at called
        rcases builtin_of_nameValue (hs.lookup_recordParent hi hw) hname with rfl | rfl
        · cases called with
          | builtin done =>
            cases done
            exact ⟨rfl, rfl, rfl⟩
        · cases called
  child := by
    intro i e span isExpression isLast scope s v s' l hs hi ha hw hfits h
    rw [Site.record] at h
    cases h with
    | call evaluated passed called =>
      obtain ⟨hname, rfl, rfl⟩ := hreg.name evaluated
      cases passed with
      | cons head tail =>
        obtain ⟨rfl, rfl, rfl⟩ := hreg.location head
        cases tail with
        | cons value flags =>
          cases flags with
          | cons kind last =>
            obtain ⟨rfl, rfl, rfl⟩ := hreg.bool kind
            cases last with
            | cons last none =>
              obtain ⟨rfl, rfl, rfl⟩ := hreg.bool last
              cases none
              rw [locationOf_site hs hi ha] at called value
              have hrecord := newRecord_keeps hs (i.place span)
              obtain ⟨hkeeps, hclean⟩ := hJ (.annotated i) _ _ _ _ _ _ hrecord.sound
                (hrecord.home hi) hfits value
              rcases builtin_of_nameValue (hs.lookup_recordExpression hi hw) hname with rfl | rfl
              · cases called with
                | builtin done =>
                  cases done
                  refine ⟨?_, _, ?_, hclean, rfl⟩
                  · rintro t rfl
                    rw [Annotate.expr] at value
                    exact (hreg.text value).1
                  · simpa using hrecord.trans hkeeps
              · cases called

/-! ## Attributes -/

structure Given.Clean (home : Nat → Origin → Prop) (g : Given) : Prop where
  props : ∀ e ∈ g.props, e.2.Clean home
  owner : ∀ v, g.owner = some v → v.Clean home
  source : ∀ v, g.source = some v → v.Clean home

theorem Given.Clean.take {home : Nat → Origin → Prop} {g : Given} (hg : g.Clean home)
    (hv : v.Clean home) (name : String) : (g.take name v).Clean home := by
  unfold Given.take
  split_ifs
  · exact ⟨hg.props, fun w hw => by cases hw; exact hv, hg.source⟩
  · exact ⟨hg.props, hg.owner, fun w hw => by cases hw; exact hv⟩
  · exact ⟨Keyed.forall_mem_insert hg.props hv name, hg.owner, hg.source⟩

theorem Given.Clean.mono {home home' : Nat → Origin → Prop} {g : Given} (hg : g.Clean home)
    (h : ∀ i o, home i o → home' i o) : g.Clean home' :=
  ⟨fun e he => (hg.props e he).mono h, fun v hv => (hg.owner v hv).mono h,
    fun v hv => (hg.source v hv).mono h⟩

theorem Attributes.append {g g' : Given} {as bs : List Attribute}
    (h : Attributes J scope g (as ++ bs) s g' s' l) :
    ∃ g₁ s₁ l₁ l₂, Attributes J scope g as s g₁ s₁ l₁ ∧ Attributes J scope g₁ bs s₁ g' s' l₂ ∧
      l = l₁ ++ l₂ := by
  induction as generalizing g s l with
  | nil => exact ⟨g, s, [], l, .nil, h, rfl⟩
  | cons a as ih =>
    cases h with
    | bare further =>
      obtain ⟨g₁, s₁, l₁, l₂, h₁, h₂, rfl⟩ := ih further
      exact ⟨_, _, _, _, .bare h₁, h₂, rfl⟩
    | text further =>
      obtain ⟨g₁, s₁, l₁, l₂, h₁, h₂, rfl⟩ := ih further
      exact ⟨_, _, _, _, .text h₁, h₂, rfl⟩
    | value evaluated further =>
      obtain ⟨g₁, s₁, l₁, l₂, h₁, h₂, rfl⟩ := ih further
      exact ⟨_, _, _, _, .value evaluated h₁, h₂, (List.append_assoc _ _ _).symm⟩
    | spread evaluated taken further =>
      obtain ⟨g₁, s₁, l₁, l₂, h₁, h₂, rfl⟩ := ih further
      exact ⟨_, _, _, _, .spread evaluated taken h₁, h₂, (List.append_assoc _ _ _).symm⟩

theorem Attributes.keeps (hJ : Preserves Γ J) {o : Origin} {as : List Attribute} {g g' : Given}
    (hs : s.Sound Γ) (hi : s.Home Γ scope.index o) (hfits : o.Fits (mentionsOfAttributes as))
    (hg : g.Clean (s.Home Γ)) (h : Attributes J scope g (o.attrs as) s g' s' l) :
    Keeps Γ s s' l ∧ g'.Clean (s'.Home Γ) := by
  induction as generalizing g s l with
  | nil =>
    rw [Origin.attrs_nil] at h
    cases h
    exact ⟨.refl hs, hg⟩
  | cons a as ih =>
    rw [Origin.attrs_cons] at h
    rw [mentionsOfAttributes] at hfits
    cases a with
    | bare name =>
      rw [Origin.attr_bare] at h
      cases h with
      | bare further => exact ih hs hi hfits.right (hg.take (.bool true) name) further
    | text name raw =>
      rw [Origin.attr_text] at h
      cases h with
      | text further => exact ih hs hi hfits.right (hg.take (.text raw) name) further
    | value name e =>
      rw [Origin.attr_value] at h
      rw [Attribute.mentions] at hfits
      cases h with
      | value evaluated further =>
        obtain ⟨hkeeps, hv⟩ := hJ _ _ _ _ _ _ _ hs hi hfits.left evaluated
        have htake := (hg.mono fun _ _ => hkeeps.home).take hv name
        obtain ⟨hkeeps', hg'⟩ := ih hkeeps.sound (hkeeps.home hi) hfits.right htake further
        exact ⟨hkeeps.trans hkeeps', hg'⟩
    | spread e =>
      rw [Origin.attr_spread] at h
      rw [Attribute.mentions] at hfits
      cases h with
      | spread evaluated taken further =>
        obtain ⟨hkeeps, hv⟩ := hJ _ _ _ _ _ _ _ hs hi hfits.left evaluated
        have hg₁ := hg.mono fun _ _ => hkeeps.home
        have hspread : Given.Clean _ { g with props := _ } :=
          ⟨hv.spread hg₁.props taken, hg₁.owner, hg₁.source⟩
        obtain ⟨hkeeps', hg'⟩ := ih hkeeps.sound (hkeeps.home hi) hfits.right hspread further
        exact ⟨hkeeps.trans hkeeps', hg'⟩

/-- The store once an annotated element has its record. -/
def attributedStore (i : Instance) (span : Text.Span) (records : Bool) (s : Store) : Store :=
  if records then (s.newRecord (i.place span)).2.push i.stack ⟨s.records.size, i.place span⟩
  else (s.newRecord (i.place span)).2

/-- Annotation gives an element with no `__source` of the author's its record, after all other
attributes, and any other one none. Nothing else changes. -/
theorem Attributes.added (hreg : Regular J) (hrec : Records Γ J) {o : Origin} {e : Element}
    {g g' : Given} (hs : s.Sound Γ) (hi : s.Home Γ scope.index o) (hfits : o.Fits e.mentions)
    (h : Attributes J scope g (o.added e) s g' s' l) :
    l = [] ∧ g'.props = g.props ∧ (∀ v, g'.owner = some v → g.owner = some v ∨ v = .undefined) ∧
      ((g'.source = g.source ∧ s' = s ∧ o.records e = false ∧
          ∀ i, o = .annotated i → e.hasAttribute sourceAttribute = true) ∨
        ∃ i, o = .annotated i ∧ e.hasAttribute sourceAttribute = false ∧
          g'.source = some (.location ⟨s.records.size, i.place e.span⟩) ∧
          s' = attributedStore i e.span (o.records e) s) := by
  cases o with
  | plain =>
    cases h
    exact ⟨rfl, rfl, fun v hv => .inl hv, .inl ⟨rfl, rfl, rfl, nofun⟩⟩
  | annotated i =>
    obtain ⟨g₁, s₁, l₁, l₂, hself, hsource, rfl⟩ := Attributes.append h
    have hself : g₁.props = g.props ∧ g₁.source = g.source ∧
        (∀ v, g₁.owner = some v → g.owner = some v ∨ v = .undefined) ∧ s₁ = s ∧ l₁ = [] := by
      split_ifs at hself with huser
      · cases hself
        exact ⟨rfl, rfl, fun v hv => .inl hv, rfl, rfl⟩
      · cases hself with
        | value evaluated further =>
          obtain ⟨rfl, rfl, rfl⟩ := hreg.this evaluated
          cases further
          exact ⟨rfl, rfl, fun v hv => .inr (Option.some.inj hv).symm, rfl, rfl⟩
    obtain ⟨hprops, hsame, howner, rfl, rfl⟩ := hself
    cases huser : e.hasAttribute sourceAttribute with
    | true =>
      rw [huser] at hsource
      cases hsource
      have hrecords : recordsChildren e = false := by simp [recordsChildren, huser]
      exact ⟨rfl, hprops, howner, .inl ⟨hsame, rfl, hrecords, fun _ _ => rfl⟩⟩
    | false =>
      rw [huser] at hsource
      have hcount : 0 < i.tally.annotated ∧ (recordsChildren e = true → 0 < i.tally.wrapped) := by
        refine hfits.counts (recordsChildren e) ?_
        cases e
        simp only [Element.mentions, List.mem_append]
        exact .inr (.inl (by simp [huser]))
      cases hsource with
      | @value _ _ _ _ _ _ _ _ v l₁ _ evaluated further =>
        cases further
        have hv : v = .location ⟨s₁.records.size, i.place e.span⟩ ∧
            s' = attributedStore i e.span (recordsChildren e) s₁ ∧ l₁ = [] := by
          unfold attributedStore
          cases hrecords : recordsChildren e with
          | true =>
            rw [hrecords] at evaluated
            obtain ⟨rfl, rfl, rfl⟩ := hrec.source hs hi hcount.1 (hcount.2 hrecords) evaluated
            exact ⟨rfl, rfl, rfl⟩
          | false =>
            rw [hrecords, Site.source, if_neg Bool.false_ne_true] at evaluated
            obtain ⟨rfl, rfl, rfl⟩ := hreg.location evaluated
            rw [locationOf_site hs hi hcount.1]
            exact ⟨rfl, rfl, rfl⟩
        obtain ⟨rfl, rfl, rfl⟩ := hv
        exact ⟨rfl, hprops, howner, .inr ⟨i, rfl, rfl, rfl, rfl⟩⟩

/-! ## Children -/

theorem Contributed.keeps (hJ : Preserves Γ J) (hreg : Regular J) {o : Origin} {c : Child}
    {isLast : Bool} {w : Option Value} (hs : s.Sound Γ) (hi : s.Home Γ scope.index o)
    (hfits : o.Fits c.mentions) (h : Contributed J scope (o.child false isLast c) s w s' l) :
    Keeps Γ s s' l ∧ (∀ v, w = some v → v.Clean (s'.Home Γ)) ∧ Contributes o l c w := by
  cases c with
  | text t =>
    rw [Origin.child_text_unrecorded] at h
    cases h with
    | hidden empty => exact ⟨.refl hs, nofun, by simp [Contributes, empty]⟩
    | text shown =>
      refine ⟨.refl hs, ?_, by simp [Contributes, shown]⟩
      intro v hv
      cases hv
      exact .text _
  | emptyContainer span =>
    rw [Origin.child_emptyContainer] at h
    cases h
    exact ⟨.refl hs, nofun, rfl⟩
  | container e span =>
    rw [Origin.child_container_unrecorded] at h
    rw [Child.mentions] at hfits
    cases h with
    | container evaluated =>
      obtain ⟨hkeeps, hv⟩ := hJ _ _ _ _ _ _ _ hs hi hfits evaluated
      exact ⟨hkeeps, fun _ hw => Option.some.inj hw ▸ hv, _, rfl⟩
  | element e =>
    rw [Origin.child_element] at h
    rw [Child.mentions] at hfits
    cases h with
    | element evaluated =>
      obtain ⟨c, hc, helement, rfl⟩ := hreg.markup evaluated
      obtain ⟨hkeeps, hv⟩ := hJ o scope (.markup e) _ _ _ _ hs hi (by rwa [Expr.mentions])
        (by rwa [Origin.expr_markup])
      exact ⟨hkeeps, fun _ hw => Option.some.inj hw ▸ hv, c, hc, helement, rfl⟩

/-- Children that are not recorded. -/
theorem Children.keeps (hJ : Preserves Γ J) (hreg : Regular J) {o : Origin} {cs : List Child}
    {given : List (Option Value)} (hs : s.Sound Γ) (hi : s.Home Γ scope.index o)
    (hfits : o.Fits (mentionsOfChildren cs))
    (h : Children J scope (o.children false cs) s given s' l) :
    Keeps Γ s s' l ∧ (∀ v, some v ∈ given → v.Clean (s'.Home Γ)) ∧
      List.Forall₂ (Contributes o l) cs given := by
  induction cs generalizing s given l with
  | nil =>
    rw [Origin.children_nil] at h
    cases h
    exact ⟨.refl hs, nofun, .nil⟩
  | cons c cs ih =>
    rw [Origin.children_cons] at h
    rw [mentionsOfChildren] at hfits
    cases h with
    | @cons _ _ _ _ _ w ws l₁ l₂ head tail =>
      obtain ⟨hkeeps, hv, hc⟩ := Contributed.keeps hJ hreg hs hi hfits.left head
      obtain ⟨hkeeps', hvs, hcs⟩ := ih hkeeps.sound (hkeeps.home hi) hfits.right tail
      refine ⟨hkeeps.trans hkeeps', ?_, .cons ?_ ?_⟩
      · intro v hmem
        rcases List.mem_cons.mp hmem with hw | hmem
        · exact hkeeps'.clean (hv v hw.symm)
        · exact hvs v hmem
      · exact hc.mono (List.subset_append_left l₁ l₂)
      · exact hcs.imp fun _ _ h => h.mono (List.subset_append_right l₁ l₂)

/-- What the recorded children of an element do to the store, with the element's record on top of
the stack as long as there are some. -/
structure KeepsBut (Γ : Typing) (i : Instance) (r : RecordRef) (xs : List Recorded) (pops : Bool)
    (s s' : Store) (log : List Creation) : Prop where
  sound : s'.Sound Γ
  grows : s.Grows (some r.index) s'
  stackEntries : s'.stackEntries =
    if pops then s.stackEntries.modify i.stack.index List.tail else s.stackEntries
  recorded : s'.recorded r = s.recorded r ++ xs
  accounted : Accounted Γ (r.index + 1) s' log

theorem Keeps.but {i : Instance} {r : RecordRef} (h : Keeps Γ s s' l)
    (hr : r.index < s.records.size) : KeepsBut Γ i r [] false s s' l where
  sound := h.sound
  grows := h.grows.weaken
  stackEntries := h.stackEntries
  recorded := by rw [h.grows.recorded hr nofun, List.append_nil]
  accounted := fun c hc => ⟨(Nat.succ_le_of_lt hr).trans (h.accounted c hc).1, (h.accounted c hc).2⟩

theorem KeepsBut.trans {i : Instance} {r : RecordRef} {xs ys : List Recorded} {p q : Bool}
    {s₁ s₂ : Store} {l₁ l₂ : List Creation} (h₁ : KeepsBut Γ i r xs p s s₁ l₁)
    (h₂ : KeepsBut Γ i r ys q s₁ s₂ l₂) (hpq : p = true → q = false) :
    KeepsBut Γ i r (xs ++ ys) (p || q) s s₂ (l₁ ++ l₂) where
  sound := h₂.sound
  grows := h₁.grows.trans h₂.grows
  stackEntries := by
    rw [h₂.stackEntries, h₁.stackEntries]
    cases p with
    | true => simp [hpq rfl]
    | false => simp
  recorded := by rw [h₂.recorded, h₁.recorded, List.append_assoc]
  accounted := by
    refine h₁.accounted.append h₂.grows ?_ h₂.accounted le_rfl
    intro k hk
    cases hk
    exact Nat.lt_succ_self _

/-- A child that is recorded, its call being on top of what its value does. -/
theorem Keeps.record {i : Instance} {r : RecordRef} {rest : List RecordRef} {s₁ : Store}
    (h : Keeps Γ s s₁ l) (hr : r.index < s.records.size)
    (htop : s.stackEntries[i.stack.index]? = some (r :: rest)) (x : Recorded) (isLast : Bool) :
    KeepsBut Γ i r [x] isLast s (s₁.record i.stack x isLast) l := by
  have htop₁ : s₁.stackEntries[i.stack.index]? = some (r :: rest) := by rw [h.stackEntries, htop]
  have hr₁ : r.index < s₁.records.size := hr.trans_le h.grows.size
  have hgrows := grows_record htop₁ x isLast
  refine ⟨?_, h.grows.weaken.trans hgrows, ?_, ?_, ?_⟩
  · refine h.sound.of_scopes_eq (scopes_record _ x isLast s₁) ?_
    rw [stackEntries_record htop₁]
    split_ifs <;> simp
  · rw [stackEntries_record htop₁, h.stackEntries]
  · rw [recorded_record htop₁ x isLast hr₁, h.grows.recorded hr nofun]
  · have hbut := (h.but (i := i) hr).accounted
    exact hbut.grow hgrows (fun k hk => by cases hk; exact Nat.lt_succ_self _) (List.Subset.refl l)

theorem Contributed.keepsBut (hJ : Preserves Γ J) (hreg : Regular J) (hrec : Records Γ J)
    {i : Instance} {r : RecordRef} {rest : List RecordRef} {c : Child} {isLast : Bool}
    {w : Option Value} (hs : s.Sound Γ) (hi : s.Home Γ scope.index (.annotated i))
    (hfits : (Origin.annotated i).Fits c.mentions) (ha : 0 < i.tally.annotated)
    (hw : 0 < i.tally.wrapped) (hr : r.index < s.records.size)
    (htop : c.isWrappable = true → s.stackEntries[i.stack.index]? = some (r :: rest))
    (h : Contributed J scope ((Origin.annotated i).child true isLast c) s w s' l) :
    KeepsBut Γ i r (i.recordOf? c w).toList (c.isWrappable && isLast) s s' l ∧
      (∀ v, w = some v → v.Clean (s'.Home Γ)) ∧ Contributes (.annotated i) l c w := by
  -- A child that cannot be recorded is the same code as where children are not recorded.
  have hunrecorded : ∀ {c : Child}, c.isWrappable = false → i.recordOf? c w = none →
      (Origin.annotated i).Fits c.mentions →
      Contributed J scope ((Origin.annotated i).child false isLast c) s w s' l →
      KeepsBut Γ i r (i.recordOf? c w).toList (c.isWrappable && isLast) s s' l ∧
        (∀ v, w = some v → v.Clean (s'.Home Γ)) ∧ Contributes (.annotated i) l c w := by
    intro c hc hnone hfits h
    obtain ⟨hkeeps, hclean, hcontributes⟩ := Contributed.keeps hJ hreg hs hi hfits h
    rw [hnone, hc]
    exact ⟨hkeeps.but hr, hclean, hcontributes⟩
  cases c with
  | text t =>
    cases hsignificant : t.isSignificant with
    | false =>
      refine hunrecorded hsignificant (by simp [Instance.recordOf?, hsignificant]) hfits ?_
      simpa [Origin.child, Annotate.child, hsignificant] using h
    | true =>
      simp only [Origin.child, Annotate.child, hsignificant, Bool.and_self, if_true] at h
      cases h with
      | @container _ _ _ _ x _ evaluated =>
        have hfits' : (Origin.annotated i).Fits (Expr.text t.cooked).mentions := by
          simpa only [Expr.mentions, Child.mentions] using hfits
        rw [← Annotate.expr] at evaluated
        obtain ⟨htext, s₁, hkeeps, hclean, rfl⟩ := hrec.child hs hi ha hw hfits' evaluated
        have hrecord := hkeeps.record hr (htop hsignificant) ⟨x, i.place t.trimmedSpan, false⟩ isLast
        refine ⟨?_, ?_, ?_⟩
        · simpa [Instance.recordOf?, Child.isWrappable, hsignificant] using hrecord
        · intro v hv
          cases hv
          exact hclean.mono fun _ _ hk => hk.of_scopes_eq (scopes_record _ _ _ _)
        · rw [htext _ rfl]
          simp [Contributes, MarkupText.cooked_ne_empty hsignificant]
  | emptyContainer span =>
    refine hunrecorded rfl rfl hfits ?_
    simpa only [Origin.child_emptyContainer] using h
  | element e =>
    refine hunrecorded rfl rfl hfits ?_
    simpa only [Origin.child_element] using h
  | container e span =>
    simp only [Origin.child, Annotate.child, if_true] at h
    rw [Child.mentions] at hfits
    cases h with
    | @container _ _ _ _ x _ evaluated =>
      obtain ⟨-, s₁, hkeeps, hclean, rfl⟩ := hrec.child hs hi ha hw hfits evaluated
      have hrecord := hkeeps.record hr (htop rfl) ⟨x, i.place span, true⟩ isLast
      refine ⟨hrecord, ?_, x, rfl⟩
      intro v hv
      cases hv
      exact hclean.mono fun _ _ hk => hk.of_scopes_eq (scopes_record _ _ _ _)

/-- The recorded children of an element: by induction, where the record stays on top as long as a
further child is to be recorded. -/
theorem Children.keepsBut (hJ : Preserves Γ J) (hreg : Regular J) (hrec : Records Γ J)
    {i : Instance} {r : RecordRef} {rest : List RecordRef} {cs : List Child}
    {given : List (Option Value)} (hs : s.Sound Γ) (hi : s.Home Γ scope.index (.annotated i))
    (hfits : (Origin.annotated i).Fits (mentionsOfChildren cs)) (ha : 0 < i.tally.annotated)
    (hw : 0 < i.tally.wrapped) (hr : r.index < s.records.size)
    (htop : cs.any Child.isWrappable = true →
      s.stackEntries[i.stack.index]? = some (r :: rest))
    (h : Children J scope ((Origin.annotated i).children true cs) s given s' l) :
    KeepsBut Γ i r (i.recordsOf cs given) (cs.any Child.isWrappable) s s' l ∧
      (∀ v, some v ∈ given → v.Clean (s'.Home Γ)) ∧
      List.Forall₂ (Contributes (.annotated i) l) cs given := by
  induction cs generalizing s given l with
  | nil =>
    rw [Origin.children_nil] at h
    cases h
    exact ⟨(Keeps.refl hs).but hr, nofun, .nil⟩
  | cons c cs ih =>
    rw [Origin.children_cons] at h
    rw [mentionsOfChildren] at hfits
    cases h with
    | @cons _ _ _ s₁ _ w ws l₁ l₂ head tail =>
      obtain ⟨hkeeps, hv, hc⟩ := Contributed.keepsBut hJ hreg hrec hs hi hfits.left ha hw hr
        (fun hc => htop (by rw [List.any_cons, hc, Bool.true_or])) head
      have htop₁ : cs.any Child.isWrappable = true →
          s₁.stackEntries[i.stack.index]? = some (r :: rest) := by
        intro hany
        rw [hkeeps.stackEntries, hany, Bool.not_true, Bool.and_false, if_neg Bool.false_ne_true]
        exact htop (by rw [List.any_cons, hany, Bool.or_true])
      obtain ⟨hkeeps', hvs, hcs⟩ := ih hkeeps.sound (hi.grow hkeeps.grows) hfits.right
        (hr.trans_le hkeeps.grows.size) htop₁ tail
      refine ⟨?_, ?_, .cons ?_ ?_⟩
      · have hboth := hkeeps.trans hkeeps' (by simp)
        have hpops : (c.isWrappable && !cs.any Child.isWrappable || cs.any Child.isWrappable) =
            (c :: cs).any Child.isWrappable := by
          rw [List.any_cons]
          cases c.isWrappable <;> cases cs.any Child.isWrappable <;> rfl
        rwa [hpops] at hboth
      · intro v hmem
        rcases List.mem_cons.mp hmem with hw' | hmem
        · exact (hv v hw'.symm).mono fun _ _ hk => hk.grow hkeeps'.grows
        · exact hvs v hmem
      · exact hc.mono (List.subset_append_left l₁ l₂)
      · exact hcs.imp fun _ _ h => h.mono (List.subset_append_right l₁ l₂)

/-! ## Elements -/

theorem withChildren_keeps {props props' : Fields} {vs : List Value} (hs : s.Sound Γ)
    (hprops : ∀ e ∈ props, e.2.Clean (s.Home Γ)) (hvs : ∀ v ∈ vs, v.Clean (s.Home Γ))
    (h : withChildren props vs s = (.ok props', s')) :
    Keeps Γ s s' [] ∧ (∀ e ∈ props', e.2.Clean (s'.Home Γ)) ∧ Gathered props' vs := by
  match vs, hvs, h with
  | [], _, h =>
    cases h
    exact ⟨.refl hs, hprops, trivial⟩
  | [v], hvs, h =>
    cases h
    exact ⟨.refl hs, Keyed.forall_mem_insert hprops (hvs v List.mem_cons_self) _,
      Keyed.get?_insert_self _ _ _⟩
  | v :: w :: vs, hvs, h =>
    obtain ⟨a, s₁, ha, h⟩ := Attempt.bind_eq_ok.mp h
    obtain ⟨hkeeps, hclean⟩ := array_keeps hs hvs ha
    cases ha
    cases h
    exact ⟨hkeeps, Keyed.forall_mem_insert (fun e he => hkeeps.clean (hprops e he)) hclean _, _,
      Keyed.get?_insert_self _ _ _⟩

theorem element_eq_ok {type : ElementType} {props : Fields} {owner source : Option Value}
    {c : CreatedElement Value} (h : Run.element type props owner source s = (.ok (.element c), s')) :
    c = ⟨s.next + 1, type, s.next, props, owner, source⟩ ∧ s' = { s with next := s.next + 2 } := by
  cases h
  exact ⟨rfl, rfl⟩

/-- The children of an element that has just got its record. -/
theorem Children.attributed (hJ : Preserves Γ J) (hreg : Regular J) (hrec : Records Γ J)
    {i : Instance} {e : Element} {given : List (Option Value)} (hs : s.Sound Γ)
    (hi : s.Home Γ scope.index (.annotated i)) (hfits : (Origin.annotated i).Fits e.mentions)
    (huser : e.hasAttribute sourceAttribute = false)
    (h : Children J scope ((Origin.annotated i).children (recordsChildren e) e.content.toList)
      (attributedStore i e.span (recordsChildren e) s) given s' l) :
    Keeps Γ s s' l ∧ (∀ v, some v ∈ given → v.Clean (s'.Home Γ)) ∧
      List.Forall₂ (Contributes (.annotated i) l) e.content.toList given ∧
      s.records.size < s'.records.size ∧
      s'.recorded ⟨s.records.size, i.place e.span⟩ = i.recordsOf e.content.toList given := by
  rw [Element.mentions_eq, huser, if_neg Bool.false_ne_true] at hfits
  have hcount := hfits.counts (recordsChildren e) (by simp)
  have hany : recordsChildren e = e.content.toList.any Child.isWrappable := by
    simp [recordsChildren, huser]
  have hnew := newRecord_keeps hs (i.place e.span)
  have hsize : (s.newRecord (i.place e.span)).2.records.size = s.records.size + 1 := by
    simp [newRecord]
  have hempty := recorded_newRecord (i.place e.span) s
  cases hrecords : recordsChildren e with
  | false =>
    rw [hrecords] at h hany
    obtain ⟨hkeeps, hvs, hcs⟩ := Children.keeps hJ hreg hnew.sound (hnew.home hi)
      hfits.right.right.right h
    have hlt : s.records.size < (s.newRecord (i.place e.span)).2.records.size := by omega
    refine ⟨hnew.trans hkeeps, hvs, hcs, hlt.trans_le hkeeps.grows.size, ?_⟩
    rw [hkeeps.grows.recorded (r := ⟨s.records.size, i.place e.span⟩) hlt (by simp),
      i.recordsOf_of_not_wrappable hany.symm]
    exact hempty
  | true =>
    rw [hrecords] at h hany
    have hscopes : (attributedStore i e.span true s).scopes = s.scopes := rfl
    have hsound : (attributedStore i e.span true s).Sound Γ :=
      hs.of_scopes_eq hscopes (by simp [attributedStore, push, newRecord])
    have htop : (attributedStore i e.span true s).stackEntries[i.stack.index]? =
        some (⟨s.records.size, i.place e.span⟩ :: s.entries i.stack) := by
      have hlt := hs.stack_lt hi
      simp [attributedStore, push, newRecord, entries, hlt]
    have hgrows : s.Grows none (attributedStore i e.span true s) :=
      ⟨hnew.grows.scopes, hnew.grows.size, hnew.grows.records⟩
    have hlt : s.records.size < (attributedStore i e.span true s).records.size :=
      hsize ▸ Nat.lt_succ_self _
    obtain ⟨hkeeps, hvs, hcs⟩ := Children.keepsBut (r := ⟨s.records.size, i.place e.span⟩) hJ hreg
      hrec hsound (hi.grow hgrows) hfits.right.right.right hcount.1 (hcount.2 hrecords) hlt
      (fun _ => htop) h
    refine ⟨⟨hkeeps.sound, ?_, ?_, ?_⟩, hvs, hcs, hlt.trans_le hkeeps.grows.size, ?_⟩
    · exact (hgrows.weaken.trans hkeeps.grows).strengthen le_rfl
    · rw [hkeeps.stackEntries, ← hany, if_pos rfl]
      have hpop : (List.tail ∘ fun es => (⟨s.records.size, i.place e.span⟩ : RecordRef) :: es) =
          id := rfl
      simp only [attributedStore, if_true, push, newRecord, List.modify_modify_eq, hpop,
        List.modify_id]
    · intro c hc
      obtain ⟨hle, hfrom⟩ := hkeeps.accounted c hc
      exact ⟨(Nat.le_succ _).trans hle, hfrom⟩
    · rw [hkeeps.recorded]
      exact hempty ▸ rfl

/-- An evaluation that ends with an element it accounts for. -/
theorem Keeps.create {c : Creation} (h : Keeps Γ s s' l) (hbefore : c.before = s.records.size)
    {o : Origin} {e : Element} (hi : s'.Home Γ c.scope.index o) (hfits : o.Fits e.mentions)
    (hc : c.From o e s' (l ++ [c])) : Keeps Γ s s' (l ++ [c]) := by
  refine ⟨h.sound, h.grows, h.stackEntries, ?_⟩
  intro c' hc'
  rcases List.mem_append.mp hc' with hc' | hc'
  · exact h.accounted.grow (show s'.Grows none s' from .refl s') nofun
      (List.subset_append_left _ _) c' hc'
  · cases List.mem_singleton.mp hc'
    exact ⟨hbefore.ge, o, e, hi, hfits, hc⟩

/-- An element is created: its attributes, its record if it gets one, its children, and then the
element itself. -/
theorem Created.keeps (hJ : Preserves Γ J) (hreg : Regular J) (hrec : Records Γ J) {o : Origin}
    {e : Element} {c : CreatedElement Value} (hs : s.Sound Γ) (hi : s.Home Γ scope.index o)
    (hfits : o.Fits e.mentions) (h : Created J scope (o.element e) s c s' l) :
    Keeps Γ s s' l ∧ Value.Clean (s'.Home Γ) (.element c) := by
  cases h with
  | mk found attributes children gathered made =>
    rename_i s₁ s₂ s₃ type g given props l₁ l₂
    have hparts := hfits
    rw [Element.mentions_eq] at hparts
    rw [Origin.element_name] at found
    rw [Origin.element_attributes] at attributes
    rw [Origin.element_content] at children
    obtain ⟨g₁, sa, la, lb, hattrs, hadded, rfl⟩ := Attributes.append attributes
    have hempty : Given.Clean (s.Home Γ) ⟨[], none, none⟩ := ⟨by simp, nofun, nofun⟩
    obtain ⟨ka, hg₁⟩ := Attributes.keeps hJ hs hi hparts.right.right.left hempty hattrs
    obtain ⟨rfl, hprops, howner, hcase⟩ :=
      Attributes.added hreg hrec ka.sound (ka.home hi) hfits hadded
    -- The children, and what becomes of the element's record.
    have hchildren : Keeps Γ sa s₂ l₂ ∧ (∀ v, some v ∈ given → v.Clean (s₂.Home Γ)) ∧
        List.Forall₂ (Contributes o l₂) e.content.toList given ∧
        (∀ v, g.source = some v → v.Clean (s₂.Home Γ)) ∧
        ∀ i, o = .annotated i → e.hasAttribute sourceAttribute = false →
          ∃ r : RecordRef, g.source = some (.location r) ∧ s.records.size ≤ r.index ∧
            r.index < s₂.records.size ∧ r.place = i.place e.span ∧
            s₂.recorded r = i.recordsOf e.content.toList given := by
      rcases hcase with ⟨hsource, rfl, hrecords, huser⟩ | ⟨i, rfl, huser, hsource, rfl⟩
      · rw [hrecords] at children
        obtain ⟨kc, hvs, hcs⟩ := Children.keeps hJ hreg ka.sound (ka.home hi)
          hparts.right.right.right children
        refine ⟨kc, hvs, hcs, ?_, ?_⟩
        · intro v hv
          exact kc.clean (hg₁.source v (hsource ▸ hv))
        · intro i ho hno
          rw [huser i ho] at hno
          cases hno
      · obtain ⟨kc, hvs, hcs, hlt, hrecorded⟩ := Children.attributed hJ hreg hrec ka.sound
          (ka.home hi) hfits huser children
        refine ⟨kc, hvs, hcs, ?_, ?_⟩
        · intro v hv
          rw [hsource] at hv
          cases hv
          exact .location _
        · intro j hj _
          cases hj
          exact ⟨_, hsource, ka.grows.size, hlt, rfl, hrecorded⟩
    obtain ⟨kc, hvs, hcs, hsource, hattributed⟩ := hchildren
    obtain ⟨kg, hprops', hgathered⟩ := withChildren_keeps kc.sound
      (fun x hx => kc.clean (hg₁.props x (hprops ▸ hx))) (fun v hv => hvs v (by simpa using hv))
      gathered
    obtain ⟨rfl, rfl⟩ := element_eq_ok made
    have ke : Keeps Γ s₃ { s₃ with next := s₃.next + 2 } [] := .of_eq kg.sound rfl rfl rfl
    have kend := kg.andThen ke
    have kall := (ka.trans kc).andThen kend
    rw [List.append_nil]
    refine ⟨kall.create rfl (kall.home hi) hfits ⟨rfl, ?_, hgathered, ?_⟩, .element ?_ ?_ ?_ ?_⟩
    · refine hcs.imp fun _ _ hv => hv.mono fun x hx => ?_
      exact List.mem_append_left _ (List.mem_append_right la hx)
    · intro i ho hno
      obtain ⟨r, hr, hfresh, hlt, hplace, hrecorded⟩ := hattributed i ho hno
      exact ⟨r, hr, hfresh, hlt.trans_le kend.grows.size, hplace,
        (kend.grows.recorded hlt nofun).trans hrecorded⟩
    · intro f hf
      obtain ⟨o', b, hhome, hbody⟩ := elementType_clean hs hi found f hf
      exact ⟨o', b, kall.home hhome, hbody⟩
    · exact fun x hx => ke.clean (hprops' x hx)
    · intro v hv
      rcases howner v hv with hv | rfl
      · exact kend.clean (kc.clean (hg₁.owner v hv))
      · exact .undefined
    · exact fun v hv => kend.clean (hsource v hv)

/-! ## All expressions -/

theorem Steps.keeps (hJ : Preserves Γ J) (hreg : Regular J) (hrec : Records Γ J) :
    Preserves Γ (Steps J) := by
  intro o scope e s s' v l hs hi hfits h
  cases e with
  | text t =>
    rw [Origin.expr_text] at h
    cases h
    exact ⟨.refl hs, .text t⟩
  | number n =>
    rw [Origin.expr_number] at h
    cases h
    exact ⟨.refl hs, .number n⟩
  | bool b =>
    rw [Origin.expr_bool] at h
    cases h
    exact ⟨.refl hs, .bool b⟩
  | null =>
    rw [Origin.expr_null] at h
    cases h
    exact ⟨.refl hs, .null⟩
  | this =>
    rw [Origin.expr_this] at h
    cases h
    exact ⟨.refl hs, .undefined⟩
  | name n =>
    rw [Origin.expr_name] at h
    rw [Expr.mentions] at hfits
    cases h with
    | name found =>
      exact ⟨.refl hs, nameValue_clean hs hi (hfits.identifier List.mem_cons_self) found⟩
  | member e p =>
    rw [Origin.expr_member] at h
    rw [Expr.mentions] at hfits
    cases h with
    | member evaluated read =>
      obtain ⟨hkeeps, hv⟩ := hJ _ _ _ _ _ _ _ hs hi hfits.tail evaluated
      exact ⟨hkeeps, hv.get? read⟩
  | call callee arguments =>
    rw [Origin.expr_call] at h
    rw [Expr.mentions] at hfits
    cases h with
    | call evaluated passed called =>
      obtain ⟨k₁, hf⟩ := hJ _ _ _ _ _ _ _ hs hi hfits.left evaluated
      obtain ⟨k₂, hvs⟩ := Items.keeps hJ k₁.sound (k₁.home hi) hfits.right passed
      obtain ⟨k₃, hv⟩ := Called.keeps hJ k₂.sound (k₂.clean hf) hvs called
      exact ⟨(k₁.trans k₂).trans k₃, hv⟩
  | arrow params b =>
    rw [Origin.expr_arrow] at h
    rw [Expr.mentions] at hfits
    cases h with
    | arrow made => exact closure_keeps hs hi hfits made
  | object ps =>
    rw [Origin.expr_object] at h
    rw [Expr.mentions] at hfits
    cases h with
    | object evaluated made =>
      obtain ⟨hkeeps, hfields⟩ := FieldsOf.keeps hJ hs hi hfits (by simp) evaluated
      obtain ⟨hmade, hv⟩ := object_keeps hkeeps.sound hfields made
      exact ⟨hkeeps.andThen hmade, hv⟩
  | array items =>
    rw [Origin.expr_array] at h
    rw [Expr.mentions] at hfits
    cases h with
    | array evaluated made =>
      obtain ⟨hkeeps, hvs⟩ := Items.keeps hJ hs hi hfits evaluated
      obtain ⟨hmade, hv⟩ := array_keeps hkeeps.sound hvs made
      exact ⟨hkeeps.andThen hmade, hv⟩
  | paren e =>
    rw [Origin.expr_paren] at h
    rw [Expr.mentions] at hfits
    cases h with
    | paren evaluated => exact hJ _ _ _ _ _ _ _ hs hi hfits evaluated
  | markup e =>
    rw [Origin.expr_markup] at h
    rw [Expr.mentions] at hfits
    cases h with
    | markup created => exact Created.keeps hJ hreg hrec hs hi hfits created
  | location literal =>
    rw [Expr.mentions] at hfits
    exact absurd List.mem_cons_self hfits.written
  | helper x =>
    rw [Expr.mentions] at hfits
    exact absurd List.mem_cons_self hfits.written

theorem regular_derives (n : Nat) : Regular (Derives n) := by
  cases n with
  | zero =>
    refine ⟨?_, ?_, ?_, ?_, ?_, ?_, ?_⟩ <;>
    · intros
      contradiction
  | succ n => exact Steps.regular _

/-- By induction on the depth. The calls that annotation puts in are one level deeper than what they
record. -/
theorem derives_keeps (Γ : Typing) (n : Nat) :
    Preserves Γ (Derives n) ∧ Records Γ (Derives n) := by
  induction n with
  | zero =>
    refine ⟨?_, ⟨?_, ?_⟩⟩
    · intro o scope e s s' v l hs hi hfits h
      cases h
    · intro i span scope s v s' l hs hi ha hw h
      cases h
    · intro i e span isExpression isLast scope s v s' l hs hi ha hw hfits h
      cases h
  | succ n ih =>
    obtain ⟨hJ, hrec⟩ := ih
    have hreg := regular_derives n
    exact ⟨Steps.keeps hJ hreg hrec, Steps.records hJ hreg⟩

end MarkupTrace.Eval
