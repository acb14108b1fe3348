import MarkupTrace.Proofs.GrammarStarts
import Mathlib.Data.List.Forall2

/-!
# Printed lists

Lists are printed with commas between their items, and read item by item. Parameters and the bindings
of imports are such lists.
-/

namespace MarkupTrace.Source.Grammar

open Text Grammar.Parser

/-- Items with a comma and a space between them. -/
def joined {β : Type} (f : β → List Char) : List β → List Char
  | [] => []
  | [x] => f x
  | x :: y :: xs => f x ++ ',' :: ' ' :: joined f (y :: xs)

theorem intercalate_eq_joined {β : Type} (f : β → List Char) (xs : List β) :
    [',', ' '].intercalate (xs.map f) = joined f xs := by
  induction xs with
  | nil => simp [joined]
  | cons x xs ih =>
    cases xs with
    | nil => simp [joined]
    | cons y xs => simp_all [joined]

theorem toList_printItems (depth : Nat) (es : List Expr) :
    (printItems depth es).toList = joined (fun e => (e.printAt depth).toList) es := by
  induction es with
  | nil => simp [printItems, joined]
  | cons e es ih =>
    cases es with
    | nil => simp [printItems, joined]
    | cons e' es => simp_all [printItems, joined]

theorem toList_printProperties (depth : Nat) (ps : List Property) :
    (printProperties depth ps).toList = joined (fun p => (p.printAt depth).toList) ps := by
  induction ps with
  | nil => simp [printProperties, joined]
  | cons p ps ih =>
    cases ps with
    | nil => simp [printProperties, joined]
    | cons p' ps => simp_all [printProperties, joined]

section

variable {α β : Type} {p : Parser α} {f : β → List Char} {R : α → β → Prop} {xs : List β}

/-- Each item is read before whatever ends it, and begins without blanks. -/
def Itemwise (p : Parser α) (f : β → List Char) (R : α → β → Prop) (xs : List β) : Prop :=
  ∀ x ∈ xs, ∀ s, Ends s → Solid (f x ++ s) ∧ p.Consumes (f x ++ s) s (R · x)

theorem ends_comma (s : List Char) : Ends (',' :: s) :=
  ends_of_character (k := .comma) (by decide) rfl s

theorem Itemwise.solid_joined (h : Itemwise p f R xs) (hne : xs ≠ []) {s : List Char} (hs : Ends s) :
    Solid (joined f xs ++ s) := by
  cases xs with
  | nil => exact absurd rfl hne
  | cons x xs =>
    cases xs with
    | nil => exact (h x List.mem_cons_self s hs).1
    | cons y xs =>
      rw [joined, List.append_assoc]
      exact (h x List.mem_cons_self _ (ends_comma _)).1

/-- By induction on the items; each one but the first stands behind a comma and a space. -/
theorem Itemwise.consumes [Advances p] [Padded p] (h : Itemwise p f R xs) (hne : xs ≠ [])
    {s rest : List Char} (hs : Ends s) (hcomma : (mark .comma).Refuses s)
    (hskips : Skips rest (joined f xs ++ s)) :
    (p.separated (mark .comma)).Consumes rest s fun as => List.Forall₂ R as xs := by
  induction xs generalizing rest with
  | nil => exact absurd rfl hne
  | cons x xs ih =>
    have hx := h x List.mem_cons_self
    have hxs : Itemwise p f R xs := fun y hy => h y (List.mem_cons_of_mem x hy)
    cases xs with
    | nil =>
      refine (((hx s hs).2.padded hskips).separated_last hcomma).mono ?_
      rintro _ ⟨a, rfl, ha⟩
      exact .cons ha .nil
    | cons y xs =>
      rw [joined, List.append_assoc] at hskips
      have hfirst := (hx (',' :: ' ' :: (joined f (y :: xs) ++ s)) (ends_comma _)).2
      have hrest := ih hxs (List.cons_ne_nil y xs)
        (hxs.solid_joined (List.cons_ne_nil y xs) hs).skips_space
      refine ((hfirst.padded hskips).separated_cons
        (mark_consumes (k := .comma) rfl (by decide) _) hrest).mono ?_
      rintro _ ⟨a, as, rfl, ha, has⟩
      exact .cons ha has

variable {j k : Kind} {o c : Char}

/-- A list whose marks stand close to its items. -/
theorem Itemwise.listed_consumes [Advances p] [Padded p] (h : Itemwise p f R xs)
    (ho : j.character? = some o) (hopening : j ≠ .slash)
    (hc : k.character? = some c) (hclosing : k ∈ closingKinds) (hcomma : k ≠ .comma)
    {s : List Char} (hempty : xs = [] → p.Refuses (c :: s)) :
    (listed j k p).Consumes (o :: (joined f xs ++ c :: s)) s
      fun as => List.Forall₂ R as xs := by
  have hslash : k ≠ .slash := by
    rintro rfl
    revert hclosing
    decide
  have hends : Ends (c :: s) := ends_of_character hclosing hc s
  have hrefuses : (mark .comma).Refuses (c :: s) :=
    (mark_starts .comma).refuses (front_character hc hslash s) fun t ht h => hcomma (ht ▸ h)
  refine ((mark_consumes ho hopening _).before ?_).skip (mark_consumes hc hslash s)
  by_cases hne : xs = []
  · subst hne
    refine ((hempty rfl).separated _).mono ?_
    rintro _ rfl
    exact .nil
  · exact h.consumes hne hends hrefuses (h.solid_joined hne hends).skips

/-- A list with a space inside of either mark. -/
theorem Itemwise.listed_consumes_spaced [Advances p] [Padded p] (h : Itemwise p f R xs) (hne : xs ≠ [])
    (ho : j.character? = some o) (hopening : j ≠ .slash)
    (hc : k.character? = some c) (hclosing : k ∈ closingKinds) (hcomma : k ≠ .comma)
    (s : List Char) : (listed j k p).Consumes
      (o :: ' ' :: (joined f xs ++ ' ' :: c :: s)) s fun as => List.Forall₂ R as xs := by
  have hslash : k ≠ .slash := by
    rintro rfl
    revert hclosing
    decide
  have hends : Ends (' ' :: c :: s) := ends_space hclosing hc s
  have hspace := (solid_of_character hc hslash s).skips_space
  have hrefuses : (mark .comma).Refuses (' ' :: c :: s) :=
    ((mark_starts .comma).refuses (front_character hc hslash s)
      fun t ht h => hcomma (ht ▸ h)).padded hspace
  exact ((mark_consumes ho hopening _).before
    (h.consumes hne hends hrefuses (h.solid_joined hne hends).skips_space)).skip
      ((mark_consumes hc hslash s).padded hspace)

end

/-! ## Names and parameters -/

theorem names_itemwise {ns : List String} (h : ∀ n ∈ ns, IsName n) :
    Itemwise name String.toList (· = ·) ns := by
  intro n hn s hs
  have hword := hs.breaks.endsWord
  exact ⟨solid_identifier (h n hn).1 hword, name_consumes (h n hn) hword⟩

theorem param_consumes {x : Param} (h : x.Readable) {s : List Char} (hs : Ends s) :
    Solid (x.print.toList ++ s) ∧ param.Consumes (x.print.toList ++ s) s (· = x) := by
  cases x with
  | name n =>
    have hword := hs.breaks.endsWord
    refine ⟨solid_identifier h.1 hword, .orElse_left ((name_consumes h hword).map ?_) _⟩
    rintro _ rfl
    rfl
  | properties ns =>
    have htext : (Param.properties ns).print.toList ++ s =
        '\x7b' :: ' ' :: (joined String.toList ns ++ ' ' :: '\x7d' :: s) := by
      simp [Param.print, intercalate_eq_joined]
    rw [htext]
    have hrefuses : name.Refuses ('\x7b' :: ' ' :: (joined String.toList ns ++ ' ' :: '\x7d' :: s)) :=
      name_starts.refuses (front_character (k := .openBrace) rfl (by decide) _)
        fun t ht h => by rw [ht] at h; cases h.1
    refine ⟨solid_of_character (k := .openBrace) rfl (by decide) _,
      .orElse_right (.map (P := (· = ns)) ?_ ?_) (hrefuses.map _)⟩
    · by_cases hne : ns = []
      · subst hne
        have hskips : Skips (' ' :: ' ' :: '\x7d' :: s) ('\x7d' :: s) :=
          skips_append (b := [' ', ' ']) (by simp)
            (solid_of_character (k := .closeBrace) rfl (by decide) s)
        have hclose : name.Refuses ('\x7d' :: s) :=
          name_starts.refuses (front_character (k := .closeBrace) rfl (by decide) s)
            fun t ht h => by rw [ht] at h; cases h.1
        exact ((mark_consumes (k := .openBrace) rfl (by decide) _).before
          ((hclose.padded hskips).separated _)).skip
          ((mark_consumes (k := .closeBrace) rfl (by decide) s).padded hskips)
      · refine ((names_itemwise h).listed_consumes_spaced (j := .openBrace)
          (k := .closeBrace) hne rfl (by decide) rfl (by decide) (by decide) s).mono ?_
        intro as has
        exact List.forall₂_eq_eq_eq ▸ has
    · rintro _ rfl
      rfl

theorem params_consumes {ps : List Param} (h : ∀ x ∈ ps, x.Readable) (s : List Char) :
    params.Consumes ((printParams ps).toList ++ s) s (· = ps) := by
  have htext : (printParams ps).toList ++ s =
      '(' :: (joined (fun x => x.print.toList) ps ++ ')' :: s) := by
    simp [printParams, ← intercalate_eq_joined, Function.comp_def]
  have hitems : Itemwise param (fun x => x.print.toList) (· = ·) ps :=
    fun x hx r hr => param_consumes (h x hx) hr
  rw [htext]
  refine .orElse_left ((hitems.listed_consumes (j := .openParen) (k := .closeParen) rfl
    (by decide) rfl (by decide) (by decide) fun _ => ?_).mono ?_) _
  · refine param_starts.refuses (front_character (k := .closeParen) rfl (by decide) s) ?_
    rintro t ht (h | ⟨h, -⟩) <;> rw [ht] at h <;> cases h
  · intro as has
    exact List.forall₂_eq_eq_eq ▸ has

/-! ## Imports -/

/-- A named binding, printed without the local name if that is the imported one. -/
def bindingText (b : String × String) : String := if b.1 = b.2 then b.1 else b.1 ++ " as " ++ b.2

theorem isIdentifier_as : IsIdentifier "as" := ⟨'a', ['s'], rfl, rfl, List.all_eq_true.mp rfl⟩

theorem isIdentifier_from : IsIdentifier "from" :=
  ⟨'f', ['r', 'o', 'm'], rfl, rfl, List.all_eq_true.mp rfl⟩

theorem endsWord_space (s : List Char) : EndsWord (' ' :: s) := by
  rintro c ⟨⟩
  rfl

/-- What may stand in a named binding. -/
def BindingNames (b : String × String) : Prop := IsIdentifier b.1 ∧ (b.2 = b.1 ∨ IsName b.2)

theorem namedBinding_consumes {b : String × String} (h : BindingNames b) {s : List Char}
    (hs : Ends s) : Solid ((bindingText b).toList ++ s) ∧
      namedBinding.Consumes ((bindingText b).toList ++ s) s (· = ⟨.named b.1, b.2⟩) := by
  obtain ⟨n, bound⟩ := b
  obtain ⟨hn, hname⟩ := h
  dsimp only at hn hname
  have hword := hs.breaks.endsWord
  unfold bindingText
  dsimp only
  split
  · rename_i heq
    subst heq
    refine ⟨solid_identifier hn hword, .map ((anyName_consumes hn hword).both
      (Refuses.optional (((word_starts "as").before name).refuses hs.front ?_))) ?_⟩
    · intro t ht h
      rw [(isWord_of_mem (l := ["as"]) (by decide) h).1] at ht
      revert ht
      decide
    · rintro ⟨_, _⟩ ⟨rfl, rfl⟩
      rfl
  · rename_i hne
    have hname := hname.resolve_left fun h => hne h.symm
    have htext : (n ++ " as " ++ bound).toList ++ s =
        n.toList ++ ' ' :: ("as".toList ++ ' ' :: (bound.toList ++ s)) := by
      simp
    rw [htext]
    refine ⟨solid_identifier hn (endsWord_space _), .map ((anyName_consumes hn (endsWord_space _)).both
      (((word_consumes isIdentifier_as (endsWord_space _)).padded
        (solid_identifier isIdentifier_as (endsWord_space _)).skips_space).before
        ((name_consumes hname hword).padded
          (solid_identifier hname.1 hword).skips_space)).optional) ?_⟩
    rintro ⟨_, _⟩ ⟨rfl, _, rfl, rfl⟩
    rfl

/-- The last part of what an import binds, and how it is printed: named bindings or the whole
module. -/
inductive LastPart : List Binding → String → Prop
  | named {bs : List (String × String)} (hne : bs ≠ []) (h : ∀ b ∈ bs, BindingNames b) :
    LastPart (bs.map fun b => ⟨.named b.1, b.2⟩)
      ("\x7b " ++ ", ".intercalate (bs.map bindingText) ++ " \x7d")
  | everything {n : String} (h : IsName n) : LastPart [⟨.everything, n⟩] ("* as " ++ n)

instance : Advances namedBinding := by
  unfold namedBinding
  infer_instance

instance : Padded namedBinding := by
  unfold namedBinding
  infer_instance

instance : Padded (namedBindings.orElse namespaceBinding) := by
  unfold namedBindings namespaceBinding
  infer_instance

theorem namedBindings_starts : namedBindings.Starts fun t => t.kind = .openBrace :=
  listed_starts _ _ _

theorem LastPart.front {bs : List Binding} {text : String} (h : LastPart bs text) (s : List Char) :
    Solid (text.toList ++ s) ∧
      Front (text.toList ++ s) fun t => t.kind = .openBrace ∨ t.kind = .star := by
  cases h with
  | named hne h =>
    rw [String.toList_append, String.toList_append, List.append_assoc, List.append_assoc]
    exact ⟨solid_of_character (k := .openBrace) rfl (by decide) _,
      (front_character (k := .openBrace) rfl (by decide) _).mono fun _ => .inl⟩
  | everything h =>
    rw [String.toList_append, List.append_assoc]
    exact ⟨solid_of_character (k := .star) rfl (by decide) _,
      (front_character (k := .star) rfl (by decide) _).mono fun _ => .inr⟩

/-- Named bindings are read before the whole module is tried. -/
theorem LastPart.consumes {bs : List Binding} {text : String} (h : LastPart bs text) (s : List Char) :
    namedBindings.Consumes (text.toList ++ ' ' :: s) (' ' :: s) (· = bs) ∨
      namedBindings.Refuses (text.toList ++ ' ' :: s) ∧
      namespaceBinding.Consumes (text.toList ++ ' ' :: s) (' ' :: s) (· = bs) := by
  cases h with
  | @named bs hne h =>
    have hitems : Itemwise namedBinding (fun b => (bindingText b).toList)
        (fun a b => a = ⟨.named b.1, b.2⟩) bs := fun b hb r hr => namedBinding_consumes (h b hb) hr
    have htext : ("\x7b " ++ ", ".intercalate (bs.map bindingText) ++ " \x7d").toList ++ ' ' :: s =
        '\x7b' :: ' ' :: (joined (fun b => (bindingText b).toList) bs ++ ' ' :: '\x7d' :: ' ' :: s) := by
      simp [← intercalate_eq_joined, Function.comp_def]
    rw [htext]
    refine .inl ((hitems.listed_consumes_spaced (j := .openBrace) (k := .closeBrace) hne rfl
      (by decide) rfl (by decide) (by decide) (' ' :: s)).mono fun as has => ?_)
    exact List.forall₂_eq_eq_eq ▸ List.forall₂_map_right_iff.mpr has
  | @everything n h =>
    have htext : ("* as " ++ n).toList ++ ' ' :: s =
        '*' :: ' ' :: ("as".toList ++ ' ' :: (n.toList ++ ' ' :: s)) := by
      simp
    rw [htext]
    refine .inr ⟨?_, ?_⟩
    · refine namedBindings_starts.refuses (front_character (k := .star) rfl (by decide) _) ?_
      intro t ht h
      rw [ht] at h
      cases h
    · refine .map ((mark_consumes (k := .star) rfl (by decide) _).before
        ((word_consumes isIdentifier_as (endsWord_space _)).padded
          (solid_identifier isIdentifier_as (endsWord_space _)).skips_space) |>.before
        ((name_consumes h (endsWord_space _)).padded
          (solid_identifier h.1 (endsWord_space _)).skips_space)) ?_
      rintro _ rfl
      rfl

/-- The words that an import prints between `import` and the specifier. -/
def clauseText (parts : List String) : String :=
  if parts.isEmpty then "" else ", ".intercalate parts ++ " from "

theorem exists_names_of_named {bs : List Binding}
    (h : ∀ b ∈ bs, ∃ n, b.imported = .named n ∧ IsIdentifier n ∧ (b.name = n ∨ IsName b.name)) :
    ∃ names : List (String × String), bs = names.map (fun b => ⟨.named b.1, b.2⟩) ∧
      ∀ b ∈ names, BindingNames b := by
  induction bs with
  | nil => exact ⟨[], rfl, nofun⟩
  | cons b bs ih =>
    rw [List.forall_mem_cons] at h
    obtain ⟨names, rfl, hnames⟩ := ih h.2
    obtain ⟨imported, bound⟩ := b
    obtain ⟨n, rfl, hn⟩ := h.1
    exact ⟨(n, bound) :: names, rfl, List.forall_mem_cons.mpr ⟨hn, hnames⟩⟩

/-- What an import prints. -/
theorem exists_print_import {decl : Import} (h : decl.Readable) : ∃ first last names texts,
    decl.bindings = first ++ last ∧
    (first = [] ∧ names = [] ∨ ∃ n, first = [⟨.default, n⟩] ∧ names = [n] ∧ IsName n) ∧
    (last = [] ∧ texts = [] ∨ ∃ text, texts = [text] ∧ LastPart last text) ∧
    decl.print = "import " ++ clauseText (names ++ texts) ++ Text.quote decl.specifier := by
  obtain ⟨specifier, bindings, span⟩ := decl
  obtain ⟨first, last, rfl, hfirst, hlast⟩ := h
  dsimp only at hfirst hlast ⊢
  rcases hlast with hnamed | ⟨n, rfl, hn⟩
  · obtain ⟨names, rfl, hnames⟩ := exists_names_of_named hnamed
    by_cases hne : names = []
    · subst hne
      rcases hfirst with rfl | ⟨n, rfl, hn⟩
      · exact ⟨[], [], [], [], rfl, .inl ⟨rfl, rfl⟩, .inl ⟨rfl, rfl⟩, by simp [Import.print, clauseText]⟩
      · exact ⟨_, [], [n], [], rfl, .inr ⟨n, rfl, rfl, hn⟩, .inl ⟨rfl, rfl⟩,
          by simp [Import.print, clauseText]⟩
    · have hlast := LastPart.named hne hnames
      rcases hfirst with rfl | ⟨n, rfl, hn⟩
      · refine ⟨[], _, [], _, rfl, .inl ⟨rfl, rfl⟩, .inr ⟨_, rfl, hlast⟩, ?_⟩
        simp [Import.print, clauseText, List.filterMap_map, hne]
        rfl
      · refine ⟨_, _, [n], _, rfl, .inr ⟨n, rfl, rfl, hn⟩, .inr ⟨_, rfl, hlast⟩, ?_⟩
        simp [Import.print, clauseText, List.filterMap_map, hne]
        rfl
  · have hlast := LastPart.everything hn
    rcases hfirst with rfl | ⟨d, rfl, hd⟩
    · exact ⟨[], _, [], _, rfl, .inl ⟨rfl, rfl⟩, .inr ⟨_, rfl, hlast⟩,
        by simp [Import.print, clauseText]⟩
    · exact ⟨_, _, [d], _, rfl, .inr ⟨d, rfl, rfl, hd⟩, .inr ⟨_, rfl, hlast⟩,
        by simp [Import.print, clauseText]⟩

/-- What stands behind the bindings of an import. -/
def fromBehind (s : List Char) : List Char := ' ' :: ("from".toList ++ ' ' :: s)

theorem further_refuses (s : List Char) : ((mark .comma).before
    (namedBindings.orElse namespaceBinding)).Refuses (fromBehind s) := by
  have hsolid := solid_identifier isIdentifier_from (endsWord_space s)
  refine Refuses.padded ?_ hsolid.skips_space
  refine ((mark_starts .comma).before _).refuses
    (front_identifier isIdentifier_from (endsWord_space s)) ?_
  rintro t ⟨ht, -⟩ h
  rw [ht] at h
  cases h

theorem importClause_consumes {first last : List Binding} {names texts : List String}
    (hfirst : first = [] ∧ names = [] ∨ ∃ n, first = [⟨.default, n⟩] ∧ names = [n] ∧ IsName n)
    (hlast : last = [] ∧ texts = [] ∨ ∃ text, texts = [text] ∧ LastPart last text)
    (hne : names ++ texts ≠ []) (s : List Char) :
    Solid ((", ".intercalate (names ++ texts)).toList ++ fromBehind s) ∧
      importClause.Consumes ((", ".intercalate (names ++ texts)).toList ++ fromBehind s)
        (fromBehind s) (· = first ++ last) := by
  rcases hfirst with ⟨rfl, rfl⟩ | ⟨n, rfl, rfl, hn⟩
  · rcases hlast with ⟨-, rfl⟩ | ⟨text, rfl, hlast⟩
    · exact absurd rfl hne
    obtain ⟨hsolid, hfront⟩ := hlast.front (fromBehind s)
    rw [List.nil_append, String.intercalate_singleton, List.nil_append]
    have hdefault : ∀ {α : Type} (q : Parser α), (defaultBinding.both q).Refuses
        (text.toList ++ fromBehind s) := by
      intro α q
      refine (((name_starts.map _).both q).refuses hfront ?_)
      rintro t ht ⟨h, -⟩
      rw [h] at ht
      rcases ht with ht | ht <;> cases ht
    refine ⟨hsolid, ?_⟩
    rcases hlast.consumes ("from".toList ++ ' ' :: s) with h | ⟨hrefuses, h⟩
    · exact .orElse_left (.orElse_right h ((hdefault _).map _)) _
    · exact .orElse_right h (((hdefault _).map _).orElse hrefuses)
  · rcases hlast with ⟨rfl, rfl⟩ | ⟨text, rfl, hlast⟩
    · rw [List.append_nil, String.intercalate_singleton]
      have hword : EndsWord (fromBehind s) := endsWord_space _
      refine ⟨solid_identifier hn.1 hword, .orElse_left (.orElse_left (.map
        (((name_consumes hn hword).map (Q := (· = [⟨.default, n⟩])) ?_).both
          (further_refuses s).optional) ?_) _) _⟩
      · rintro _ rfl
        rfl
      · rintro ⟨_, _⟩ ⟨rfl, rfl⟩
        rfl
    · have htext : (", ".intercalate ([n] ++ [text])).toList ++ fromBehind s =
          n.toList ++ ',' :: ' ' :: (text.toList ++ fromBehind s) := by
        simp
      rw [htext]
      have hword := (ends_comma (' ' :: (text.toList ++ fromBehind s))).breaks.endsWord
      have hlater : (namedBindings.orElse namespaceBinding).Consumes (text.toList ++ fromBehind s)
          (fromBehind s) (· = last) := by
        rcases hlast.consumes ("from".toList ++ ' ' :: s) with h | ⟨hrefuses, h⟩
        · exact .orElse_left h _
        · exact .orElse_right h hrefuses
      refine ⟨solid_identifier hn.1 hword, .orElse_left (.orElse_left (.map
        (((name_consumes hn hword).map (Q := (· = [⟨.default, n⟩])) ?_).both
          ((mark_consumes (k := .comma) rfl (by decide) _).before
            (hlater.padded (hlast.front (fromBehind s)).1.skips_space)).optional) ?_) _) _⟩
      · rintro _ rfl
        rfl
      · rintro ⟨_, _⟩ ⟨rfl, _, rfl, rfl⟩
        rfl

theorem importClause_starts : importClause.Starts fun t =>
    t.kind = .identifier ∨ t.kind = .openBrace ∨ t.kind = .star := by
  refine .orElse (.orElse ?_ (namedBindings_starts.mono fun _ h => .inr (.inl h))) ?_
  · exact (((name_starts.map _).both _).map _).mono fun _ h => .inl h.1
  · exact ((((mark_starts _).before _).before _).map _).mono fun _ h => .inr (.inr h)

theorem solid_string (text : String) (s : List Char) : Solid ((Text.quote text).toList ++ s) := by
  unfold Text.quote
  rw [String.toList_ofList]
  exact solid_of_character (k := .doubleQuote) rfl (by decide) _

instance : Padded importClause := by
  unfold importClause defaultBinding namedBindings namespaceBinding
  infer_instance

section

variable {first last : List Binding} {names texts : List String} {s : List Char}

theorem toList_clauseText (hne : names ++ texts ≠ []) (s : List Char) :
    (clauseText (names ++ texts)).toList ++ s =
      (", ".intercalate (names ++ texts)).toList ++ fromBehind s := by
  unfold clauseText fromBehind
  rw [if_neg (by simpa using hne)]
  simp

theorem noClause_consumes (hs : Solid s) (hfront : Front s fun t => t.kind = .doubleQuote) :
    (importClause.skip (word "from")).optional.Consumes (' ' :: s) (' ' :: s) (·.getD [] = []) := by
  have hrefuses : (importClause.skip (word "from")).Refuses s := by
    refine (importClause_starts.skip _).refuses hfront ?_
    rintro t ht (h | h | h) <;> rw [ht] at h <;> cases h
  exact (hrefuses.padded hs.skips_space).optional.mono fun o ho => by rw [ho]; rfl

theorem someClause_consumes
    (hfirst : first = [] ∧ names = [] ∨ ∃ n, first = [⟨.default, n⟩] ∧ names = [n] ∧ IsName n)
    (hlast : last = [] ∧ texts = [] ∨ ∃ text, texts = [text] ∧ LastPart last text)
    (hne : names ++ texts ≠ []) (s : List Char) :
    (importClause.skip (word "from")).optional.Consumes
      (' ' :: ((clauseText (names ++ texts)).toList ++ s)) (' ' :: s)
      (·.getD [] = first ++ last) := by
  rw [toList_clauseText hne]
  obtain ⟨hsolid, hclause⟩ := importClause_consumes hfirst hlast hne s
  have hfrom := solid_identifier isIdentifier_from (endsWord_space s)
  refine ((hclause.padded hsolid.skips_space).skip
    ((word_consumes isIdentifier_from (endsWord_space s)).padded hfrom.skips_space)).optional.mono ?_
  rintro o ⟨bindings, ho, hbindings⟩
  rw [ho]
  exact hbindings

/-- What an import binds, if anything. -/
theorem clause_consumes
    (hfirst : first = [] ∧ names = [] ∨ ∃ n, first = [⟨.default, n⟩] ∧ names = [n] ∧ IsName n)
    (hlast : last = [] ∧ texts = [] ∨ ∃ text, texts = [text] ∧ LastPart last text)
    (hs : Solid s) (hfront : Front s fun t => t.kind = .doubleQuote) :
    (importClause.skip (word "from")).optional.Consumes
      (' ' :: ((clauseText (names ++ texts)).toList ++ s)) (' ' :: s)
      (·.getD [] = first ++ last) := by
  by_cases hne : names ++ texts = []
  · obtain ⟨hnames, htexts⟩ := List.append_eq_nil_iff.mp hne
    have hbindings : first ++ last = [] := by
      rcases hfirst with ⟨rfl, -⟩ | ⟨n, -, h, -⟩
      · rcases hlast with ⟨rfl, -⟩ | ⟨text, h, -⟩
        · rfl
        · cases h.symm.trans htexts
      · cases h.symm.trans hnames
    rw [hne, hbindings]
    exact noClause_consumes hs hfront
  · exact someClause_consumes hfirst hlast hne s

end

/-- A printed import reads as an import of the same. -/
theorem import_consumes {decl : Import} (h : decl.Readable) (hq : Quotable decl.specifier)
    (s : List Char) : Solid (decl.print.toList ++ ';' :: s) ∧
      importStatement.Consumes (decl.print.toList ++ ';' :: s) s fun x => ∃ decl' : Import,
        x = .imports decl' ∧ decl'.specifier = decl.specifier ∧ decl'.bindings = decl.bindings := by
  obtain ⟨first, last, names, texts, hbindings, hfirst, hlast, hprint⟩ := exists_print_import h
  have hword : IsIdentifier "import" :=
    ⟨'i', ['m', 'p', 'o', 'r', 't'], rfl, rfl, List.all_eq_true.mp rfl⟩
  have htext : decl.print.toList ++ ';' :: s = "import".toList ++ ' ' ::
      ((clauseText (names ++ texts)).toList ++
        ((Text.quote decl.specifier).toList ++ ';' :: s)) := by
    rw [hprint]
    simp
  rw [htext]
  refine ⟨solid_identifier hword (endsWord_space _), .charged (.map
    ((((word_consumes hword (endsWord_space _)).both
      (clause_consumes hfirst hlast (solid_string _ _) (front_string _ _))).both
      ((solid_string _ _).skips_space.before (string_consumes hq (';' :: s)))).both
        (mark_consumes (k := .semicolon) rfl (by decide) s).optional) ?_) _⟩
  rintro ⟨⟨⟨_, bindings⟩, _, _⟩, _⟩ ⟨⟨⟨-, hb⟩, rfl⟩, -⟩
  exact ⟨_, rfl, rfl, hb.trans hbindings.symm⟩

end MarkupTrace.Source.Grammar
