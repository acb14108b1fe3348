import MarkupTrace.Proofs.MixedAnnotation

/-!
# Line endings do not matter

Annotation that counts offsets with line feeds only puts the same names, locations and strings into a
module, whatever its line endings are.
-/

namespace MarkupTrace.Annotate

open Source Text Grammar

/-- The place of a recast text. -/
theorem trimmedSpan_recast {source' : String} {t : MarkupText} {a c : List Char}
    (hsource : source'.toList = a ++ t.raw.toList ++ c) (hcut : Cut a (t.raw.toList ++ c))
    (hcut' : Cut (a ++ t.raw.toList) c)
    (hspan : t.span = ⟨byteLength a, byteLength (a ++ t.raw.toList)⟩) :
    (t.recast (relined (LineIndex.ofText source').normalized)).trimmedSpan =
      moveSpan (LineIndex.ofText source').normalized t.trimmedSpan := by
  have hraw : (t.recast (relined (LineIndex.ofText source').normalized)).raw.toList =
      lineFeeds t.raw.toList := toList_withLineFeeds _
  have hstop := normalized_ofText hsource hcut'
  have hcuts := (selects_trim hsource hcut' true ⟨"", "", "", ""⟩).stands
  obtain ⟨behind, hpieces, hlead, htrim⟩ := hcuts
  have hmid := normalized_ofText hpieces htrim
  rw [List.append_assoc] at hpieces
  have hstart := normalized_ofText hpieces hlead
  have hlength : (t.recast (relined (LineIndex.ofText source').normalized)).span =
      ⟨byteLength (lineFeeds a), byteLength (lineFeeds a) + byteLength (lineFeeds t.raw.toList)⟩ := by
    rw [← byteLength_append, ← lineFeeds_append hcut.left, ← hstop]
    rw [List.append_assoc] at hsource
    rw [← normalized_ofText hsource hcut]
    exact congrArg (moveSpan _) hspan
  rw [← hraw] at hlength
  rw [byteLength_append] at hspan
  have hold : t.trimmedSpan = ⟨byteLength (a ++ t.raw.toList.takeWhile isBlank),
      byteLength (a ++ t.raw.toList.takeWhile isBlank ++ trim t.raw.toList)⟩ := by
    rw [MarkupText.trimmedSpan_eq hspan]
    simp only [byteLength_append, Nat.add_assoc]
  have hfirst : Cut a (t.raw.toList.takeWhile isBlank) := by
    obtain ⟨trail, hraw, -⟩ := takeWhile_append_trim t.raw.toList
    rw [hraw, List.append_assoc, List.append_assoc] at hcut
    exact hcut.left
  rw [MarkupText.trimmedSpan_eq hlength, hraw, takeWhile_isBlank_lineFeeds, trim_lineFeeds, hold,
    moveSpan, hstart, hmid, lineFeeds_append hlead.left, lineFeeds_append hfirst]
  simp only [byteLength_append, Nat.add_assoc]

theorem recast_declarations (c : Recasting) (names : Names) (fileName : String) (t : Tally) :
    recastStatements c (declarations names fileName t) = declarations names fileName t := by
  unfold declarations declare
  split <;> split <;> simp [recastStatements, Statement.recast, Expr.recast]

theorem insertBehindImports_recast (c : Recasting) {added : List Statement}
    (hadded : recastStatements c added = added) (m : Module) :
    insertBehindImports added (m.recast c) = (insertBehindImports added m).recast c := by
  have himports : (m.recast c).leadingImports = m.leadingImports := by
    unfold Module.leadingImports Module.recast
    rw [recastStatements_eq]
    induction m.body with
    | nil => rfl
    | cons s ss ih =>
      have hs : (s.recast c).isImport = s.isImport := by
        cases s <;> simp [Statement.recast, Statement.isImport]
      rw [List.map_cons, List.takeWhile_cons, List.takeWhile_cons, hs]
      split
      · rw [List.length_cons, List.length_cons, ih]
      · rfl
  unfold insertBehindImports
  rw [himports]
  unfold Module.recast
  dsimp only
  rw [recastStatements_eq] at hadded
  rw [recastStatements_eq, recastStatements_eq, List.map_append, List.map_append, hadded,
    List.map_take, List.map_drop]

section

variable {source source' : String} (h : Mixed source.toList source'.toList)
include h

/-- A cut is at the same offset and on the same line of both texts. -/
theorem cut_mixed {a b : List Char} (hsource : source'.toList = a ++ b) (hcut : Cut a b) :
    (LineIndex.ofText source').normalized (byteLength a) = byteLength (lineFeeds a) ∧
      (LineIndex.ofText source).normalized (byteLength (lineFeeds a)) = byteLength (lineFeeds a) ∧
      (LineIndex.ofText source).lineNumber (byteLength (lineFeeds a)) =
        (LineIndex.ofText source').lineNumber (byteLength a) := by
  have hboth : source.toList = lineFeeds a ++ lineFeeds b := by
    rw [← h.lineFeeds_eq, hsource, lineFeeds_append hcut]
  have hreturn : '\r' ∉ lineFeeds a := by
    intro hmem
    refine h.return_not_mem ?_
    rw [hboth]
    exact List.mem_append_left _ hmem
  refine ⟨normalized_ofText hsource hcut, ?_, ?_⟩
  · rw [normalized_ofText hboth, lineFeeds_of_not_mem hreturn]
    intro hlast
    exact absurd (List.mem_of_getLast? hlast) hreturn
  · rw [LineIndex.ofText, LineIndex.ofText, hboth, hsource, LineIndex.lineNumber_cut,
      LineIndex.lineNumber_cut, count_lineFeeds]

theorem location_mixed {a b c : List Char} (hsource : source'.toList = a ++ b ++ c)
    (hcut : Cut a (b ++ c)) (hcut' : Cut (a ++ b) c) (names : Names) :
    (siteOf source true names).location (moveSpan (LineIndex.ofText source').normalized
        ⟨byteLength a, byteLength (a ++ b)⟩) =
      (siteOf source' true names).location ⟨byteLength a, byteLength (a ++ b)⟩ := by
  obtain ⟨hstop', hstop, -⟩ := cut_mixed h hsource hcut'
  rw [List.append_assoc] at hsource
  obtain ⟨hpos', hpos, hline⟩ := cut_mixed h hsource hcut
  simp only [Site.location, Site.offset, moveSpan, if_pos, hpos', hpos, hstop', hstop, hline]

/-- The elements of a module that was read, and their children, have the same locations in both
texts. -/
theorem fits_of_parse {m' : Module} (hparse : Module.parse source' = .ok m') (names : Names) :
    ∀ x ∈ m'.parts, Fits (LineIndex.ofText source').normalized (LineIndex.ofText source)
      (siteOf source' true names) x := by
  intro x hx
  cases x with
  | location l => trivial
  | element e =>
    obtain ⟨i, r, ⟨ts, hts⟩, hgives⟩ := Module.allRead_of_parse hparse _ hx
    obtain ⟨us, hus, hreads⟩ := hgives.exists_reads
    rw [hus, ← List.append_assoc] at hts
    have hselects := selects_tokens hts.symm true names
    rw [textOf_append] at hselects
    constructor
    · obtain ⟨behind, hsource, hcut, hcut'⟩ := hselects.stands
      rw [span_of_reads hts.symm hreads, textOf_append]
      exact location_mixed h hsource hcut hcut' names
    · intro c hc
      obtain ⟨ts', us', vs', hat⟩ := (located_of_reads hts.symm hreads true names).children c hc
      have hplace := place_of_reads hat.tokens hat.reads
      obtain ⟨behind, hsource, hcut, hcut'⟩ := hat.selects.stands
      have hlocation := location_mixed h hsource hcut hcut' names
      rw [← hplace] at hlocation
      rw [← hlocation]
      refine congrArg (Site.location _) ?_
      cases c with
      | container value span | emptyContainer span =>
        rw [Child.recast]
        rfl
      | element e =>
        obtain ⟨tag, attributes, content, span⟩ := e
        rw [Child.recast, Element.recast]
        rfl
      | text t =>
        obtain ⟨behind', hsource', hcut₁, hcut₂⟩ := (selects_tokens hat.tokens true names).stands
        have hraw := hat.raw t rfl
        rw [← hraw] at hsource' hcut₁ hcut₂
        refine trimmedSpan_recast hsource' hcut₁ hcut₂ ?_
        have hspells := child_reads hat.reads
        obtain ⟨hne, ht⟩ := hspells
        rw [hraw, ← textOf_append, ← spanOf_tokens hat.tokens hne]
        exact congrArg MarkupText.span ht

end

/-- With and without carriage returns before line feeds, a text is a module or not, and annotation
gives the same names, the same report, and modules that are the same but for line endings in raw texts
and for spans. -/
theorem line_endings_do_not_matter {source source' : String}
    (h : Mixed source.toList source'.toList) :
    ((∃ m, Module.parse source = .ok m) ↔ ∃ m', Module.parse source' = .ok m') ∧
    ∀ m m', Module.parse source = .ok m → Module.parse source' = .ok m' →
      ∀ fileName (o : Options), o.normalizeLineEndings = true →
        (annotate m source fileName o).names = (annotate m' source' fileName o).names ∧
        (annotate m source fileName o).report = (annotate m' source' fileName o).report ∧
        (annotate m source fileName o).module = (annotate m' source' fileName o).module.recast
          (relined (LineIndex.ofText source').normalized) := by
  obtain ⟨hvalue, hiff⟩ := Module.parse_mixed h
  refine ⟨hiff, ?_⟩
  intro m m' hm hm' fileName o ho
  rw [hvalue m' hm', Except.ok.injEq] at hm
  subst hm
  have hnames : Names.ofModule (m'.recast (relined (LineIndex.ofText source').normalized)) o =
      Names.ofModule m' o := by
    unfold Names.ofModule
    rw [Module.names_recast]
  have htally : tallyStatements (m'.recast (relined (LineIndex.ofText source').normalized)).body =
      tallyStatements m'.body := tallyStatements_recast _ _
  refine ⟨hnames, ?_, ?_⟩
  · unfold annotate
    rw [htally]
  · unfold annotate
    dsimp only
    rw [htally, hnames, ho]
    have hstatements := statements_recast m'.body (fits_of_parse h hm' (Names.ofModule m' o))
    have hmarked : (⟨statements (siteOf source true (Names.ofModule m' o))
        (m'.recast (relined (LineIndex.ofText source').normalized)).body⟩ : Module) =
        (⟨statements (siteOf source' true (Names.ofModule m' o)) m'.body⟩ : Module).recast
          (relined (LineIndex.ofText source').normalized) := congrArg Source.Module.mk hstatements
    rw [hmarked]
    exact insertBehindImports_recast _ (recast_declarations _ _ _ _) _

/-- The element over three lines with pairs at the end of the first two only. -/
def mostlyPairs : String := "const a = <p>\r\n x \x7bb\x7d\r\n</p>;\n"

def noPairs : String := "const a = <p>\n x \x7bb\x7d\n</p>;\n"

theorem line_endings_do_not_matter_pairs : ∃ m m', Module.parse noPairs = .ok m ∧
    Module.parse mostlyPairs = .ok m' ∧ Mixed noPairs.toList mostlyPairs.toList ∧
    (annotate m noPairs "a.jsx" {}).module = (annotate m' mostlyPairs "a.jsx" {}).module.recast
      (relined (LineIndex.ofText mostlyPairs).normalized) := by
  have hmixed : Mixed noPairs.toList mostlyPairs.toList := by decide +kernel
  have hread : (Module.parse noPairs).isOk = true := by decide +kernel
  obtain ⟨hiff, hsame⟩ := line_endings_do_not_matter hmixed
  cases hm : Module.parse noPairs with
  | error e =>
    rw [hm] at hread
    cases hread
  | ok m =>
    obtain ⟨m', hm'⟩ := hiff.mp ⟨m, hm⟩
    exact ⟨m, m', rfl, hm', hmixed, (hsame m m' hm hm' "a.jsx" {} rfl).2.2⟩

end MarkupTrace.Annotate
