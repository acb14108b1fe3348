import MarkupTrace.Proofs.RereadModules

/-!
# Printing and reading are inverse

The text of a printable module that was read from a source is read again, as the same module up to
parentheses and ranges, and the print of that is the same text.
-/

namespace MarkupTrace.Source

open Grammar Grammar.Parser

namespace Grammar

theorem atEnd_consumes : atEnd.Consumes [] [] fun _ => True := fun offset =>
  ⟨(), offset, trivial, gives_atEnd.mpr ⟨tokens_chars_nil offset, rfl⟩⟩

/-- Every statement is read from its own line, and behind the last one is nothing but blanks. -/
theorem module_consumes {m : Module} (hprint : m.Printable) (hread : m.Readable) :
    module.Consumes m.print.toList [] fun m' =>
      m'.recast withoutParens = m.recast withoutParens ∧ m'.print = m.print := by
  have hstatements : ∀ s ∈ m.body, s.ReadBy statement := fun s hs =>
    (statements_reread m.body (fun x hx => ⟨hprint x hx, hread.nodes x hx⟩) s hs).2
      (hread.statements s hs)
  have hskips : ∀ b, IsBlankText b → Skips (b ++ []) [] := fun b hb => skips_append hb solid_nil
  obtain ⟨b, hb, hmany⟩ := statements_consume hstatements 0 hskips
    (statement_starts.refuses_nil solid_nil.skips) (b := []) nofun
  rw [List.nil_append, List.append_nil] at hmany
  exact .map ((hmany.skip (hskips b hb)).skip atEnd_consumes) fun _ hss => Module.resembles hss

end Grammar

/-- A text that the parser reads up to its end is parsed. -/
theorem parseWith_of_consumes {α : Type} {p : Parser α} {source : String} {P : α → Prop}
    (h : p.Consumes source.toList [] P) : ∃ a, P a ∧ parseWith p source = .ok a := by
  obtain ⟨a, offset, ha, alt, hgives⟩ := h 0
  refine ⟨a, ha, ?_⟩
  change p (Input.ofTokens (tokenize source)) = _ at hgives
  rw [parseWith, hgives]

/-- What was read and can be printed reads the same, up to parentheses and ranges, from its print. -/
theorem Module.parse_print {source : String} {m : Module} (h : Module.parse source = .ok m)
    (hprint : m.Printable) : ∃ m', Module.parse m.print = .ok m' ∧
      m'.recast withoutParens = m.recast withoutParens ∧ m'.print = m.print := by
  obtain ⟨m', hm', hparse⟩ :=
    parseWith_of_consumes (module_consumes hprint (Module.readable_of_parse h))
  exact ⟨m', hparse, hm'⟩

/-- An import, functions that are called or give an object, and markup with a text between blanks, a
quote that needs the other sort, and a value in parentheses. -/
def shownModule : String :=
  "import D, \x7b a, b as c \x7d from './x'\n" ++
  "export let f = (\x7b t \x7d) => <p.q on title='\"' \x7b...t\x7d>\x7b (t) \x7d text</p.q>\n" ++
  "((x) => (\x7b a: 1.5, 'b': [x, null], c \x7d))(() => \x7b return f.g(\"\\n\"); \x7d)\n"

theorem parse_print_shownModule : ∃ m m', Module.parse shownModule = .ok m ∧ m.Printable ∧
    Module.parse m.print = .ok m' ∧ m'.recast withoutParens = m.recast withoutParens ∧
      m'.print = m.print := by
  have hshown : (match Module.parse shownModule with
      | .ok m => decide m.Printable
      | .error _ => false) = true := by decide +kernel
  cases h : Module.parse shownModule with
  | error e =>
    rw [h] at hshown
    cases hshown
  | ok m =>
    rw [h] at hshown
    have hprint := of_decide_eq_true hshown
    obtain ⟨m', hm'⟩ := Module.parse_print h hprint
    exact ⟨m, m', rfl, hprint, hm'⟩

end MarkupTrace.Source
