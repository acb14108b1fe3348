import MarkupTrace.Source.Grammar.Expression

/-!
# Modules

A module is a sequence of imports, declarations and expressions up to the end of the text.
-/

namespace MarkupTrace.Source.Grammar

open Text Grammar.Parser

def namedBinding : Parser Binding :=
  anyName.both ((word "as").before name).optional |>.map fun (imported, local?) =>
    ⟨.named imported, local?.getD imported⟩

def namedBindings : Parser (List Binding) := listed .openBrace .closeBrace namedBinding

def namespaceBinding : Parser (List Binding) :=
  (((mark .star).before (word "as")).before name).map fun n => [⟨.everything, n⟩]

def defaultBinding : Parser (List Binding) := name.map fun n => [⟨.default, n⟩]

/-- What an import binds. -/
def importClause : Parser (List Binding) :=
  let further := (mark .comma).before (namedBindings.orElse namespaceBinding)
  (((defaultBinding.both further.optional).map fun (first, rest) =>
    first ++ rest.getD []).orElse namedBindings).orElse namespaceBinding

def importStatement : Parser Statement :=
  (((word "import").both (importClause.skip (word "from")).optional).both
    (trivia.before string)).both (mark .semicolon).optional |>.map
      (fun (((first, bindings), specifier, quoted), last) =>
        let stop := (last.map (·.span.stop)).getD quoted.stop
        Statement.imports ⟨specifier, bindings.getD [], ⟨first.span.start, stop⟩⟩)
    |>.charged "import"

def statement : Parser Statement :=
  (importStatement.orElse (declaration expression)).orElse (expressionStatement expression)

def module : Parser Module := ((statement.many.skip trivia).skip atEnd).map Module.mk

/-- An expression with nothing but trivia behind it. -/
def wholeExpression : Parser Expr := (expression.skip trivia).skip atEnd

end MarkupTrace.Source.Grammar
