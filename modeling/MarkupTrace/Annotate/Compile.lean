import MarkupTrace.Annotate.Report
import MarkupTrace.Source.Error
import MarkupTrace.Source.Printer

/-!
# Compiling

Compiling a text checks the options, reads the text, annotates the module and writes it. If both the
options and the text are faulty, the options are reported.
-/

namespace MarkupTrace.Annotate

open Source

inductive CompileError
  | options (e : OptionsError)
  | parse (e : ParseError)

def CompileError.message : CompileError → String
  | options e => "invalid instrumentation options: " ++ e.message
  | parse e => e.text

/-- The annotated module as text. -/
def Annotated.code (a : Annotated) : String := a.module.print

def compile (source fileName : String) (o : Options) : Except CompileError Annotated := do
  o.validate.mapError .options
  let m ← (Module.parse source).mapError .parse
  return annotate m source fileName o

end MarkupTrace.Annotate
