import LoxSyntax.Session.Parser
import LoxSyntax.Text.WhiteSpace
import LoxSyntax.Tree.SExpression
import LoxSyntax.Tree.SourceText

/-!
# What becomes of a text

A text either is a program or has errors.  Processing it gives what is to be printed: the tokens, if
they are asked for, and the program in one of its two forms, if there were no errors.

* `Program.ofText` — the program, or every error.
* `process` — the output and the errors.
-/

namespace LoxSyntax

/-- The program that a text is, or all errors in it. -/
def Program.ofText (ceiling : Nat) (text : String) : Except (List SyntaxError) Program :=
  match (Parser.ofText ceiling text).program with
  | (program, p) => if p.report.isEmpty then .ok program else .error p.report.errors

/-- What to print of a text. -/
structure Options where
  /-- Print the tokens first. -/
  tokens : Bool := false
  /-- Print the program as program text, not as S-expressions. -/
  asSource : Bool := false
  ceiling : Nat := defaultCeiling
deriving DecidableEq, Repr

/-- What processing a text gives. -/
structure Outcome where
  output : String
  errors : List SyntaxError
deriving DecidableEq, Repr

def Outcome.hasErrors (o : Outcome) : Bool :=
  !o.errors.isEmpty

/-- Tokens, each on a line of its own. -/
def dump (tokens : List Token) : String :=
  String.join (tokens.map fun t => t.text ++ "\n")

/-- A program in the form that is asked for. -/
def Options.render (options : Options) (program : Program) : String :=
  if options.asSource then program.source else program.sexpr

/-- A text without the white space at its end, on lines of its own; nothing if that is all. -/
def asLines (text : String) : String :=
  let text := trimEnd text
  if text.isEmpty then "" else text ++ "\n"

/-- Reads a text and renders it. -/
def process (options : Options) (text : String) : Outcome :=
  let tokens := if options.tokens then dump (scan text).tokens else ""
  match (Parser.ofText options.ceiling text).program with
  | (program, p) =>
    let rendered := if p.report.isEmpty then asLines (options.render program) else ""
    { output := tokens ++ rendered, errors := p.report.errors }

end LoxSyntax
