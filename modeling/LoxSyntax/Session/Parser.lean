import LoxSyntax.Grammar.Statement
import LoxSyntax.Session.Log
import LoxSyntax.Token.Scan

/-!
# Parsers

A parser holds a list of tokens, the cursor in it, the errors reported so far and the log.  It can
be asked for an expression, a statement, a declaration or the rest of the program, any number of
times; each call goes on where the last one stopped, whether that failed or not.

* `Parser.ofTokens`, `Parser.ofText` — a parser at the beginning of its tokens.
* `Parser.expression`, `Parser.statement`, `Parser.declaration`, `Parser.program` — the calls.
* `Parser.addError`, `Parser.clearErrors` — changes to the report between calls.
-/

namespace LoxSyntax

/-- How many levels may be open unless something else is asked for. -/
def defaultCeiling : Nat := 128

/-- The state between calls. -/
structure Parser where
  /-- All tokens, the end of the text being the last. -/
  tokens : List Token
  cursor : Cursor
  report : Report
  log : List LogRecord

namespace Parser

/-! ## Beginning -/

/-- A parser at the first of some tokens, with no level open. -/
def ofTokens (ceiling : Nat) (tokens : List Token) : Parser where
  tokens := completed tokens
  cursor := { Place.ofTokens tokens with depth := 0, ceiling }
  report := {}
  log := []

/-- A parser at the beginning of a text.  The errors found between its tokens are reported
already. -/
def ofText (ceiling : Nat) (text : String) : Parser :=
  let s := scan text
  { ofTokens ceiling s.tokens with report := ⟨s.errors⟩, log := [.scanned s.tokens.length] }

/-! ## Calls -/

/-- Whether nothing is left to read. -/
def isAtEnd (p : Parser) : Bool :=
  p.cursor.isAtEnd

/-- Runs a rule and keeps what it reported. -/
def run {α : Type} (rule : Rule α) (p : Parser) : Option α × Parser :=
  let reply := rule p.cursor
  (reply.result,
    { p with
      cursor := reply.cursor
      report := p.report.addAll ((reply.events.filterMap Event.diagnostic?).map Diagnostic.error)
      log := p.log ++ reply.events.filterMap Event.record? })

/-- Reads an expression; none if that failed. -/
def expression (p : Parser) : Option Expr × Parser :=
  p.run Grammar.expression

/-- Reads a statement; none if that failed. -/
def statement (p : Parser) : Option Stmt × Parser :=
  p.run Grammar.statement

/-- Reads a declaration or a statement; none if that failed, after which the next call begins at
the next statement. -/
def declaration (p : Parser) : Option Stmt × Parser :=
  match p.run Grammar.declaration with
  | (result, p) => (result.join, p)

/-- Reads all that is left.  Declarations with errors are left out. -/
def program (p : Parser) : Program × Parser :=
  match run Grammar.program { p with log := p.log ++ [.parsing p.tokens.length] } with
  | (result, p) =>
    let program := result.getD []
    (program, { p with log := p.log ++ [.parsed program.length p.report.size] })

/-! ## The report -/

/-- Adds an error to the report. -/
def addError (e : SyntaxError) (p : Parser) : Parser :=
  { p with report := p.report.add e }

/-- Forgets the errors reported so far. -/
def clearErrors (p : Parser) : Parser :=
  { p with report := p.report.clear }

end Parser

end LoxSyntax
