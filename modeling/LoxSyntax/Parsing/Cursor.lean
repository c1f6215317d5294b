import LoxSyntax.Diagnosis.Problem
import LoxSyntax.Diagnosis.Report
import LoxSyntax.Token.Basic

/-!
# Where parsing stands

A place in a list of tokens is given by what is still unread there.  The end of the text, wherever
it stands in the list, is never read: the tokens before it are all there is, and only its line
matters.  A cursor is a place together with the number of open levels of nesting.

* `Place.ofTokens` — the beginning of a list of tokens.
* `Place.kind`, `Place.line` — the token that would be read next.
* `Place.resume` — where parsing goes on after an error.
* `Diagnostic` — a problem at a place, and `Diagnostic.error`, the error it is shown as.
-/

namespace LoxSyntax

/-! ## Places -/

/-- A place in a list of tokens: the tokens behind it up to the end of the text, and the line of
that end. -/
structure Place where
  unread : List Token
  endLine : UInt32
deriving DecidableEq, Repr

/-- A list of tokens that ends with the end of the text.  Where that is lacking, it is put behind
the last token, on the same line. -/
def completed (tokens : List Token) : List Token :=
  match tokens.getLast? with
  | none => [Token.eof 1]
  | some last => if last.kind = .eof then tokens else tokens ++ [Token.eof last.line]

namespace Place

/-- The beginning of a list of tokens. -/
def ofTokens (tokens : List Token) : Place :=
  let tokens := completed tokens
  { unread := tokens.takeWhile (·.kind != .eof)
    endLine := ((tokens.find? (·.kind == .eof)).map (·.line)).getD 1 }

/-- Whether nothing is left to read. -/
def isAtEnd (p : Place) : Bool :=
  p.unread.isEmpty

/-- The kind of the next token. -/
def kind (p : Place) : TokenKind :=
  match p.unread with
  | [] => .eof
  | t :: _ => t.kind

/-- The line of the next token. -/
def line (p : Place) : UInt32 :=
  match p.unread with
  | [] => p.endLine
  | t :: _ => t.line

/-! ## Recovery -/

/-- Skips tokens until the one just skipped is a semicolon or the next one starts a statement. -/
def skipToStatement (skipped : Token) : List Token → List Token
  | [] => []
  | t :: rest =>
    if skipped.kind = .semicolon ∨ t.kind.startsStatement then t :: rest
    else skipToStatement t rest

/-- Where parsing goes on after an error: at least one token further on. -/
def resume (p : Place) : Place :=
  match p.unread with
  | [] => p
  | t :: rest => { p with unread := skipToStatement t rest }

end Place

/-! ## Cursors -/

/-- A place, the number of levels open there, and how many may be open at once. -/
structure Cursor extends Place where
  depth : Nat
  ceiling : Nat
deriving DecidableEq, Repr

/-- How many more levels may be opened. -/
def Cursor.room (c : Cursor) : Nat :=
  c.ceiling - c.depth

/-! ## Diagnostics -/

/-- A problem, blamed on the next token of a place. -/
structure Diagnostic where
  problem : Problem
  place : Place
deriving DecidableEq, Repr

/-- How a place is named in an error: by its next token. -/
def Place.context (p : Place) : String :=
  match p.unread with
  | [] => "at end"
  | t :: _ => "at '" ++ t.lexeme ++ "'"

/-- The error that a diagnostic is shown as. -/
def Diagnostic.error (d : Diagnostic) : SyntaxError :=
  ⟨d.place.line, d.place.context, d.problem.message⟩

end LoxSyntax
