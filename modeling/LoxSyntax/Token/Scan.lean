import LoxSyntax.Diagnosis.Problem
import LoxSyntax.Diagnosis.Report
import LoxSyntax.Text.Line
import LoxSyntax.Text.Piece
import LoxSyntax.Token.Basic

/-!
# The tokens of a text

Blanks and comments are dropped, pieces that are tokens become tokens, and pieces that fit nothing
become errors.  A token or an error lies on the line on which its piece begins; the end of the text
is a token of its own on the last line.

* `Piece.token?`, `Piece.problem?` — what a piece contributes.
* `located` — pieces with the lines they begin on.
* `scan` — the tokens of a text, and its errors.
-/

namespace LoxSyntax

/-! ## One piece -/

/-- The value of a literal with this text: a number is read as a decimal, a string is what stands
between the quotes. -/
def Literal.ofText? (kind : TokenKind) (text : List Char) : Option Literal :=
  match kind with
  | .number => some (.number (Binary64.ofDecimal (Decimal.ofText text)))
  | .string => some (.string (String.ofList (text.drop 1).dropLast))
  | _ => none

namespace Piece

/-- The token a piece is, if it is one. -/
def token? (p : Piece) (line : UInt32) : Option Token :=
  match p.kind with
  | .token kind =>
    some { kind, lexeme := String.ofList p.text, line, literal := Literal.ofText? kind p.text }
  | _ => none

/-- What is wrong with a piece, if something is. -/
def problem? (p : Piece) : Option Problem :=
  match p.kind with
  | .openString => some .unterminatedString
  | .stray => some .unexpectedCharacter
  | _ => none

/-- The error a piece is, if it is one.  It has no place on its line. -/
def error? (p : Piece) (line : UInt32) : Option SyntaxError :=
  p.problem?.map fun problem => ⟨line, "", problem.message⟩

end Piece

/-! ## All pieces -/

/-- The line behind a text that begins on `line`. -/
def lineAfter (line : UInt32) (text : List Char) : UInt32 :=
  line + UInt32.ofNat (newlines text)

/-- Pieces with the lines they begin on, the first one on `line`. -/
def located (line : UInt32) : List Piece → List (Piece × UInt32)
  | [] => []
  | p :: ps => (p, line) :: located (lineAfter line p.text) ps

/-- The tokens of a text, the last of them its end, and the errors found in it. -/
structure Scan where
  tokens : List Token
  errors : List SyntaxError
deriving DecidableEq, Repr

/-- Reads the tokens of a text. -/
def scan (text : String) : Scan :=
  let ps := located 1 (pieces text.toList)
  { tokens := ps.filterMap (fun p => p.1.token? p.2) ++ [Token.eof (lineAfter 1 text.toList)]
    errors := ps.filterMap fun p => p.1.error? p.2 }

end LoxSyntax
