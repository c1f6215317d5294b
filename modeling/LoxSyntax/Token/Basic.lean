import LoxSyntax.Number.Binary64
import LoxSyntax.Token.Kind

/-!
# Tokens

A token holds its kind, the text it was read from, the line on which that text begins, and for a
number or a string the value it stands for.  The parser decides by kinds alone; the rest is carried
along into the tree and into messages.

* `Token.text` — how a dump shows a token.
* `Token.equal` — equality in which numbers compare as numbers, so that what is no number differs
  from itself.
-/

namespace LoxSyntax

/-- The value of a literal. -/
inductive Literal
  | number (value : Binary64)
  | string (text : String)
deriving DecidableEq, Repr

/-- A token.  Lines count from 1. -/
structure Token where
  kind : TokenKind
  lexeme : String
  line : UInt32
  literal : Option Literal := none
deriving DecidableEq, Repr

/-- Equality of values, numbers as numbers. -/
def Literal.equal : Literal → Literal → Bool
  | .number x, .number y => x.equal y
  | .string s, .string t => s == t
  | _, _ => false

namespace Token

/-- The end of a text, on its last line. -/
def eof (line : UInt32) : Token :=
  { kind := .eof, lexeme := "", line }

/-- Equality in every field, with the literals equal as values. -/
def equal (t u : Token) : Bool :=
  t.kind == u.kind && t.lexeme == u.lexeme && t.line == u.line &&
    match t.literal, u.literal with
    | none, none => true
    | some v, some w => v.equal w
    | _, _ => false

/-- The name of the kind, the lexeme unless it is empty, and the line. -/
def text (t : Token) : String :=
  let lexeme := if t.lexeme.isEmpty then "" else " " ++ t.lexeme
  t.kind.name ++ lexeme ++ " line " ++ toString t.line.toNat

end Token

end LoxSyntax
