import LoxSyntax.Number.Shortest
import LoxSyntax.Tree.Basic

/-!
# Programs as program text

A tree is written as text that reads back as the same tree.  Parentheses are written only where the
tree has them: a tree that was read needs no others.  A block has each of its statements on a line
of its own, four spaces further in than the block; every other statement stays on its line.

* `Expr.source`, `Stmt.source` — one tree; a statement at a given depth of blocks.
* `Program.source` — a program, each statement ended by a newline.
-/

namespace LoxSyntax

/-- The space in front of a line at some depth of blocks. -/
def indentation (depth : Nat) : String :=
  String.ofList (List.replicate (4 * depth) ' ')

/-- The operator between two operands; a comma follows its left operand directly. -/
def Token.between (op : Token) : String :=
  if op.kind = .comma then op.lexeme ++ " " else " " ++ op.lexeme ++ " "

/-- An expression as program text. -/
def Expr.source : Expr → String
  | .string text => "\"" ++ text ++ "\""
  | .number value => value.text
  | .bool true => "true"
  | .bool false => "false"
  | .nil => "nil"
  | .unary op arg => op.lexeme ++ arg.source
  | .binary lhs op rhs => lhs.source ++ op.between ++ rhs.source
  | .logical lhs op rhs => lhs.source ++ op.between ++ rhs.source
  | .conditional condition yes no =>
    condition.source ++ " ? " ++ yes.source ++ " : " ++ no.source
  | .group inner => "(" ++ inner.source ++ ")"
  | .variable name => name.lexeme
  | .assign name value => name.lexeme ++ " = " ++ value.source
  | .missing => "<error>"

mutual

/-- A statement as program text, inside `depth` blocks.  The text begins at the current position. -/
def Stmt.source (depth : Nat) : Stmt → String
  | .expression e => e.source ++ ";"
  | .print e => "print " ++ e.source ++ ";"
  | .declare name none => "var " ++ name.lexeme ++ ";"
  | .declare name (some initial) => "var " ++ name.lexeme ++ " = " ++ initial.source ++ ";"
  | .block [] => "\x7b\x7d"
  | .block (s :: ss) =>
    "\x7b" ++ Stmt.sourceLines (depth + 1) (s :: ss) ++ "\n" ++ indentation depth ++ "\x7d"
  | .ifThen condition yes => "if (" ++ condition.source ++ ") " ++ yes.source depth
  | .ifElse condition yes no =>
    "if (" ++ condition.source ++ ") " ++ yes.source depth ++ " else " ++ no.source depth
  | .loop condition body => "while (" ++ condition.source ++ ") " ++ body.source depth

/-- Statements of a block, each on a new line. -/
def Stmt.sourceLines (depth : Nat) : List Stmt → String
  | [] => ""
  | s :: ss => "\n" ++ indentation depth ++ s.source depth ++ Stmt.sourceLines depth ss

end

/-- A program as program text. -/
def Program.source (p : Program) : String :=
  String.join (p.map fun s => s.source 0 ++ "\n")

end LoxSyntax
