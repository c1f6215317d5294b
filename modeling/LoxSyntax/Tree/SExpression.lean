import LoxSyntax.Number.Shortest
import LoxSyntax.Tree.Basic

/-!
# Programs as S-expressions

A node is written in parentheses, its operator or its name first, then its children; literals and
names are written as they are.

* `Expr.sexpr`, `Stmt.sexpr` — one tree.
* `Program.sexpr` — a program, a line for each statement.
-/

namespace LoxSyntax

/-- An expression as an S-expression, such as `(+ 1 (* 2 3))`. -/
def Expr.sexpr : Expr → String
  | .string text => "\"" ++ text ++ "\""
  | .number value => value.text
  | .bool true => "true"
  | .bool false => "false"
  | .nil => "nil"
  | .unary op arg => "(" ++ op.lexeme ++ " " ++ arg.sexpr ++ ")"
  | .binary lhs op rhs => "(" ++ op.lexeme ++ " " ++ lhs.sexpr ++ " " ++ rhs.sexpr ++ ")"
  | .logical lhs op rhs => "(" ++ op.lexeme ++ " " ++ lhs.sexpr ++ " " ++ rhs.sexpr ++ ")"
  | .conditional condition yes no =>
    "(?: " ++ condition.sexpr ++ " " ++ yes.sexpr ++ " " ++ no.sexpr ++ ")"
  | .group inner => "(group " ++ inner.sexpr ++ ")"
  | .variable name => name.lexeme
  | .assign name value => "(= " ++ name.lexeme ++ " " ++ value.sexpr ++ ")"
  | .missing => "<error>"

mutual

/-- A statement as an S-expression, such as `(while (< i 3) (print i))`. -/
def Stmt.sexpr : Stmt → String
  | .expression e => "(expr " ++ e.sexpr ++ ")"
  | .print e => "(print " ++ e.sexpr ++ ")"
  | .declare name none => "(var " ++ name.lexeme ++ ")"
  | .declare name (some initial) => "(var " ++ name.lexeme ++ " " ++ initial.sexpr ++ ")"
  | .block body => "(block" ++ Stmt.sexprTail body ++ ")"
  | .ifThen condition yes => "(if " ++ condition.sexpr ++ " " ++ yes.sexpr ++ ")"
  | .ifElse condition yes no =>
    "(if " ++ condition.sexpr ++ " " ++ yes.sexpr ++ " " ++ no.sexpr ++ ")"
  | .loop condition body => "(while " ++ condition.sexpr ++ " " ++ body.sexpr ++ ")"

/-- Statements as the last members of a list, each behind a space. -/
def Stmt.sexprTail : List Stmt → String
  | [] => ""
  | s :: ss => " " ++ s.sexpr ++ Stmt.sexprTail ss

end

/-- A program, each statement on a line of its own. -/
def Program.sexpr (p : Program) : String :=
  "\n".intercalate (p.map Stmt.sexpr)

end LoxSyntax
