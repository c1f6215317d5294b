import LoxSyntax.Token.Basic

/-!
# Programs as trees

A program is a list of statements.  Operators and names are kept as the tokens they were written
with, so that a tree still knows its lines; the values of literals stand in the tree itself.  There
is no node for a `for` loop, which is read as the `while` loop it abbreviates, and no node for a
function or a class.

* `Expr` — expressions, with `Expr.missing` where an operator lacks its left operand.
* `Stmt` — statements, declarations among them.
-/

namespace LoxSyntax

/-- An expression. -/
inductive Expr
  | string (text : String)
  | number (value : Binary64)
  | bool (value : Bool)
  | nil
  | unary (op : Token) (arg : Expr)
  /-- An arithmetic operator, a comparison or a comma. -/
  | binary (lhs : Expr) (op : Token) (rhs : Expr)
  /-- A conjunction by `and` or a disjunction by `or`. -/
  | logical (lhs : Expr) (op : Token) (rhs : Expr)
  /-- A choice, written `condition ? yes : no`. -/
  | conditional (condition yes no : Expr)
  /-- An expression in parentheses. -/
  | group (inner : Expr)
  | variable (name : Token)
  | assign (name : Token) (value : Expr)
  /-- Stands where a binary operator has no left operand; only next to a reported error. -/
  | missing
deriving DecidableEq, Repr

/-- A statement. -/
inductive Stmt
  | expression (e : Expr)
  | print (e : Expr)
  /-- A variable declaration, with its initial value if it has one. -/
  | declare (name : Token) (initial : Option Expr)
  | block (body : List Stmt)
  | ifThen (condition : Expr) (yes : Stmt)
  | ifElse (condition : Expr) (yes no : Stmt)
  | loop (condition : Expr) (body : Stmt)

/-- A program. -/
abbrev Program := List Stmt

end LoxSyntax
