import LoxSyntax.Tree.Basic

/-!
# Programs as rows

A traversal meets every node of a tree, a node before its children and the children in the order
in which they were written, and can be told not to go below some kinds of node.  What it met is
recorded in rows: how deep the node lies, what it is, and what it holds besides its children.

* `Tag`, `Detail`, `Row` — the record of a node.
* `Expr.rowsBelow`, `Stmt.rowsBelow` — the rows of the children of a node, and of all that lies
  below those which are not stopped at.
* `Program.rows` — the rows of a program.
* **`Program.rowsAt_eq_flatMap`** — a program has the rows of its statements, one after another.
-/

namespace LoxSyntax

/-! ## Rows -/

/-- What a node is. -/
inductive Tag
  | string | number | bool | nil | unary | binary | logical | conditional | group | variable
  | assign | missing
  | expression | print | declare | block | conditionalStmt | loop
deriving DecidableEq, Repr

/-- What a node holds besides its children. -/
inductive Detail
  | none
  | text (text : String)
  | number (value : Binary64)
  | flag (value : Bool)
  | count (n : Nat)
  | token (t : Token)
deriving DecidableEq, Repr

/-- The record of a node. -/
structure Row where
  depth : Nat
  tag : Tag
  detail : Detail
deriving DecidableEq, Repr

def Expr.tag : Expr → Tag
  | .string _ => .string
  | .number _ => .number
  | .bool _ => .bool
  | .nil => .nil
  | .unary .. => .unary
  | .binary .. => .binary
  | .logical .. => .logical
  | .conditional .. => .conditional
  | .group _ => .group
  | .variable _ => .variable
  | .assign .. => .assign
  | .missing => .missing

/-- Literals hold their value, operators and variables their token. -/
def Expr.detail : Expr → Detail
  | .string text => .text text
  | .number value => .number value
  | .bool value => .flag value
  | .unary op _ => .token op
  | .binary _ op _ => .token op
  | .logical _ op _ => .token op
  | .variable name => .token name
  | .assign name _ => .token name
  | .nil | .conditional .. | .group _ | .missing => .none

def Stmt.tag : Stmt → Tag
  | .expression _ => .expression
  | .print _ => .print
  | .declare .. => .declare
  | .block _ => .block
  | .ifThen .. => .conditionalStmt
  | .ifElse .. => .conditionalStmt
  | .loop .. => .loop

/-- A declaration holds its name, a block its number of statements, and an `if` whether there is
an `else`. -/
def Stmt.detail : Stmt → Detail
  | .declare name _ => .token name
  | .block body => .count body.length
  | .ifThen .. => .flag false
  | .ifElse .. => .flag true
  | .expression _ | .print _ | .loop .. => .none

def Expr.row (depth : Nat) (e : Expr) : Row :=
  ⟨depth, e.tag, e.detail⟩

def Stmt.row (depth : Nat) (s : Stmt) : Row :=
  ⟨depth, s.tag, s.detail⟩

/-! ## Traversal -/

/-- The row of a node and the rows below it, which are left out if the traversal stops at its
kind. -/
def Row.above (stop : Tag → Bool) (row : Row) (below : List Row) : List Row :=
  row :: if stop row.tag then [] else below

/-- The rows below an expression whose children lie at `depth`. -/
def Expr.rowsBelow (stop : Tag → Bool) (depth : Nat) : Expr → List Row
  | .unary _ arg => (arg.row depth).above stop (arg.rowsBelow stop (depth + 1))
  | .binary lhs _ rhs =>
    (lhs.row depth).above stop (lhs.rowsBelow stop (depth + 1)) ++
      (rhs.row depth).above stop (rhs.rowsBelow stop (depth + 1))
  | .logical lhs _ rhs =>
    (lhs.row depth).above stop (lhs.rowsBelow stop (depth + 1)) ++
      (rhs.row depth).above stop (rhs.rowsBelow stop (depth + 1))
  | .conditional condition yes no =>
    (condition.row depth).above stop (condition.rowsBelow stop (depth + 1)) ++
      (yes.row depth).above stop (yes.rowsBelow stop (depth + 1)) ++
      (no.row depth).above stop (no.rowsBelow stop (depth + 1))
  | .group inner => (inner.row depth).above stop (inner.rowsBelow stop (depth + 1))
  | .assign _ value => (value.row depth).above stop (value.rowsBelow stop (depth + 1))
  | .string _ | .number _ | .bool _ | .nil | .variable _ | .missing => []

/-- The rows of an expression at `depth`. -/
def Expr.rows (stop : Tag → Bool) (depth : Nat) (e : Expr) : List Row :=
  (e.row depth).above stop (e.rowsBelow stop (depth + 1))

mutual

/-- The rows below a statement whose children lie at `depth`. -/
def Stmt.rowsBelow (stop : Tag → Bool) (depth : Nat) : Stmt → List Row
  | .expression e => e.rows stop depth
  | .print e => e.rows stop depth
  | .declare _ none => []
  | .declare _ (some initial) => initial.rows stop depth
  | .block body => Program.rowsAt stop depth body
  | .ifThen condition yes =>
    condition.rows stop depth ++
      (yes.row depth).above stop (yes.rowsBelow stop (depth + 1))
  | .ifElse condition yes no =>
    condition.rows stop depth ++
      (yes.row depth).above stop (yes.rowsBelow stop (depth + 1)) ++
      (no.row depth).above stop (no.rowsBelow stop (depth + 1))
  | .loop condition body =>
    condition.rows stop depth ++
      (body.row depth).above stop (body.rowsBelow stop (depth + 1))

/-- The rows of statements that all lie at `depth`. -/
def Program.rowsAt (stop : Tag → Bool) (depth : Nat) : Program → List Row
  | [] => []
  | s :: ss =>
    (s.row depth).above stop (s.rowsBelow stop (depth + 1)) ++ Program.rowsAt stop depth ss

end

/-- The rows of a statement at `depth`. -/
def Stmt.rows (stop : Tag → Bool) (depth : Nat) (s : Stmt) : List Row :=
  (s.row depth).above stop (s.rowsBelow stop (depth + 1))

/-- A program has the rows of its statements, one after another. -/
theorem Program.rowsAt_eq_flatMap (stop : Tag → Bool) (depth : Nat) (p : Program) :
    Program.rowsAt stop depth p = p.flatMap fun s => s.rows stop depth := by
  induction p with
  | nil => rfl
  | cons s ss ih => rw [Program.rowsAt, ih, List.flatMap_cons, Stmt.rows]

/-- The rows of a program; its statements lie at depth 0. -/
def Program.rows (stop : Tag → Bool) (p : Program) : List Row :=
  Program.rowsAt stop 0 p

/-- The rows below the statements of a program, the uppermost of them at depth 0. -/
def Program.rowsBelow (stop : Tag → Bool) (p : Program) : List Row :=
  p.flatMap fun s => s.rowsBelow stop 0

end LoxSyntax
