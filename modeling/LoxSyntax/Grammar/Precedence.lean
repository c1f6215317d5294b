import LoxSyntax.Tree.Basic

/-!
# Precedence

Expressions are ranked by how tightly they hold together, from the comma, which is the loosest, to
literals, names and parentheses.  The binary operators of one precedence form chains that associate
to the left.

* `Precedence` — the levels, loosest first.
* `TokenKind.precedence?` — the level of a binary operator.
* `Expr.precedence` — the level of an expression.
-/

namespace LoxSyntax

/-- The levels of expressions, loosest first. -/
inductive Precedence
  | comma
  | assignment
  | conditional
  | disjunction
  | conjunction
  | equality
  | comparison
  | sum
  | product
  | unary
  | primary
deriving DecidableEq, Repr

/-- A number that grows with tightness. -/
def Precedence.rank : Precedence → Nat
  | comma => 0
  | assignment => 1
  | conditional => 2
  | disjunction => 3
  | conjunction => 4
  | equality => 5
  | comparison => 6
  | sum => 7
  | product => 8
  | unary => 9
  | primary => 10

instance : LE Precedence := ⟨fun p q => p.rank ≤ q.rank⟩

instance : LT Precedence := ⟨fun p q => p.rank < q.rank⟩

instance (p q : Precedence) : Decidable (p ≤ q) :=
  inferInstanceAs (Decidable (p.rank ≤ q.rank))

instance (p q : Precedence) : Decidable (p < q) :=
  inferInstanceAs (Decidable (p.rank < q.rank))

namespace TokenKind

/-- The level of a kind that can stand between two operands, assignment aside. -/
def precedence? : TokenKind → Option Precedence
  | comma => some .comma
  | orWord => some .disjunction
  | andWord => some .conjunction
  | equalEqual | bangEqual => some .equality
  | less | lessEqual | greater | greaterEqual => some .comparison
  | minus | plus => some .sum
  | star | slash => some .product
  | _ => none

/-- Whether a kind can stand before its only operand. -/
def isUnary : TokenKind → Bool
  | bang | minus => true
  | _ => false

end TokenKind

/-- The expression that an operator of a level makes of two operands. -/
def Precedence.join : Precedence → Expr → Token → Expr → Expr
  | disjunction | conjunction => Expr.logical
  | _ => Expr.binary

/-- The level of an expression.  A chain has the level of its operator, and an operator of no level
holds together least. -/
def Expr.precedence : Expr → Precedence
  | .unary .. => .unary
  | .binary _ op _ => op.kind.precedence?.getD .comma
  | .logical _ op _ => op.kind.precedence?.getD .comma
  | .conditional .. => .conditional
  | .assign .. => .assignment
  | .string _ | .number _ | .bool _ | .nil | .group _ | .variable _ | .missing => .primary

end LoxSyntax
