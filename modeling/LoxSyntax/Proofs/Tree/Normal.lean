import LoxSyntax.Grammar.Precedence

/-!
# Trees in normal form

The trees that a text without further parentheses can mean.  Operators stand between operands that
hold together at least as tightly, a comma does not follow a conditional that would take it in, and
an `else` does not follow a branch that would take it in.

* `Expr.endsInConditional`, `Stmt.endsInIf` — what goes on as long as it can.
* `Expr.isNormal`, `Stmt.isNormal`, `Program.isNormal` — normal form.
* `Expr.missingCount`, `Program.missingCount` — how many operands are missing.
* `Expr.hasFiniteNumbers`, `Program.hasFiniteNumbers` — the numbers that have a text of digits.
-/

namespace LoxSyntax

/-! ## Expressions -/

/-- Whether the operators of a level are `and` and `or`. -/
def Precedence.isLogical : Precedence → Bool
  | conjunction | disjunction => true
  | _ => false

/-- The comma is the only operator of its level. -/
theorem TokenKind.beq_comma {k : TokenKind} {p : Precedence} (h : k.precedence? = some p) :
    (k == .comma) = (p == .comma) := by
  cases k <;> cases h <;> rfl

namespace Expr

/-- Whether an expression ends in a branch of a conditional, without a parenthesis behind it. -/
def endsInConditional : Expr → Bool
  | .conditional .. => true
  | .assign _ value => value.endsInConditional
  | .binary _ op rhs => op.kind == .comma && rhs.endsInConditional
  | _ => false

/-- Whether two operands can stand beside an operator of a level. -/
def fitBeside (p : Precedence) (lhs rhs : Expr) : Bool :=
  decide (p ≤ lhs.precedence) && decide (p < rhs.precedence) &&
    (p != .comma || !lhs.endsInConditional)

/-- Whether every operator and name has a kind that its node allows, and operands that fit it. -/
def isNormal : Expr → Bool
  | .string _ | .number _ | .bool _ | .nil | .missing => true
  | .variable name => name.kind == .identifier
  | .group inner => inner.isNormal
  | .unary op arg => op.kind.isUnary && arg.isNormal && decide (.unary ≤ arg.precedence)
  | .binary lhs op rhs =>
    lhs.isNormal && rhs.isNormal &&
      op.kind.precedence?.any fun p => !p.isLogical && fitBeside p lhs rhs
  | .logical lhs op rhs =>
    lhs.isNormal && rhs.isNormal &&
      op.kind.precedence?.any fun p => p.isLogical && fitBeside p lhs rhs
  | .conditional condition yes no =>
    condition.isNormal && yes.isNormal && no.isNormal &&
      decide (.disjunction ≤ condition.precedence)
  | .assign name value =>
    name.kind == .identifier && value.isNormal && decide (.assignment ≤ value.precedence)

/-- The number of missing operands. -/
def missingCount : Expr → Nat
  | .missing => 1
  | .string _ | .number _ | .bool _ | .nil | .variable _ => 0
  | .group e | .unary _ e | .assign _ e => e.missingCount
  | .binary lhs _ rhs | .logical lhs _ rhs => lhs.missingCount + rhs.missingCount
  | .conditional condition yes no =>
    condition.missingCount + yes.missingCount + no.missingCount

/-- Whether every number is finite. -/
def hasFiniteNumbers : Expr → Bool
  | .number value => value.isFinite
  | .string _ | .bool _ | .nil | .variable _ | .missing => true
  | .group e | .unary _ e | .assign _ e => e.hasFiniteNumbers
  | .binary lhs _ rhs | .logical lhs _ rhs => lhs.hasFiniteNumbers && rhs.hasFiniteNumbers
  | .conditional condition yes no =>
    condition.hasFiniteNumbers && yes.hasFiniteNumbers && no.hasFiniteNumbers

/-! ## Operators and their operands -/

/-- What is tighter than a conditional does not end in one. -/
theorem endsInConditional_of_disjunction_le {e : Expr} (h : .disjunction ≤ e.precedence) :
    e.endsInConditional = false := by
  cases e with
  | conditional | assign =>
    have hrank : Precedence.rank .disjunction ≤ _ := h
    simp [precedence, Precedence.rank] at hrank
  | binary lhs op rhs =>
    rw [endsInConditional, Bool.and_eq_false_iff]
    left
    rw [beq_eq_false_iff_ne]
    intro hop
    simp only [precedence, hop, TokenKind.precedence?, Option.getD_some] at h
    exact absurd h (by decide)
  | _ => rfl

theorem precedence_join {p : Precedence} {op : Token} (hop : op.kind.precedence? = some p)
    (lhs rhs : Expr) : (p.join lhs op rhs).precedence = p := by
  unfold Precedence.join
  split <;> simp [precedence, hop]

theorem endsInConditional_join {p : Precedence} {op : Token}
    (hop : op.kind.precedence? = some p) (lhs rhs : Expr) :
    (p.join lhs op rhs).endsInConditional = (p == .comma && rhs.endsInConditional) := by
  unfold Precedence.join
  split
  · rfl
  · rfl
  · rw [endsInConditional, TokenKind.beq_comma hop]

/-- Where the level of an operator is known, only the operands are left to look at. -/
theorem isNormal_join {p : Precedence} {op : Token} (hop : op.kind.precedence? = some p)
    (lhs rhs : Expr) :
    (p.join lhs op rhs).isNormal = (lhs.isNormal && rhs.isNormal && fitBeside p lhs rhs) := by
  cases p <;> simp [Precedence.join, isNormal, hop, Precedence.isLogical]

theorem missingCount_join (p : Precedence) (op : Token) (lhs rhs : Expr) :
    (p.join lhs op rhs).missingCount = lhs.missingCount + rhs.missingCount := by
  cases p <;> rfl

/-- A normal expression of two operands is the one that the level of its operator makes. -/
theorem exists_join_of_isNormal {e lhs rhs : Expr} {op : Token}
    (he : e = .binary lhs op rhs ∨ e = .logical lhs op rhs) (h : e.isNormal) :
    ∃ p, op.kind.precedence? = some p ∧ e = p.join lhs op rhs := by
  rcases hp : op.kind.precedence? with _ | p
  · rcases he with rfl | rfl <;> simp [isNormal, hp] at h
  · refine ⟨p, rfl, ?_⟩
    rcases he with rfl | rfl <;> cases p <;>
      simp_all [isNormal, Precedence.isLogical, Precedence.join]

end Expr

/-! ## Statements -/

namespace Stmt

/-- Whether a statement declares a variable. -/
def isDeclaration : Stmt → Bool
  | .declare .. => true
  | _ => false

/-- Whether a statement ends in one whose `if` has no `else` yet. -/
def endsInIf : Stmt → Bool
  | .ifThen .. => true
  | .ifElse _ _ no => no.endsInIf
  | .loop _ body => body.endsInIf
  | _ => false

end Stmt

mutual

/-- Whether a statement is made of normal expressions, no branch or body declares a variable, and
no branch in front of an `else` ends in an `if` that lacks one. -/
def Stmt.isNormal : Stmt → Bool
  | .expression e | .print e => e.isNormal
  | .declare name none => name.kind == .identifier
  | .declare name (some initial) => name.kind == .identifier && initial.isNormal
  | .block body => Program.isNormal body
  | .ifThen condition yes => condition.isNormal && yes.isNormal && !yes.isDeclaration
  | .ifElse condition yes no =>
    condition.isNormal && yes.isNormal && no.isNormal && !yes.isDeclaration &&
      !no.isDeclaration && !yes.endsInIf
  | .loop condition body => condition.isNormal && body.isNormal && !body.isDeclaration

/-- Whether every statement is normal. -/
def Program.isNormal : Program → Bool
  | [] => true
  | s :: ss => s.isNormal && Program.isNormal ss

end

mutual

/-- The number of missing operands. -/
def Stmt.missingCount : Stmt → Nat
  | .expression e | .print e | .declare _ (some e) => e.missingCount
  | .declare _ none => 0
  | .block body => Program.missingCount body
  | .ifThen condition yes => condition.missingCount + yes.missingCount
  | .ifElse condition yes no => condition.missingCount + yes.missingCount + no.missingCount
  | .loop condition body => condition.missingCount + body.missingCount

/-- The number of missing operands. -/
def Program.missingCount : Program → Nat
  | [] => 0
  | s :: ss => s.missingCount + Program.missingCount ss

end

mutual

/-- Whether every number is finite. -/
def Stmt.hasFiniteNumbers : Stmt → Bool
  | .expression e | .print e | .declare _ (some e) => e.hasFiniteNumbers
  | .declare _ none => true
  | .block body => Program.hasFiniteNumbers body
  | .ifThen condition yes => condition.hasFiniteNumbers && yes.hasFiniteNumbers
  | .ifElse condition yes no =>
    condition.hasFiniteNumbers && yes.hasFiniteNumbers && no.hasFiniteNumbers
  | .loop condition body => condition.hasFiniteNumbers && body.hasFiniteNumbers

/-- Whether every number is finite. -/
def Program.hasFiniteNumbers : Program → Bool
  | [] => true
  | s :: ss => s.hasFiniteNumbers && Program.hasFiniteNumbers ss

end

namespace Program

theorem isNormal_append (p q : Program) :
    isNormal (p ++ q) = (isNormal p && isNormal q) := by
  induction p with
  | nil => rfl
  | cons s ss ih => simp only [List.cons_append, isNormal, ih, Bool.and_assoc]

theorem missingCount_append (p q : Program) :
    missingCount (p ++ q) = missingCount p + missingCount q := by
  induction p with
  | nil => exact (Nat.zero_add _).symm
  | cons s ss ih => simp only [List.cons_append, missingCount, ih, Nat.add_assoc]

end Program

end LoxSyntax
