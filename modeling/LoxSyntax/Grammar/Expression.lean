import LoxSyntax.Parsing.Rule

/-!
# The grammar of expressions

Each level of precedence is a rule over the next tighter one.  Three rules open a level of nesting:
a whole expression, the value of an assignment, and an operand of a unary operator.  The rules
below are written over these three as they are one level deeper; `Grammar.atRoom` then ties the knot
by recursion on the number of levels that may still be opened.

* `Grammar.comma` — the loosest level, and each tighter one down to `Grammar.primary`.
* `Grammar.missingOperand` — an operator without its left operand is reported, its right operand
  is read over, and `Expr.missing` stands for the whole.
* `Grammar.expression` — an expression, as deep as the ceiling allows.
-/

namespace LoxSyntax

/-- The rules that open a level of nesting. -/
inductive Opening
  | expression
  | assignment
  | unary
deriving DecidableEq, Repr

namespace Grammar

open Rule

/-! ## From loose to tight

`deeper` are the rules that open a level. -/

variable (deeper : Opening → Rule Expr)

def product : Rule Expr :=
  leftAssociative .product (deeper .unary)

def sum : Rule Expr :=
  leftAssociative .sum (product deeper)

def comparison : Rule Expr :=
  leftAssociative .comparison (sum deeper)

def equality : Rule Expr :=
  leftAssociative .equality (comparison deeper)

def conjunction : Rule Expr :=
  leftAssociative .conjunction (equality deeper)

def disjunction : Rule Expr :=
  leftAssociative .disjunction (conjunction deeper)

/-- A condition with a branch behind `?` and one behind `:`, both of them whole expressions, or a
condition alone. -/
def conditional : Rule Expr := do
  let condition ← disjunction deeper
  if ← eat .question then
    let yes ← deeper .expression
    let _ ← expect .branchSeparator
    let no ← deeper .expression
    return .conditional condition yes no
  else
    return condition

/-- A variable, `=` and a value, grouped from the right, or a conditional alone.  If the left side
is no variable, that is reported at the equals sign and the value is dropped. -/
def assignment : Rule Expr := do
  let target ← conditional deeper
  let equals ← place
  if ← eat .equal then
    let value ← deeper .assignment
    match target with
    | .variable name => return .assign name value
    | _ =>
      report .invalidAssignmentTarget equals
      return target
  else
    return target

def comma : Rule Expr :=
  leftAssociative .comma (assignment deeper)

/-! ## Operands -/

/-- A token of a literal's kind, with the value it has to carry. -/
def literal (t : Token) : Rule Expr := do
  let start ← place
  skip
  match t.kind, t.literal with
  | .number, some (.number value) => return .number value
  | .string, some (.string text) => return .string text
  | _, _ => failAt .expectedLiteral start

/-- An operator without its left operand: its right operand is read by `operand` and dropped. -/
def missingOperand (operand : Rule Expr) : Rule Expr := do
  report .missingLeftOperand (← place)
  skip
  let _ ← operand
  return .missing

/-- A literal, a name or a group.  A binary operator here lacks its left operand. -/
def primary : Rule Expr := do
  match ← next? with
  | none => fail .expectedExpression
  | some t =>
    match t.kind with
    | .falseWord => skip; return .bool false
    | .trueWord => skip; return .bool true
    | .nilWord => skip; return .nil
    | .number | .string => literal t
    | .leftParen =>
      skip
      let inner ← deeper .expression
      let _ ← expect .groupEnd
      return .group inner
    | .identifier => skip; return .variable t
    | kind =>
      match kind.precedence? with
      | some .equality => missingOperand (equality deeper)
      | some .comparison => missingOperand (comparison deeper)
      | some .sum => missingOperand (sum deeper)
      | some .product => missingOperand (product deeper)
      | _ => fail .expectedExpression

/-- Operators in front of an operand, or an operand alone. -/
def unary : Rule Expr := do
  match ← eat? TokenKind.isUnary with
  | some op => return .unary op (← deeper .unary)
  | none => primary deeper

/-! ## The knot -/

/-- What stands one level deeper. -/
def opened : Opening → Rule Expr
  | .expression => comma deeper
  | .assignment => assignment deeper
  | .unary => unary deeper

/-- The rules that open a level, where `room` levels may still be opened.  More room than the
cursor has makes no difference: the ceiling is checked at each level. -/
def atRoom : (room : Nat) → Opening → Rule Expr
  | 0, _, c => fail .tooMuchNesting c
  | room + 1, opening, c => nested (opened (atRoom room) opening) c

/-- An expression. -/
def expression : Rule Expr := fun c =>
  atRoom c.room .expression c

end Grammar

end LoxSyntax
