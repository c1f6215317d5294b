import LoxSyntax.Grammar.Expression

/-!
# The grammar of statements

Each statement opens a level of nesting; a declaration at the top or in a block does not open
another one.  A statement that cannot be read ends the declaration it stands in, which is then left
out, and parsing resumes behind it.

* `Grammar.statementBody` — a statement by its first token.
* `Grammar.declaration` — a declaration or statement, with recovery.
* `Grammar.forLoop` — a `for` loop, read as the `while` loop it abbreviates.
* `Grammar.statement`, `Grammar.program` — a statement, and all declarations up to the end.
-/

namespace LoxSyntax

/-- The `while` loop that a `for` loop abbreviates: the increment runs behind the body, a missing
condition is true, and the initial statement runs before the loop. -/
def Stmt.ofFor (initial : Option Stmt) (condition increment : Option Expr) (body : Stmt) : Stmt :=
  let body :=
    match increment with
    | none => body
    | some increment => .block [body, .expression increment]
  let loop := Stmt.loop (condition.getD (.bool true)) body
  match initial with
  | none => loop
  | some initial => .block [initial, loop]

namespace Grammar

open Rule

/-! ## Simple statements

`expr` is the rule for expressions at this level. -/

section Simple

variable (expr : Rule Expr)

/-- An expression and a semicolon. -/
def terminated : Rule Expr := do
  let e ← expr
  let _ ← expect .valueEnd
  return e

/-- A declaration behind its `var`. -/
def variableDeclaration : Rule Stmt := do
  let name ← expect .variableName
  if ← eat .equal then
    let initial ← expr
    let _ ← expect .variableEnd
    return .declare name (some initial)
  else
    let _ ← expect .variableEnd
    return .declare name none

/-- An expression, unless a token of some kind stands in its place. -/
def unlessNext (kind : TokenKind) : Rule (Option Expr) := do
  if (← place).kind = kind then
    return none
  else
    return some (← expr)

/-- The first clause of a `for` loop with its semicolon. -/
def forInitial : Rule (Option Stmt) := do
  if ← eat .semicolon then
    return none
  else if ← eat .varWord then
    return some (← variableDeclaration expr)
  else
    return some (.expression (← terminated expr))

end Simple

/-! ## Declarations -/

/-- A declaration or a statement, or none after recovery from an error in it. -/
def declarationOf (expr : Rule Expr) (stmt : Rule Stmt) : Rule (Option Stmt) := do
  note (.declaring (← place))
  recovered do
    if ← eat .varWord then variableDeclaration expr else stmt

/-- Declarations up to the end, or up to a token of the kind that ends them.  Every round reads a
token, so as many rounds suffice as there are tokens unread. -/
def declarationsOf (declaration : Rule (Option Stmt)) (last : TokenKind) :
    (rounds : List Token) → Rule (List Stmt)
  | [] => return []
  | _ :: rounds => do
    let kind := (← place).kind
    if kind = .eof ∨ kind = last then
      return []
    else
      let first ← declaration
      (first.toList ++ ·) <$> declarationsOf declaration last rounds

/-! ## Compound statements

`expr` and `stmt` are the rules for expressions and statements at this level. -/

section Compound

variable (expr : Rule Expr) (stmt : Rule Stmt)

/-- A block behind its opening brace. -/
def block : Rule Stmt := do
  let body ← declarationsOf (declarationOf expr stmt) .rightBrace (← place).unread
  let _ ← expect .blockEnd
  return .block body

/-- A conditional behind its `if`.  An `else` belongs to the nearest `if`. -/
def conditionalStatement : Rule Stmt := do
  let _ ← expect .ifStart
  let condition ← expr
  let _ ← expect .ifEnd
  let yes ← stmt
  if ← eat .elseWord then
    return .ifElse condition yes (← stmt)
  else
    return .ifThen condition yes

/-- A loop behind its `while`. -/
def whileLoop : Rule Stmt := do
  let _ ← expect .whileStart
  let condition ← expr
  let _ ← expect .whileEnd
  return .loop condition (← stmt)

/-- A loop behind its `for`. -/
def forLoop : Rule Stmt := do
  let _ ← expect .forStart
  let initial ← forInitial expr
  let condition ← unlessNext expr .semicolon
  let _ ← expect .forConditionEnd
  let increment ← unlessNext expr .rightParen
  let _ ← expect .forEnd
  return Stmt.ofFor initial condition increment (← stmt)

/-- A statement, told by its first token. -/
def statementBody : Rule Stmt := do
  match (← place).kind with
  | .printWord => skip; return .print (← terminated expr)
  | .leftBrace => skip; block expr stmt
  | .ifWord => skip; conditionalStatement expr stmt
  | .whileWord => skip; whileLoop expr stmt
  | .forWord => skip; forLoop expr stmt
  | _ => return .expression (← terminated expr)

end Compound

/-! ## The knot -/

/-- A statement, where `room` levels may still be opened. -/
def statementAt : (room : Nat) → Rule Stmt
  | 0, c => fail .tooMuchNesting c
  | room + 1, c =>
    nested (statementBody (atRoom room .expression) (statementAt room)) c

/-- A statement. -/
def statement : Rule Stmt := fun c =>
  statementAt c.room c

/-- A declaration or a statement, or none after recovery from an error in it. -/
def declaration : Rule (Option Stmt) := fun c =>
  declarationOf (atRoom c.room .expression) (statementAt c.room) c

/-- Declarations up to the end. -/
def program : Rule Program := fun c =>
  declarationsOf declaration .eof c.unread c

end Grammar

end LoxSyntax
