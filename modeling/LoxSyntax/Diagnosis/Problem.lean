import LoxSyntax.Token.Kind

/-!
# What can be wrong with a text

A problem is a cause; its wording is given here and nowhere else.  Most problems are a missing
token that the grammar demands at some landmark of a construct, such as the parenthesis behind a
condition.

* `Landmark` — the places that demand one kind of token.
* `Problem` — all causes, with `Problem.message`.
* `Problem.isStructural` — the causes that end the rule that met them; after the two others parsing
  goes on.
-/

namespace LoxSyntax

/-- A place in a construct where one kind of token has to stand. -/
inductive Landmark
  | groupEnd
  | branchSeparator
  | variableName
  | variableEnd
  | valueEnd
  | blockEnd
  | ifStart
  | ifEnd
  | whileStart
  | whileEnd
  | forStart
  | forConditionEnd
  | forEnd
deriving DecidableEq, Repr

namespace Landmark

/-- The kind of token demanded. -/
def kind : Landmark → TokenKind
  | groupEnd | ifEnd | whileEnd | forEnd => .rightParen
  | branchSeparator => .colon
  | variableName => .identifier
  | variableEnd | valueEnd | forConditionEnd => .semicolon
  | blockEnd => .rightBrace
  | ifStart | whileStart | forStart => .leftParen

/-- The message when something else stands there. -/
def message : Landmark → String
  | groupEnd => "Expected ')' after expression."
  | branchSeparator => "Expected ':' after then-branch of ternary conditional expression."
  | variableName => "Expected variable name."
  | variableEnd => "Expected ';' after variable declaration."
  | valueEnd => "Expected ';' after value."
  | blockEnd => "Expected '\x7d' after block."
  | ifStart => "Expected '(' after 'if'."
  | ifEnd => "Expected ')' after if condition."
  | whileStart => "Expected '(' after 'while'."
  | whileEnd => "Expected ')' after while condition."
  | forStart => "Expected '(' after 'for'."
  | forConditionEnd => "Expected ';' after loop condition."
  | forEnd => "Expected ')' after for clauses."

end Landmark

/-- A cause of an error. -/
inductive Problem
  /-- A character that begins no token. -/
  | unexpectedCharacter
  /-- A string that the end of the text cuts off. -/
  | unterminatedString
  /-- More open levels than the ceiling allows. -/
  | tooMuchNesting
  /-- Something else than an expression stands where one has to begin. -/
  | expectedExpression
  /-- A token of a literal's kind that carries no value of that kind. -/
  | expectedLiteral
  /-- Something else stands at a landmark. -/
  | expected (landmark : Landmark)
  /-- The left side of an assignment is no variable. -/
  | invalidAssignmentTarget
  /-- A binary operator that has nothing on its left. -/
  | missingLeftOperand
deriving DecidableEq, Repr

namespace Problem

/-- The message. -/
def message : Problem → String
  | unexpectedCharacter => "Unexpected character."
  | unterminatedString => "Unterminated string."
  | tooMuchNesting => "Too much nesting."
  | expectedExpression => "Expected expression."
  | expectedLiteral => "Expected literal value."
  | expected landmark => landmark.message
  | invalidAssignmentTarget => "Invalid assignment target."
  | missingLeftOperand => "Missing left-hand operand."

/-- Whether the problem ends the rule that met it. -/
def isStructural : Problem → Bool
  | invalidAssignmentTarget | missingLeftOperand => false
  | _ => true

end Problem

end LoxSyntax
