import LoxSyntax.Grammar.Precedence
import LoxSyntax.Parsing.Cursor

/-!
# Rules

A rule reads from a cursor.  It replies with what it read, or with nothing if it failed, with the
cursor it left, and with what happened on the way.  A rule that fails has said why and leaves the
cursor where the failure was noticed; whoever called it fails too, up to the rule that recovers.

* `Rule`, `Reply`, `Event` — rules and their replies.
* `Rule.next?`, `Rule.skip`, `Rule.eat?`, `Rule.expect` — reading tokens.
* `Rule.report`, `Rule.fail` — problems after which a rule goes on, or ends.
* `Rule.nested` — one more level, if the ceiling allows it.
* `Rule.recovered` — a failure ends here, and parsing resumes at the next statement.
* `Rule.leftAssociative` — a chain of operands and operators.
-/

namespace LoxSyntax

/-! ## Replies -/

/-- What happened while a rule ran. -/
inductive Event
  /-- A problem was reported. -/
  | diagnosed (d : Diagnostic)
  /-- A declaration was begun. -/
  | declaring (place : Place)
  /-- Recovery began where a rule had failed. -/
  | recovering (place : Place)
deriving DecidableEq, Repr

/-- What a rule replies.  There is no result if the rule failed. -/
structure Reply (α : Type) where
  result : Option α
  cursor : Cursor
  events : List Event
deriving DecidableEq, Repr

/-- A way to read something from a cursor. -/
def Rule (α : Type) : Type :=
  Cursor → Reply α

namespace Rule

variable {α β : Type}

/-! ## Sequence -/

/-- Reads nothing. -/
protected def pure (a : α) : Rule α := fun c =>
  ⟨some a, c, []⟩

/-- One rule after another; a failure of the first is the end. -/
protected def bind (rule : Rule α) (next : α → Rule β) : Rule β := fun c =>
  match rule c with
  | ⟨some a, c₁, events⟩ =>
    match next a c₁ with
    | ⟨result, c₂, more⟩ => ⟨result, c₂, events ++ more⟩
  | ⟨none, c₁, events⟩ => ⟨none, c₁, events⟩

/-- The result of a rule, changed by a function. -/
protected def map (f : α → β) (rule : Rule α) : Rule β := fun c =>
  match rule c with
  | ⟨result, c₁, events⟩ => ⟨result.map f, c₁, events⟩

instance : Monad Rule where
  map := Rule.map
  pure := Rule.pure
  bind := Rule.bind

/-- After a rule that succeeded, the next one begins where it stopped. -/
theorem bind_of_some {rule : Rule α} {next : α → Rule β} {c c₁ : Cursor} {a : α}
    {events : List Event} (h : rule c = ⟨some a, c₁, events⟩) :
    (rule >>= next) c =
      ⟨(next a c₁).result, (next a c₁).cursor, events ++ (next a c₁).events⟩ := by
  simp only [Bind.bind, Rule.bind, h]

/-- A rule that failed is the end. -/
theorem bind_of_none {rule : Rule α} {next : α → Rule β} {c c₁ : Cursor}
    {events : List Event} (h : rule c = ⟨none, c₁, events⟩) :
    (rule >>= next) c = ⟨none, c₁, events⟩ := by
  simp only [Bind.bind, Rule.bind, h]

/-! ## Problems -/

/-- Notes an event. -/
def note (event : Event) : Rule Unit := fun c =>
  ⟨some (), c, [event]⟩

/-- Reports a problem at a place and goes on. -/
def report (problem : Problem) (place : Place) : Rule Unit :=
  note (.diagnosed ⟨problem, place⟩)

/-- Reports a problem at a place and fails. -/
def failAt (problem : Problem) (place : Place) : Rule α := fun c =>
  ⟨none, c, [.diagnosed ⟨problem, place⟩]⟩

/-- Reports a problem at the cursor and fails. -/
def fail (problem : Problem) : Rule α := fun c =>
  failAt problem c.toPlace c

/-! ## Tokens -/

/-- The place of the cursor. -/
def place : Rule Place := fun c =>
  ⟨some c.toPlace, c, []⟩

/-- The next token, which stays unread; none at the end. -/
def next? : Rule (Option Token) := fun c =>
  ⟨some c.unread.head?, c, []⟩

/-- Reads over the next token. -/
def skip : Rule Unit := fun c =>
  ⟨some (), { c with unread := c.unread.tail }, []⟩

/-- Reads the next token if its kind is accepted. -/
def eat? (accepts : TokenKind → Bool) : Rule (Option Token) := fun c =>
  match c.unread with
  | [] => ⟨some none, c, []⟩
  | t :: rest =>
    if accepts t.kind then ⟨some (some t), { c with unread := rest }, []⟩
    else ⟨some none, c, []⟩

/-- Reads the next token if it has this kind, and tells whether it did. -/
def eat (kind : TokenKind) : Rule Bool := do
  return (← eat? (· == kind)).isSome

/-- Reads the token that a landmark demands, or fails. -/
def expect (landmark : Landmark) : Rule Token := do
  match ← eat? (· == landmark.kind) with
  | some t => return t
  | none => fail (.expected landmark)

/-! ## Nesting and recovery -/

/-- Runs a rule one level deeper, or fails at the ceiling. -/
def nested (rule : Rule α) : Rule α := fun c =>
  if c.depth < c.ceiling then
    match rule { c with depth := c.depth + 1 } with
    | ⟨result, c₁, events⟩ => ⟨result, { c₁ with depth := c₁.depth - 1 }, events⟩
  else fail .tooMuchNesting c

/-- Runs a rule; if it fails, parsing resumes at the next statement. -/
def recovered (rule : Rule α) : Rule (Option α) := fun c =>
  match rule c with
  | ⟨some a, c₁, events⟩ => ⟨some (some a), c₁, events⟩
  | ⟨none, c₁, events⟩ =>
    ⟨some none, { c₁ with toPlace := c₁.toPlace.resume },
      events ++ [.recovering c₁.toPlace]⟩

/-! ## Chains -/

/-- Reads further operators of a level, each with its right operand, behind `lhs`.  Every round
reads a token, so as many rounds suffice as there are tokens unread. -/
def chain (level : Precedence) (operand : Rule Expr) : (rounds : List Token) → Expr → Rule Expr
  | [], lhs => return lhs
  | _ :: rounds, lhs => do
    match ← eat? (·.precedence? == some level) with
    | none => return lhs
    | some op =>
      let rhs ← operand
      chain level operand rounds (level.join lhs op rhs)

/-- Reads operands with operators of a level between them, grouped from the left. -/
def leftAssociative (level : Precedence) (operand : Rule Expr) : Rule Expr := do
  let lhs ← operand
  chain level operand (← place).unread lhs

end Rule

end LoxSyntax
