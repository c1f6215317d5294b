import LoxSyntax.Proofs.Layout.Rule

/-!
# The grammar on other lines

The rules of the grammar choose by kinds and by the values of literals, neither of which is changed
by other lines.  So each of them replies the same on other lines, with its trees on those lines.

* **`Grammar.atRoom_relines`**, **`Grammar.statementAt_relines`** — expressions and statements.
* `Grammar.declarationsOf_relines` — declarations, one after another.
-/

namespace LoxSyntax

namespace Grammar

open Rule

variable {f : UInt32 → UInt32}

/-! ## Expressions -/

section Expressions

variable {deeper : Opening → Rule Expr}
  (h : ∀ o, Relines f (Expr.relined f) (deeper o) (deeper o))

include h

theorem product_relines : Relines f (Expr.relined f) (product deeper) (product deeper) :=
  (h .unary).leftAssociative _

theorem sum_relines : Relines f (Expr.relined f) (sum deeper) (sum deeper) :=
  (product_relines h).leftAssociative _

theorem comparison_relines : Relines f (Expr.relined f) (comparison deeper) (comparison deeper) :=
  (sum_relines h).leftAssociative _

theorem equality_relines : Relines f (Expr.relined f) (equality deeper) (equality deeper) :=
  (comparison_relines h).leftAssociative _

theorem conjunction_relines :
    Relines f (Expr.relined f) (conjunction deeper) (conjunction deeper) :=
  (equality_relines h).leftAssociative _

theorem disjunction_relines :
    Relines f (Expr.relined f) (disjunction deeper) (disjunction deeper) :=
  (conjunction_relines h).leftAssociative _

theorem conditional_relines :
    Relines f (Expr.relined f) (conditional deeper) (conditional deeper) :=
  (disjunction_relines h).bind fun condition => .ite_eat .question
    ((h .expression).bind fun yes => (Relines.expect _).bind fun _ =>
      (h .expression).bind fun no => .pure (Expr.conditional condition yes no))
    (.pure condition)

/-- A variable is a variable on any line. -/
theorem assignment_relines :
    Relines f (Expr.relined f) (assignment deeper) (assignment deeper) := by
  refine (conditional_relines h).bind fun target => Relines.place.bind fun equals =>
    .ite_eat .equal ((h .assignment).bind fun value => ?_) (.pure target)
  cases target with
  | «variable» name => exact .pure (Expr.assign name value)
  | _ => exact (Relines.report .invalidAssignmentTarget equals).bind fun _ => .pure _

theorem comma_relines : Relines f (Expr.relined f) (comma deeper) (comma deeper) :=
  (assignment_relines h).leftAssociative _

omit h in
theorem literal_relines (t : Token) :
    Relines f (Expr.relined f) (literal t) (literal (t.relined f)) := by
  refine Relines.place.bind fun start => Relines.skip.bind fun _ => ?_
  rw [Token.relined_kind, Token.relined_literal]
  split
  · next value _ _ => exact .pure (Expr.number value)
  · next text _ _ => exact .pure (Expr.string text)
  · exact .failAt .expectedLiteral start

omit h in
theorem missingOperand_relines {operand : Rule Expr}
    (h : Relines f (Expr.relined f) operand operand) :
    Relines f (Expr.relined f) (missingOperand operand) (missingOperand operand) :=
  Relines.place.bind fun start => (Relines.report _ start).bind fun _ =>
    Relines.skip.bind fun _ => h.bind fun _ => .pure Expr.missing

theorem primary_relines : Relines f (Expr.relined f) (primary deeper) (primary deeper) :=
  Relines.next?.bind fun
    | none => .fail _
    | some t => by
      dsimp only [Option.map_some]
      rw [Token.relined_kind]
      split
      · exact Relines.skip.bind fun _ => .pure (Expr.bool false)
      · exact Relines.skip.bind fun _ => .pure (Expr.bool true)
      · exact Relines.skip.bind fun _ => .pure Expr.nil
      · exact literal_relines t
      · exact literal_relines t
      · exact Relines.skip.bind fun _ => (h .expression).bind fun inner =>
          (Relines.expect _).bind fun _ => .pure (Expr.group inner)
      · exact Relines.skip.bind fun _ => .pure (Expr.variable t)
      · split
        · exact missingOperand_relines (equality_relines h)
        · exact missingOperand_relines (comparison_relines h)
        · exact missingOperand_relines (sum_relines h)
        · exact missingOperand_relines (product_relines h)
        · exact .fail _

theorem unary_relines : Relines f (Expr.relined f) (unary deeper) (unary deeper) :=
  (Relines.eat? _).bind fun
    | some op => (h .unary).bind fun arg => .pure (Expr.unary op arg)
    | none => primary_relines h

theorem opened_relines : ∀ o, Relines f (Expr.relined f) (opened deeper o) (opened deeper o)
  | .expression => comma_relines h
  | .assignment => assignment_relines h
  | .unary => unary_relines h

end Expressions

/-- Expressions are read alike on other lines. -/
theorem atRoom_relines (m : Nat) :
    ∀ o, Relines f (Expr.relined f) (atRoom m o) (atRoom m o) := by
  induction m with
  | zero => exact fun _ => .fail _
  | succ m ih => exact fun o => (opened_relines ih o).nested

/-! ## Statements -/

section Statements

variable {expr : Rule Expr} {stmt : Rule Stmt} (he : Relines f (Expr.relined f) expr expr)
  (hs : Relines f (Stmt.relined f) stmt stmt)

include he

theorem terminated_relines : Relines f (Expr.relined f) (terminated expr) (terminated expr) :=
  he.bind fun e => (Relines.expect _).bind fun _ => .pure e

theorem variableDeclaration_relines :
    Relines f (Stmt.relined f) (variableDeclaration expr) (variableDeclaration expr) :=
  (Relines.expect _).bind fun name => .ite_eat .equal
    (he.bind fun initial =>
      (Relines.expect _).bind fun _ => .pure (Stmt.declare name (some initial)))
    ((Relines.expect _).bind fun _ => .pure (Stmt.declare name none))

theorem unlessNext_relines (kind : TokenKind) :
    Relines f (Option.map (Expr.relined f)) (unlessNext expr kind) (unlessNext expr kind) :=
  Relines.place.bind fun start => by
    rw [Place.relined_kind]
    split
    · exact .pure none
    · exact he.bind fun e => .pure (some e)

theorem forInitial_relines :
    Relines f (Option.map (Stmt.relined f)) (forInitial expr) (forInitial expr) :=
  .ite_eat .semicolon (.pure none) <| .ite_eat .varWord
    ((variableDeclaration_relines he).bind fun s => .pure (some s))
    ((terminated_relines he).bind fun e => .pure (some (Stmt.expression e)))

include hs

theorem declarationOf_relines :
    Relines f (Option.map (Stmt.relined f)) (declarationOf expr stmt) (declarationOf expr stmt) :=
  Relines.place.bind fun start => (Relines.note (.declaring start)).bind fun _ =>
    (Relines.ite_eat .varWord (variableDeclaration_relines he) hs).recovered

omit he hs in
theorem declarationsOf_relines {declaration : Rule (Option Stmt)}
    (h : Relines f (Option.map (Stmt.relined f)) declaration declaration) (last : TokenKind)
    (rounds : List Token) :
    Relines f (Program.relined f) (declarationsOf declaration last rounds)
      (declarationsOf declaration last (rounds.map (Token.relined f))) := by
  induction rounds with
  | nil => exact .pure []
  | cons _ rounds ih =>
    refine Relines.place.bind fun start => ?_
    rw [Place.relined_kind]
    dsimp only
    split
    · exact .pure []
    · refine h.bind fun first => ih.map fun ss => ?_
      cases first <;> rfl

theorem block_relines : Relines f (Stmt.relined f) (block expr stmt) (block expr stmt) :=
  Relines.place.bind fun start =>
    (declarationsOf_relines (declarationOf_relines he hs) .rightBrace start.unread).bind
      fun body => (Relines.expect _).bind fun _ => .pure (Stmt.block body)

theorem conditionalStatement_relines :
    Relines f (Stmt.relined f) (conditionalStatement expr stmt) (conditionalStatement expr stmt) :=
  (Relines.expect _).bind fun _ => he.bind fun condition => (Relines.expect _).bind fun _ =>
    hs.bind fun yes => .ite_eat .elseWord
      (hs.bind fun no => .pure (Stmt.ifElse condition yes no))
      (.pure (Stmt.ifThen condition yes))

theorem whileLoop_relines :
    Relines f (Stmt.relined f) (whileLoop expr stmt) (whileLoop expr stmt) :=
  (Relines.expect _).bind fun _ => he.bind fun condition => (Relines.expect _).bind fun _ =>
    hs.bind fun body => .pure (Stmt.loop condition body)

theorem forLoop_relines : Relines f (Stmt.relined f) (forLoop expr stmt) (forLoop expr stmt) :=
  (Relines.expect _).bind fun _ => (forInitial_relines he).bind fun initial =>
    (unlessNext_relines he _).bind fun condition => (Relines.expect _).bind fun _ =>
      (unlessNext_relines he _).bind fun increment => (Relines.expect _).bind fun _ =>
        hs.bind fun body => Stmt.relined_ofFor f initial condition increment body ▸ .pure _

theorem statementBody_relines :
    Relines f (Stmt.relined f) (statementBody expr stmt) (statementBody expr stmt) := by
  refine Relines.place.bind fun start => ?_
  rw [Place.relined_kind]
  split
  · exact Relines.skip.bind fun _ => (terminated_relines he).bind fun e => .pure (Stmt.print e)
  · exact Relines.skip.bind fun _ => block_relines he hs
  · exact Relines.skip.bind fun _ => conditionalStatement_relines he hs
  · exact Relines.skip.bind fun _ => whileLoop_relines he hs
  · exact Relines.skip.bind fun _ => forLoop_relines he hs
  · exact (terminated_relines he).bind fun e => .pure (Stmt.expression e)

end Statements

/-- Statements are read alike on other lines. -/
theorem statementAt_relines (m : Nat) :
    Relines f (Stmt.relined f) (statementAt m) (statementAt m) := by
  induction m with
  | zero => exact .fail _
  | succ m ih => exact (statementBody_relines (atRoom_relines m .expression) ih).nested

end Grammar

end LoxSyntax
