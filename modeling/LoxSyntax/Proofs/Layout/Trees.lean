import LoxSyntax.Proofs.Reading.Relined
import LoxSyntax.Proofs.Tree.Lines
import LoxSyntax.Tree.SExpression
import LoxSyntax.Tree.SourceText

/-!
# Texts of trees without their lines

Neither form in which a tree is written shows a line: an operator or a name is written by its
lexeme.  So trees that differ in their lines only are written alike.

* `Program.relined_zero` — setting every line to zero is one way to change them.
* **`Program.sexpr_unlined`**, **`Program.source_unlined`** — a program without its lines is written
  as the program is.
-/

namespace LoxSyntax

/-! ## Every line set to zero -/

theorem Token.relined_zero : Token.relined (fun _ => 0) = Token.unlined := rfl

theorem Expr.relined_zero (e : Expr) : e.relined (fun _ => 0) = e.unlined := by
  induction e <;> simp_all [relined, unlined, Token.relined_zero]

mutual

theorem Stmt.relined_zero (s : Stmt) : s.relined (fun _ => 0) = s.unlined := by
  match s with
  | .expression e | .print e | .declare _ (some e) =>
    simp only [Stmt.relined, Stmt.unlined, e.relined_zero, Token.relined_zero]
  | .declare _ none => rfl
  | .block body => simp only [Stmt.relined, Stmt.unlined, Program.relined_zero body]
  | .ifThen condition yes =>
    simp only [Stmt.relined, Stmt.unlined, condition.relined_zero, Stmt.relined_zero yes]
  | .ifElse condition yes no =>
    simp only [Stmt.relined, Stmt.unlined, condition.relined_zero, Stmt.relined_zero yes,
      Stmt.relined_zero no]
  | .loop condition body =>
    simp only [Stmt.relined, Stmt.unlined, condition.relined_zero, Stmt.relined_zero body]

theorem Program.relined_zero (p : Program) :
    Program.relined (fun _ => 0) p = Program.unlined p := by
  match p with
  | [] => rfl
  | s :: ss =>
    simp only [Program.relined, Program.unlined, Stmt.relined_zero s, Program.relined_zero ss]

end

/-! ## Program text -/

theorem Expr.source_unlined (e : Expr) : e.unlined.source = e.source := by
  induction e with
  | bool value => cases value <;> rfl
  | _ => simp_all [unlined, source, Token.unlined, Token.between]

mutual

theorem Stmt.source_unlined (s : Stmt) (depth : Nat) : s.unlined.source depth = s.source depth := by
  match s with
  | .expression e | .print e => simp only [Stmt.unlined, Stmt.source, e.source_unlined]
  | .declare _ none => rfl
  | .declare _ (some initial) =>
    simp only [Stmt.unlined, Stmt.source, initial.source_unlined, Token.unlined]
  | .block [] => rfl
  | .block (s :: ss) =>
    have hlines := Program.sourceLines_unlined (s :: ss) (depth + 1)
    simp only [Stmt.unlined, Program.unlined, Stmt.source] at hlines ⊢
    rw [hlines]
  | .ifThen condition yes =>
    simp only [Stmt.unlined, Stmt.source, condition.source_unlined, Stmt.source_unlined yes]
  | .ifElse condition yes no =>
    simp only [Stmt.unlined, Stmt.source, condition.source_unlined, Stmt.source_unlined yes,
      Stmt.source_unlined no]
  | .loop condition body =>
    simp only [Stmt.unlined, Stmt.source, condition.source_unlined, Stmt.source_unlined body]

theorem Program.sourceLines_unlined (p : Program) (depth : Nat) :
    Stmt.sourceLines depth (Program.unlined p) = Stmt.sourceLines depth p := by
  match p with
  | [] => rfl
  | s :: ss =>
    simp only [Program.unlined, Stmt.sourceLines, Stmt.source_unlined s,
      Program.sourceLines_unlined ss]

end

/-- Program text does not show lines. -/
theorem Program.source_unlined (p : Program) : source (unlined p) = source p := by
  refine congrArg String.join ?_
  induction p with
  | nil => rfl
  | cons s ss ih => rw [unlined, List.map_cons, List.map_cons, s.source_unlined, ih]

/-! ## S-expressions -/

theorem Expr.sexpr_unlined (e : Expr) : e.unlined.sexpr = e.sexpr := by
  induction e with
  | bool value => cases value <;> rfl
  | _ => simp_all [unlined, sexpr, Token.unlined]

mutual

theorem Stmt.sexpr_unlined (s : Stmt) : s.unlined.sexpr = s.sexpr := by
  match s with
  | .expression e | .print e => simp only [Stmt.unlined, Stmt.sexpr, e.sexpr_unlined]
  | .declare _ none => rfl
  | .declare _ (some initial) =>
    simp only [Stmt.unlined, Stmt.sexpr, initial.sexpr_unlined, Token.unlined]
  | .block body => simp only [Stmt.unlined, Stmt.sexpr, Program.sexprTail_unlined body]
  | .ifThen condition yes =>
    simp only [Stmt.unlined, Stmt.sexpr, condition.sexpr_unlined, Stmt.sexpr_unlined yes]
  | .ifElse condition yes no =>
    simp only [Stmt.unlined, Stmt.sexpr, condition.sexpr_unlined, Stmt.sexpr_unlined yes,
      Stmt.sexpr_unlined no]
  | .loop condition body =>
    simp only [Stmt.unlined, Stmt.sexpr, condition.sexpr_unlined, Stmt.sexpr_unlined body]

theorem Program.sexprTail_unlined (p : Program) :
    Stmt.sexprTail (Program.unlined p) = Stmt.sexprTail p := by
  match p with
  | [] => rfl
  | s :: ss =>
    simp only [Program.unlined, Stmt.sexprTail, Stmt.sexpr_unlined s, Program.sexprTail_unlined ss]

end

/-- S-expressions do not show lines. -/
theorem Program.sexpr_unlined (p : Program) : sexpr (unlined p) = sexpr p := by
  refine congrArg "\n".intercalate ?_
  induction p with
  | nil => rfl
  | cons s ss ih => rw [unlined, List.map_cons, List.map_cons, s.sexpr_unlined, ih]

end LoxSyntax
