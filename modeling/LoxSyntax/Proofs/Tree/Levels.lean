import LoxSyntax.Grammar.Statement

/-!
# How many levels of nesting a tree takes

Statements, whole expressions, values of assignments and operands of unary operators open a level
each; a declaration does not.  The levels of a tree are counted on the tree alone.

* `Expr.levels` — the levels that the operands of an expression take.
* `Stmt.levels`, `Program.levels` — the levels of a statement, and of a program.
* `Stmt.levels_ofFor_le` — the levels of what a `for` loop stands for.
-/

namespace LoxSyntax

/-! ## Expressions -/

namespace Expr

/-- The levels that the operands of an expression take; a whole expression opens one more. -/
def levels : Expr → Nat
  | .string _ | .number _ | .bool _ | .nil | .variable _ | .missing => 1
  | .unary _ arg => 1 + arg.levels
  | .binary lhs _ rhs | .logical lhs _ rhs => max lhs.levels rhs.levels
  | .conditional condition yes no => max condition.levels (max (1 + yes.levels) (1 + no.levels))
  | .group inner => 2 + inner.levels
  | .assign _ value => 1 + value.levels

theorem levels_pos (e : Expr) : 0 < e.levels := by
  induction e <;> simp only [levels] <;> omega

theorem levels_join (p : Precedence) (lhs : Expr) (op : Token) (rhs : Expr) :
    (p.join lhs op rhs).levels = max lhs.levels rhs.levels := by
  cases p <;> rfl

end Expr

/-! ## Statements -/

mutual

/-- The levels that a statement takes. -/
def Stmt.levels : Stmt → Nat
  | .expression e | .print e => 2 + e.levels
  | .declare _ none => 0
  | .declare _ (some initial) => 1 + initial.levels
  | .block body => 1 + Program.levels body
  | .ifThen condition yes => 1 + max (1 + condition.levels) yes.levels
  | .ifElse condition yes no => 1 + max (1 + condition.levels) (max yes.levels no.levels)
  | .loop condition body => 1 + max (1 + condition.levels) body.levels

/-- The levels that a program takes. -/
def Program.levels : Program → Nat
  | [] => 0
  | s :: ss => max s.levels (Program.levels ss)

end

theorem Program.levels_append (p q : Program) : levels (p ++ q) = max (levels p) (levels q) := by
  induction p with
  | nil => exact (Nat.zero_max _).symm
  | cons s ss ih => simp only [List.cons_append, levels, ih, Nat.max_assoc]

/-- What a `for` loop stands for opens up to three levels around the body of the loop. -/
theorem Stmt.levels_ofFor_le {m k : Nat} {i : Option Stmt} {c n : Option Expr} {s : Stmt}
    (hm : 0 < m) (hi : ∀ s' ∈ i, s'.levels ≤ m + 1) (hc : ∀ e ∈ c, e.levels < m)
    (hn : ∀ e ∈ n, e.levels < m) (hs : s.levels ≤ k) :
    (Stmt.ofFor i c n s).levels ≤ max (m + 1) k + 3 := by
  have hcondition : (c.getD (.bool true)).levels ≤ m := by
    cases c with
    | none => exact hm
    | some e => exact Nat.le_of_lt (hc e rfl)
  cases i with
  | none =>
    cases n with
    | none =>
      simp only [ofFor, levels]
      omega
    | some e =>
      have := hn e rfl
      simp only [ofFor, levels, Program.levels]
      omega
  | some s' =>
    have := hi s' rfl
    cases n with
    | none =>
      simp only [ofFor, levels, Program.levels]
      omega
    | some e =>
      have := hn e rfl
      simp only [ofFor, levels, Program.levels]
      omega

end LoxSyntax
