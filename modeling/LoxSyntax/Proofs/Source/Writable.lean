import LoxSyntax.Proofs.Token.Spelling
import LoxSyntax.Proofs.Tree.Normal

/-!
# Trees that can be written

The text of a tree scans as what the tree has kept if every operator and name has the lexeme of its
kind, every number is written by digits and every string can stand between quotes.  A missing
operand cannot be written.

* `Expr.isWritable`, `Stmt.isWritable`, `Program.isWritable` — trees that can be written.
* **`Program.isWritable_of_isNormal`** — a normal program of spelled items can be written, if it
  misses no operand and its numbers are finite.
-/

namespace LoxSyntax

/-! ## Expressions -/

namespace Expr

/-- Whether the text of an expression scans as what it has kept. -/
def isWritable : Expr → Bool
  | .string text => (Literal.string text).isSpelled
  | .number value => (Literal.number value).isSpelled && value.isFinite
  | .bool _ | .nil => true
  | .unary op arg => op.isSpelled && op.kind.isUnary && arg.isWritable
  | .binary lhs op rhs | .logical lhs op rhs =>
    lhs.isWritable && op.isSpelled && op.kind.precedence?.isSome && rhs.isWritable
  | .conditional condition yes no => condition.isWritable && yes.isWritable && no.isWritable
  | .group inner => inner.isWritable
  | .variable name => name.isSpelled && name.kind == .identifier
  | .assign name value => name.isSpelled && name.kind == .identifier && value.isWritable
  | .missing => false

/-- A normal expression can be written if nothing in it is missing, infinite or misspelled. -/
theorem isWritable_of_isNormal {e : Expr} (hnormal : e.isNormal) (hmissing : e.missingCount = 0)
    (hfinite : e.hasFiniteNumbers) (hspelled : e.items.all Item.isSpelled) : e.isWritable := by
  induction e with
  | binary lhs op rhs ihl ihr | logical lhs op rhs ihl ihr =>
    simp only [isNormal, missingCount, hasFiniteNumbers, items, List.all_append, List.all_cons,
      Bool.and_eq_true, Nat.add_eq_zero_iff, Item.isSpelled] at hnormal hmissing hfinite hspelled
    have hlhs := ihl hnormal.1.1 hmissing.1 hfinite.1 hspelled.1
    have hrhs := ihr hnormal.1.2 hmissing.2 hfinite.2 hspelled.2.2
    have hop : op.kind.precedence?.isSome := Option.isSome_of_any hnormal.2
    simp only [isWritable, hlhs, hspelled.2.1, hop, hrhs, Bool.and_self]
  | _ => simp_all [isNormal, missingCount, hasFiniteNumbers, items, isWritable, Item.isSpelled]

end Expr

/-! ## Statements -/

mutual

/-- Whether the text of a statement scans as what it has kept. -/
def Stmt.isWritable : Stmt → Bool
  | .expression e | .print e => e.isWritable
  | .declare name none => name.isSpelled && name.kind == .identifier
  | .declare name (some initial) =>
    name.isSpelled && name.kind == .identifier && initial.isWritable
  | .block body => Program.isWritable body
  | .ifThen condition yes => condition.isWritable && yes.isWritable
  | .ifElse condition yes no => condition.isWritable && yes.isWritable && no.isWritable
  | .loop condition body => condition.isWritable && body.isWritable

/-- Whether every statement can be written. -/
def Program.isWritable : Program → Bool
  | [] => true
  | s :: ss => s.isWritable && Program.isWritable ss

end

mutual

/-- A normal statement can be written if nothing in it is missing, infinite or misspelled. -/
theorem Stmt.isWritable_of_isNormal (s : Stmt) (hnormal : s.isNormal)
    (hmissing : s.missingCount = 0) (hfinite : s.hasFiniteNumbers)
    (hspelled : s.items.all Item.isSpelled) : s.isWritable := by
  match s with
  | .expression e | .print e =>
    simp only [Stmt.items, List.all_append, List.all_cons, Bool.and_eq_true] at hspelled
    exact Expr.isWritable_of_isNormal hnormal hmissing hfinite (by simp [hspelled])
  | .declare name none =>
    simp only [Stmt.items, List.all_cons, Bool.and_eq_true, Item.isSpelled] at hspelled
    exact Bool.and_eq_true_iff.2 ⟨hspelled.2.1, hnormal⟩
  | .declare name (some initial) =>
    simp only [Stmt.items, List.all_append, List.all_cons, Bool.and_eq_true, Item.isSpelled,
      Stmt.isNormal] at hspelled hnormal
    have hinitial := Expr.isWritable_of_isNormal hnormal.2 hmissing hfinite hspelled.2.2.2.1
    simp only [Stmt.isWritable, hspelled.2.1, hnormal.1, hinitial, Bool.and_self]
  | .block body =>
    simp only [Stmt.items, List.all_append, List.all_cons, Bool.and_eq_true] at hspelled
    exact Program.isWritable_of_isNormal body hnormal hmissing hfinite hspelled.2.1
  | .ifThen condition yes | .loop condition yes =>
    simp only [Stmt.isNormal, Stmt.missingCount, Stmt.hasFiniteNumbers, Stmt.items,
      List.all_append, List.all_cons, Bool.and_eq_true, Nat.add_eq_zero_iff] at *
    have hcondition := Expr.isWritable_of_isNormal hnormal.1.1 hmissing.1 hfinite.1
      hspelled.2.2.1
    have hyes := Stmt.isWritable_of_isNormal yes hnormal.1.2 hmissing.2 hfinite.2 hspelled.2.2.2.2
    simp only [Stmt.isWritable, hcondition, hyes, Bool.and_self]
  | .ifElse condition yes no =>
    simp only [Stmt.isNormal, Stmt.missingCount, Stmt.hasFiniteNumbers, Stmt.items,
      List.all_append, List.all_cons, Bool.and_eq_true, Nat.add_eq_zero_iff] at *
    obtain ⟨⟨⟨⟨hcn, hyn⟩, hnn⟩, -⟩, -⟩ := hnormal.1
    obtain ⟨hcs, -, hys, -, hns⟩ := hspelled.2.2
    have hcondition := Expr.isWritable_of_isNormal hcn hmissing.1.1 hfinite.1.1 hcs
    have hyes := Stmt.isWritable_of_isNormal yes hyn hmissing.1.2 hfinite.1.2 hys
    have hno := Stmt.isWritable_of_isNormal no hnn hmissing.2 hfinite.2 hns
    simp only [Stmt.isWritable, hcondition, hyes, hno, Bool.and_self]

/-- A normal program can be written if nothing in it is missing, infinite or misspelled. -/
theorem Program.isWritable_of_isNormal (p : Program) (hnormal : Program.isNormal p)
    (hmissing : Program.missingCount p = 0) (hfinite : Program.hasFiniteNumbers p)
    (hspelled : (Program.items p).all Item.isSpelled) : Program.isWritable p := by
  match p with
  | [] => rfl
  | s :: ss =>
    simp only [Program.isNormal, Program.missingCount, Program.hasFiniteNumbers, Program.items,
      List.all_append, Bool.and_eq_true, Nat.add_eq_zero_iff] at *
    have hs := Stmt.isWritable_of_isNormal s hnormal.1 hmissing.1 hfinite.1 hspelled.1
    have hss := Program.isWritable_of_isNormal ss hnormal.2 hmissing.2 hfinite.2 hspelled.2
    simp only [Program.isWritable, hs, hss, Bool.and_self]

end

end LoxSyntax
