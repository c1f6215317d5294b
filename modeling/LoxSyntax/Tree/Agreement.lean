import LoxSyntax.Tree.Basic

/-!
# Agreement of programs

Two programs agree if they have the same nodes and their tokens and numbers agree, in whichever
sense of agreement is chosen for these.

* `Expr.agrees`, `Stmt.agrees`, `Program.agrees` — the comparison, over an `Agreement`.
* **`Program.agrees_identical`** — agreement in the narrowest sense is identity, so that programs
  have decidable equality.
* `Program.equal` — agreement where numbers are compared as numbers: the two zeros are equal, and a
  program that holds what is no number differs even from itself.
-/

namespace LoxSyntax

/-- When two tokens and when two numbers agree. -/
structure Agreement where
  token : Token → Token → Bool
  number : Binary64 → Binary64 → Bool

/-! ## Comparison -/

/-- Agreement of expressions. -/
def Expr.agrees (a : Agreement) : Expr → Expr → Bool
  | .string s, .string t => s == t
  | .number x, .number y => a.number x y
  | .bool b, .bool c => b == c
  | .nil, .nil => true
  | .unary op₁ e₁, .unary op₂ e₂ => a.token op₁ op₂ && e₁.agrees a e₂
  | .binary l₁ op₁ r₁, .binary l₂ op₂ r₂ =>
    l₁.agrees a l₂ && a.token op₁ op₂ && r₁.agrees a r₂
  | .logical l₁ op₁ r₁, .logical l₂ op₂ r₂ =>
    l₁.agrees a l₂ && a.token op₁ op₂ && r₁.agrees a r₂
  | .conditional c₁ y₁ n₁, .conditional c₂ y₂ n₂ =>
    c₁.agrees a c₂ && y₁.agrees a y₂ && n₁.agrees a n₂
  | .group e₁, .group e₂ => e₁.agrees a e₂
  | .variable x₁, .variable x₂ => a.token x₁ x₂
  | .assign x₁ e₁, .assign x₂ e₂ => a.token x₁ x₂ && e₁.agrees a e₂
  | .missing, .missing => true
  | _, _ => false

mutual

/-- Agreement of statements. -/
def Stmt.agrees (a : Agreement) : Stmt → Stmt → Bool
  | .expression e₁, .expression e₂ => e₁.agrees a e₂
  | .print e₁, .print e₂ => e₁.agrees a e₂
  | .declare x₁ none, .declare x₂ none => a.token x₁ x₂
  | .declare x₁ (some e₁), .declare x₂ (some e₂) => a.token x₁ x₂ && e₁.agrees a e₂
  | .block b₁, .block b₂ => Program.agrees a b₁ b₂
  | .ifThen c₁ y₁, .ifThen c₂ y₂ => c₁.agrees a c₂ && y₁.agrees a y₂
  | .ifElse c₁ y₁ n₁, .ifElse c₂ y₂ n₂ =>
    c₁.agrees a c₂ && y₁.agrees a y₂ && n₁.agrees a n₂
  | .loop c₁ b₁, .loop c₂ b₂ => c₁.agrees a c₂ && b₁.agrees a b₂
  | _, _ => false

/-- Agreement of programs, statement by statement. -/
def Program.agrees (a : Agreement) : Program → Program → Bool
  | [], [] => true
  | s :: ss, t :: ts => s.agrees a t && Program.agrees a ss ts
  | _, _ => false

end

/-! ## Identity -/

/-- Agreement of nothing but the same token and the same bits. -/
def Agreement.identical : Agreement where
  token t u := t == u
  number x y := x == y

/-- Agreement in the narrowest sense is identity. -/
theorem Expr.agrees_identical (e f : Expr) : e.agrees .identical f ↔ e = f := by
  induction e generalizing f <;> cases f <;> simp_all [Expr.agrees, Agreement.identical, and_assoc]

mutual

/-- Agreement in the narrowest sense is identity. -/
theorem Stmt.agrees_identical (s t : Stmt) : s.agrees .identical t ↔ s = t := by
  match s with
  | .expression e | .print e => cases t <;> simp [Stmt.agrees, Expr.agrees_identical]
  | .declare x none => rcases t with _ | _ | ⟨_, _ | _⟩ | _ | _ | _ | _ <;>
      simp [Stmt.agrees, Agreement.identical]
  | .declare x (some e) => rcases t with _ | _ | ⟨_, _ | _⟩ | _ | _ | _ | _ <;>
      simp [Stmt.agrees, Expr.agrees_identical,
        show Agreement.identical.token x _ = (x == _) from rfl]
  | .block b => cases t <;> simp [Stmt.agrees, Program.agrees_identical b]
  | .ifThen c y =>
    cases t <;> simp [Stmt.agrees, Expr.agrees_identical, Stmt.agrees_identical y]
  | .ifElse c y n =>
    cases t <;> simp [Stmt.agrees, Expr.agrees_identical, Stmt.agrees_identical y,
      Stmt.agrees_identical n, and_assoc]
  | .loop c b =>
    cases t <;> simp [Stmt.agrees, Expr.agrees_identical, Stmt.agrees_identical b]

/-- Agreement in the narrowest sense is identity. -/
theorem Program.agrees_identical (p q : Program) : Program.agrees .identical p q ↔ p = q := by
  match p with
  | [] => cases q <;> simp [Program.agrees]
  | s :: ss =>
    cases q <;>
      simp [Program.agrees, Stmt.agrees_identical s, Program.agrees_identical ss]

end

instance : DecidableEq Stmt := fun s t =>
  decidable_of_iff _ (Stmt.agrees_identical s t)

/-! ## Equality of values -/

/-- Agreement of tokens in every field, with the numbers compared as numbers. -/
def Agreement.asValues : Agreement where
  token := Token.equal
  number := Binary64.equal

/-- Equality of programs. -/
def Program.equal (p q : Program) : Bool :=
  Program.agrees .asValues p q

end LoxSyntax
