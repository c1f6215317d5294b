import LoxSyntax.Grammar.Expression
import LoxSyntax.Proofs.Rule.Success

/-!
# The operand furthest to the left

An expression is read from its first operand on: each level of the grammar puts what it has read so
far to the left of something larger, and none of them looks into it.  Assignment asks what it is,
but only whether it is a variable.  So where `nil` has been read as the first operand,
`Expr.missing` in its place leads to the same end, only that it stands in the tree instead.

* `Expr.leftmost`, `Expr.withLeftmost` — the leftmost leaf of an expression, and another one for it.
* `Reply.Misses` — a reply that misses the operand which another one has, with events in front.
* `Reply.Misses.bind` — what is read behind the two.
* **`Grammar.comma_misses`** — each level of the grammar makes one such reply of another.
-/

namespace LoxSyntax

/-! ## Leaves -/

namespace Expr

/-- The leaf that is reached from one first child to the next. -/
def leftmost : Expr → Expr
  | .unary _ arg => arg.leftmost
  | .binary lhs _ _ => lhs.leftmost
  | .logical lhs _ _ => lhs.leftmost
  | .conditional condition _ _ => condition.leftmost
  | .group inner => inner.leftmost
  | .assign _ value => value.leftmost
  | .string text => .string text
  | .number value => .number value
  | .bool value => .bool value
  | .nil => .nil
  | .variable name => .variable name
  | .missing => .missing

/-- The expression with another leaf for the leftmost one. -/
def withLeftmost : Expr → (leaf : Expr) → Expr
  | .unary op arg, leaf => .unary op (arg.withLeftmost leaf)
  | .binary lhs op rhs, leaf => .binary (lhs.withLeftmost leaf) op rhs
  | .logical lhs op rhs, leaf => .logical (lhs.withLeftmost leaf) op rhs
  | .conditional condition yes no, leaf => .conditional (condition.withLeftmost leaf) yes no
  | .group inner, leaf => .group (inner.withLeftmost leaf)
  | .assign name value, leaf => .assign name (value.withLeftmost leaf)
  | .string _, leaf | .number _, leaf | .bool _, leaf | .nil, leaf | .variable _, leaf
  | .missing, leaf => leaf

theorem leftmost_join (p : Precedence) (lhs : Expr) (op : Token) (rhs : Expr) :
    (p.join lhs op rhs).leftmost = lhs.leftmost := by
  cases p <;> rfl

theorem withLeftmost_join (p : Precedence) (lhs : Expr) (op : Token) (rhs leaf : Expr) :
    (p.join lhs op rhs).withLeftmost leaf = p.join (lhs.withLeftmost leaf) op rhs := by
  cases p <;> rfl

end Expr

/-! ## Replies -/

/-- The second reply is the first one, which has `nil` as the leftmost operand, but misses that
operand; `lead` is what happened because of it. -/
structure Reply.Misses (lead : List Event) (r r' : Reply Expr) : Prop where
  leftmost_eq : ∀ e ∈ r.result, e.leftmost = .nil
  reply_eq : r' = ⟨r.result.map (·.withLeftmost .missing), r.cursor, lead ++ r.events⟩

namespace Rule

/-- From every cursor the second rule replies as the first one does, but misses an operand. -/
def Misses (rule rule' : Rule Expr) : Prop :=
  ∀ c, Reply.Misses [] (rule c) (rule' c)

theorem Misses.pure {e : Expr} (h : e.leftmost = .nil) :
    Misses (Pure.pure e) (Pure.pure (e.withLeftmost .missing)) := fun _ =>
  ⟨by rintro _ ⟨⟩; exact h, rfl⟩

/-- What is read behind a rule that replies the same. -/
theorem Misses.same_bind {α : Type} (rule : Rule α) {next next' : α → Rule Expr}
    (h : ∀ a, Misses (next a) (next' a)) : Misses (rule >>= next) (rule >>= next') := by
  intro c
  rcases hrule : rule c with ⟨_ | a, c₁, ev⟩
  · rw [bind_of_none hrule, bind_of_none hrule]
    exact ⟨fun _ he => (nomatch he), rfl⟩
  · obtain ⟨hleftmost, hreply⟩ := h a c₁
    rw [bind_of_some hrule, bind_of_some hrule, hreply]
    exact ⟨hleftmost, rfl⟩

/-- A choice by a token. -/
theorem Misses.ite_eat (kind : TokenKind) {yes yes' no no' : Rule Expr} (hyes : Misses yes yes')
    (hno : Misses no no') :
    Misses (do if ← eat kind then yes else no) (do if ← eat kind then yes' else no') := by
  refine .same_bind _ fun eaten => ?_
  cases eaten with
  | false => exact hno
  | true => exact hyes

end Rule

/-- What is read behind an operand, and behind a missing one. -/
theorem Reply.Misses.bind {lead : List Event} {rule : Rule Expr} {next : Expr → Rule Expr}
    {c c' : Cursor} (h : Reply.Misses lead (rule c) (rule c'))
    (hnext : ∀ lhs, lhs.leftmost = .nil →
      Rule.Misses (next lhs) (next (lhs.withLeftmost .missing))) :
    Reply.Misses lead ((rule >>= next) c) ((rule >>= next) c') := by
  obtain ⟨hleftmost, hrule'⟩ := h
  rcases hrule : rule c with ⟨_ | lhs, c₁, ev⟩
  · rw [hrule] at hrule'
    rw [Rule.bind_of_none hrule, Rule.bind_of_none hrule']
    exact ⟨fun _ he => (nomatch he), rfl⟩
  · rw [hrule] at hleftmost hrule'
    obtain ⟨hleftmost', hreply⟩ := hnext lhs (hleftmost lhs rfl) c₁
    rw [Rule.bind_of_some hrule, Rule.bind_of_some hrule', hreply]
    refine ⟨hleftmost', ?_⟩
    rw [List.nil_append, List.append_assoc]

/-- One level of nesting deeper. -/
theorem Reply.Misses.nested {lead : List Event} {rule : Rule Expr} {c c' : Cursor} {m : Nat}
    (hc : c.room = m + 1) (hc' : c'.room = m + 1)
    (h : Reply.Misses lead (rule c.deeper) (rule c'.deeper)) :
    Reply.Misses lead (Rule.nested rule c) (Rule.nested rule c') := by
  obtain ⟨hleftmost, hreply⟩ := h
  have hrun : ∀ {d : Cursor}, d.room = m + 1 → Rule.nested rule d = ⟨(rule d.deeper).result,
      { (rule d.deeper).cursor with depth := (rule d.deeper).cursor.depth - 1 },
      (rule d.deeper).events⟩ := by
    intro d hd
    rw [Rule.nested, if_pos (d.depth_lt_ceiling hd)]
    rfl
  rw [hrun hc, hrun hc', hreply]
  exact ⟨hleftmost, rfl⟩

/-! ## Levels -/

/-- A chain only puts its left side further to the left. -/
theorem Rule.chain_misses (p : Precedence) (operand : Rule Expr) (rounds : List Token) {lhs : Expr}
    (h : lhs.leftmost = .nil) :
    Misses (chain p operand rounds lhs) (chain p operand rounds (lhs.withLeftmost .missing)) := by
  induction rounds generalizing lhs with
  | nil => exact .pure h
  | cons _ rounds ih =>
    refine .same_bind _ fun o => ?_
    cases o with
    | none => exact .pure h
    | some op =>
      refine .same_bind operand fun rhs => ?_
      rw [← Expr.withLeftmost_join]
      exact ih (by rwa [Expr.leftmost_join])

theorem Rule.leftAssociative_misses {p : Precedence} {operand : Rule Expr} {lead : List Event}
    {c c' : Cursor} (h : Reply.Misses lead (operand c) (operand c')) :
    Reply.Misses lead (leftAssociative p operand c) (leftAssociative p operand c') :=
  h.bind fun _ hlhs => .same_bind place fun start => chain_misses p operand start.unread hlhs

namespace Grammar

open Rule

section Levels

variable {deeper : Opening → Rule Expr} {lead : List Event} {c c' : Cursor}
  (h : Reply.Misses lead (deeper .unary c) (deeper .unary c'))

include h

theorem disjunction_misses :
    Reply.Misses lead (disjunction deeper c) (disjunction deeper c') :=
  -- product, sum, comparison, equality, conjunction and disjunction
  leftAssociative_misses <| leftAssociative_misses <| leftAssociative_misses <|
    leftAssociative_misses <| leftAssociative_misses <| leftAssociative_misses h

theorem conditional_misses :
    Reply.Misses lead (conditional deeper c) (conditional deeper c') :=
  (disjunction_misses h).bind fun _ hcondition =>
    .ite_eat .question
      (.same_bind _ fun _ => .same_bind _ fun _ => .same_bind _ fun _ => .pure hcondition)
      (.pure hcondition)

/-- Neither `nil` nor a missing operand is a variable, and nothing larger is. -/
theorem assignment_misses :
    Reply.Misses lead (assignment deeper c) (assignment deeper c') := by
  refine (conditional_misses h).bind fun target htarget => .same_bind _ fun equals =>
    .ite_eat .equal (.same_bind _ fun value => ?_) (.pure htarget)
  cases target with
  | string | number | bool | missing => cases htarget
  | «variable» name => cases htarget
  | _ => exact .same_bind _ fun _ => .pure htarget

theorem comma_misses : Reply.Misses lead (comma deeper c) (comma deeper c') :=
  leftAssociative_misses (assignment_misses h)

end Levels

end Grammar

end LoxSyntax
