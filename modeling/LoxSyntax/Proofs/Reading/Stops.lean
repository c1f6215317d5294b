import LoxSyntax.Proofs.Reading.Statement
import LoxSyntax.Proofs.Tree.Normal

/-!
# In front of what reading stops

An expression is read as far as it goes on, so that the token behind it tells what has been read: it
cannot be one that would have continued the expression.  A conditional goes on with everything.

* `TokenKind.continuation?` — the level of what a token continues an expression to.
* `Scope.loosest`, `Scope.Stops` — how tight a derivation is, and in front of what it can stop.
* **`Expr.Reads.stops`** — a derivation stops in front of something that it does not go on with.
* **`Expr.Reads.continuation?_eq_none`** — behind a conditional nothing goes on.
-/

namespace LoxSyntax

/-! ## What goes on -/

/-- The level of the expression that this kind makes of the one in front of it. -/
def TokenKind.continuation? : TokenKind → Option Precedence
  | equal => some .assignment
  | question => some .conditional
  | k => k.precedence?

namespace TokenKind

theorem continuation?_of_precedence? {k : TokenKind} {p : Precedence}
    (h : k.precedence? = some p) : k.continuation? = some p := by
  cases k <;> simp only [precedence?, reduceCtorEq] at h <;> exact h

/-- What makes a level of chains is an operator. -/
theorem precedence?_of_continuation? {k : TokenKind} {p : Precedence}
    (h : k.continuation? = some p) (hp : p.isChain) : k.precedence? = some p := by
  cases k <;> simp only [continuation?, precedence?, Option.some.injEq, reduceCtorEq] at h ⊢ <;>
    first | exact h | (subst h; cases hp)

theorem continuation?_eq_assignment {k : TokenKind} (h : k.continuation? = some .assignment) :
    k = .equal := by
  cases k <;> simp [continuation?, precedence?] at h ⊢

theorem continuation?_eq_conditional {k : TokenKind} (h : k.continuation? = some .conditional) :
    k = .question := by
  cases k <;> simp [continuation?, precedence?] at h ⊢

/-- Nothing is continued to an operand. -/
theorem lt_unary_of_continuation? {k : TokenKind} {p : Precedence}
    (h : k.continuation? = some p) : p < .unary := by
  cases k <;> simp only [continuation?, precedence?, Option.some.injEq, reduceCtorEq] at h <;>
    subst h <;> decide

end TokenKind

namespace Precedence

theorem lt_of_le_of_ne {p q : Precedence} (h : p ≤ q) (hne : p ≠ q) : p < q := by
  cases p <;> cases q <;> first | exact absurd rfl hne | exact absurd h (by decide) | decide

theorem lt_of_lt_of_le {p q r : Precedence} (h : p < q) (h' : q ≤ r) : p < r :=
  Nat.lt_of_lt_of_le h h'

theorem le_of_lt {p q : Precedence} (h : p < q) : p ≤ q :=
  Nat.le_of_lt h

theorem le_trans {p q r : Precedence} (h : p ≤ q) (h' : q ≤ r) : p ≤ r :=
  Nat.le_trans h h'

theorem not_lt_comma (p : Precedence) : ¬ p < .comma :=
  Nat.not_lt_zero p.rank

end Precedence

namespace Scope

/-- The loosest level of what is read. -/
def loosest : Scope → Precedence
  | chain p => p
  | level p => p
  | opened o => o.level

/-- Whether a derivation can stop in front of a kind: what goes on there is looser.  Chains can stop
in front of their own operators. -/
def Stops (scope : Scope) (k : TokenKind) : Prop :=
  ∀ p, k.continuation? = some p →
    match scope with
    | chain q => p ≤ q
    | level q => p < q
    | opened o => p < o.level

/-- The operands of a chain are one level tighter than the chain. -/
theorem loosest_operands {p : Precedence} (hp : p.isChain) :
    p.operands.loosest.rank = p.rank + 1 := by
  cases p <;> first | rfl | cases hp

/-- Operands stop where the chain can stop. -/
theorem stops_operands {p : Precedence} (hp : p.isChain) {k : TokenKind} :
    p.operands.Stops k ↔ (chain p).Stops k := by
  have hrank := loosest_operands hp
  have hlt : ∀ q, q < p.operands.loosest ↔ q ≤ p := by
    intro q
    show q.rank < _ ↔ q.rank ≤ p.rank
    omega
  refine forall_congr' fun q => imp_congr_right fun _ => ?_
  cases p <;> exact hlt q

end Scope

/-! ## Where reading stops -/

namespace Expr.Reads

variable {endLine : UInt32} {m : Nat} {scope : Scope} {ts us : List Token} {e : Expr}
  {ev : List Event}

/-- A derivation stops in front of something that it does not go on with. -/
theorem stops (h : Expr.Reads endLine m scope ts e us ev) : scope.Stops (nextKind us) := by
  induction h with
  | operand hp _ ih => exact (Scope.stops_operands hp).1 ih
  | join _ hop _ _ ih =>
    exact (Scope.stops_operands (TokenKind.isChain_of_precedence? hop)).1 ih
  | close hp _ stop ih =>
    intro q hq
    refine Precedence.lt_of_le_of_ne (ih q hq) ?_
    rintro rfl
    exact stop (TokenKind.precedence?_of_continuation? hq hp)
  | @unassigned m ts e us ev _ stop ih =>
    intro q hq
    have hlt : q < .conditional := ih q hq
    have hne : q ≠ .assignment := by
      rintro rfl
      exact stop (TokenKind.continuation?_eq_assignment hq)
    revert hlt hne
    cases q <;> decide
  | assign _ _ _ _ ih | invalidTarget _ _ _ _ _ ih => exact ih
  | @unbranched m ts e us ev _ stop ih =>
    intro q hq
    have hlt : q < .disjunction := ih q hq
    have hne : q ≠ .conditional := by
      rintro rfl
      exact stop (TokenKind.continuation?_eq_conditional hq)
    revert hlt hne
    cases q <;> decide
  | conditional _ _ _ _ _ _ _ ih =>
    intro q hq
    exact absurd (ih q hq) q.not_lt_comma
  | unary _ _ ih => exact ih
  | bare _ _ _ => exact fun q hq => TokenKind.lt_unary_of_continuation? hq
  | no | yes | nil | number | string | name | missing | group =>
    exact fun q hq => Precedence.lt_of_lt_of_le (TokenKind.lt_unary_of_continuation? hq) (by decide)
  | opened _ ih => exact ih

/-- Behind a whole expression nothing goes on. -/
theorem continuation?_of_expression (h : Expr.Reads endLine m (.opened .expression) ts e us ev) :
    (nextKind us).continuation? = none := by
  rcases hq : (nextKind us).continuation? with _ | q
  · rfl
  · exact absurd (h.stops q hq) q.not_lt_comma

/-- Behind a conditional nothing goes on, for its last branch would have gone on with it. -/
theorem continuation?_eq_none (h : Expr.Reads endLine m scope ts e us ev)
    (hend : e.endsInConditional) : (nextKind us).continuation? = none := by
  induction h with
  | operand _ _ ih | close _ _ _ ih | unassigned _ _ ih | unbranched _ _ ih | bare _ _ ih
  | opened _ ih => exact ih hend
  | @join m p ts lhs op us rhs vs ev ev' _ hop _ _ ih =>
    rw [endsInConditional_join hop, Bool.and_eq_true] at hend
    exact ih hend.2
  | assign _ _ _ _ ih => exact ih hend
  | invalidTarget _ hequals _ _ ih _ =>
    have := ih hend
    rw [nextKind_cons, hequals] at this
    cases this
  | conditional _ _ _ _ hno => exact hno.continuation?_of_expression
  | _ => cases hend

/-- What an operator follows does not end in a conditional. -/
theorem endsInConditional_eq_false {op : Token} {p : Precedence}
    (h : Expr.Reads endLine m scope ts e (op :: us) ev) (hop : op.kind.precedence? = some p) :
    e.endsInConditional = false := by
  rw [Bool.eq_false_iff]
  intro hend
  have hnone := h.continuation?_eq_none hend
  rw [nextKind_cons, TokenKind.continuation?_of_precedence? hop] at hnone
  cases hnone

end Expr.Reads

end LoxSyntax
