import LoxSyntax.Proofs.Reading.Stops
import LoxSyntax.Proofs.Tree.Items

/-!
# The sentences that are expressions

The grammar of expressions as it is written down, without a parser: which lists of tokens are an
expression of a level, and of which tree.  The branches of a conditional are expressions of the
loosest level, so that the grammar alone could end the last branch before a comma or behind it; it
is made to go on as far as it can by keeping conditionals out of the left side of a comma.

* `Expr.Derives` — the grammar.
* `Expr.Derives.items` — the tree has kept the tokens of its sentence in their order.
* **`Expr.Reads.derives`** — what was read without a complaint is a sentence, and its tree.
-/

namespace LoxSyntax

/-- `Derives p ts e`: the tokens are an expression of level `p`, and `e` is its tree. -/
inductive Expr.Derives : Precedence → List Token → Expr → Prop
  /-- Operators of a level associate to the left.  What ends in a conditional would have taken a
  comma behind it into its last branch. -/
  | join {p q ts lhs op us rhs} (left : Derives p ts lhs) (hop : op.kind.precedence? = some p)
      (hq : p < q) (right : Derives q us rhs)
      (hcomma : p = .comma → lhs.endsInConditional = false) :
      Derives p (ts ++ op :: us) (p.join lhs op rhs)
  | assign {x equals ts v} (hx : x.kind = .identifier) (hequals : equals.kind = .equal)
      (value : Derives .assignment ts v) :
      Derives .assignment (x :: equals :: ts) (.assign x v)
  | conditional {ts condition question us yes colon vs no}
      (hcondition : Derives .disjunction ts condition) (hquestion : question.kind = .question)
      (hyes : Derives .comma us yes) (hcolon : colon.kind = .colon)
      (hno : Derives .comma vs no) :
      Derives .conditional (ts ++ question :: (us ++ colon :: vs)) (.conditional condition yes no)
  | unary {op ts e} (hop : op.kind.isUnary) (arg : Derives .unary ts e) :
      Derives .unary (op :: ts) (.unary op e)
  | no {t} (ht : t.kind = .falseWord) : Derives .primary [t] (.bool false)
  | yes {t} (ht : t.kind = .trueWord) : Derives .primary [t] (.bool true)
  | nil {t} (ht : t.kind = .nilWord) : Derives .primary [t] .nil
  | number {t value} (ht : t.kind = .number) (hvalue : t.literal = some (.number value)) :
      Derives .primary [t] (.number value)
  | string {t text} (ht : t.kind = .string) (htext : t.literal = some (.string text)) :
      Derives .primary [t] (.string text)
  | group {left ts e right} (hleft : left.kind = .leftParen) (inner : Derives .comma ts e)
      (hright : right.kind = .rightParen) :
      Derives .primary (left :: (ts ++ [right])) (.group e)
  | name {x} (hx : x.kind = .identifier) : Derives .primary [x] (.variable x)
  /-- What holds together more tightly stands wherever less is asked for. -/
  | tighter {p q ts e} (hq : p < q) (inner : Derives q ts e) : Derives p ts e

namespace Expr.Derives

variable {p : Precedence} {ts : List Token} {e : Expr}

/-- The sentence of a name is that name. -/
theorem eq_of_variable {x : Token} (h : Derives p ts (.variable x)) :
    ts = [x] ∧ x.kind = .identifier := by
  generalize he : Expr.variable x = e at h
  induction h with
  | @join p q ts lhs op us rhs => cases p <;> cases he
  | name hx =>
    cases he
    exact ⟨rfl, hx⟩
  | tighter _ _ ih => exact ih he
  | _ => cases he

/-- The tree has kept the tokens of its sentence in their order. -/
theorem items (h : Derives p ts e) : ts.map Token.item = e.items := by
  induction h with
  | join _ hop _ _ _ ih ih' =>
    rw [items_join, List.map_append, List.map_cons, ih, ih', Token.item_of_operator hop]
  | assign hx hequals _ ih =>
    simp only [List.map_cons, ih, Token.item_of_identifier hx, Expr.items,
      Token.item_of_mark hequals rfl]
  | conditional _ hquestion _ hcolon _ ih ih' ih'' =>
    simp only [List.map_append, List.map_cons, ih, ih', ih'', Expr.items,
      Token.item_of_mark hquestion rfl,
      Token.item_of_mark hcolon rfl]
  | unary hop _ ih => simp only [List.map_cons, ih, Token.item_of_unary hop, Expr.items]
  | no ht | yes ht | nil ht =>
    simp only [List.map_cons, List.map_nil, Expr.items,
      Token.item_of_mark ht rfl]
  | number ht hvalue =>
    simp only [List.map_cons, List.map_nil, Expr.items, Token.item_of_number ht hvalue]
  | string ht htext =>
    simp only [List.map_cons, List.map_nil, Expr.items, Token.item_of_string ht htext]
  | group hleft _ hright ih =>
    simp only [List.map_cons, List.map_append, List.map_nil, ih, Expr.items,
      Token.item_of_mark hleft rfl,
      Token.item_of_mark hright rfl]
  | name hx => simp only [List.map_cons, List.map_nil, Expr.items, Token.item_of_identifier hx]
  | tighter _ _ ih => exact ih

end Expr.Derives

/-- What was read without a complaint is a sentence, and its tree. -/
theorem Expr.Reads.derives {endLine : UInt32} {m : Nat} {scope : Scope} {ts us : List Token}
    {e : Expr} {ev : List Event} (h : Expr.Reads endLine m scope ts e us ev)
    (hclean : ∀ d, .diagnosed d ∉ ev) :
    ∃ used, ts = used ++ us ∧ Expr.Derives scope.loosest used e := by
  induction h with
  | operand hp _ ih =>
    obtain ⟨used, rfl, hderives⟩ := ih hclean
    refine ⟨used, rfl, .tighter ?_ hderives⟩
    exact Nat.lt_of_lt_of_eq (Nat.lt_succ_self _) (Scope.loosest_operands hp).symm
  | @join m p ts lhs op us rhs vs ev ev' left hop _ ih ih' =>
    simp only [List.mem_append, not_or, forall_and] at hclean
    obtain ⟨used, rfl, hlhs⟩ := ih hclean.1
    obtain ⟨used', rfl, hrhs⟩ := ih' hclean.2
    have hlt : p < p.operands.loosest := Nat.lt_of_lt_of_eq (Nat.lt_succ_self _)
      (Scope.loosest_operands (TokenKind.isChain_of_precedence? hop)).symm
    exact ⟨used ++ op :: used', by simp,
      .join hlhs hop hlt hrhs fun _ => left.endsInConditional_eq_false hop⟩
  | close _ _ _ ih | opened _ ih => exact ih hclean
  | unassigned _ _ ih | unbranched _ _ ih | bare _ _ ih =>
    obtain ⟨used, rfl, hderives⟩ := ih hclean
    exact ⟨used, rfl, .tighter (by decide) hderives⟩
  | @assign m ts x equals us v vs ev ev' _ hequals _ ih ih' =>
    simp only [List.mem_append, not_or, forall_and] at hclean
    obtain ⟨used, rfl, htarget⟩ := ih hclean.1
    obtain ⟨used', rfl, hvalue⟩ := ih' hclean.2
    obtain ⟨rfl, hx⟩ := htarget.eq_of_variable
    exact ⟨x :: equals :: used', by simp, .assign hx hequals hvalue⟩
  | invalidTarget =>
    exact absurd (List.mem_append_right _ (List.mem_append_right _ (List.mem_singleton.2 rfl)))
      (hclean _)
  | @conditional m ts c question us yes colon vs no ws ev ev' ev'' _ hquestion _ hcolon _ ih ih'
      ih'' =>
    simp only [List.mem_append, not_or, forall_and] at hclean
    obtain ⟨used, rfl, hcondition⟩ := ih hclean.1
    obtain ⟨used', rfl, hyes⟩ := ih' hclean.2.1
    obtain ⟨used'', rfl, hno⟩ := ih'' hclean.2.2
    exact ⟨used ++ question :: (used' ++ colon :: used''), by simp,
      .conditional hcondition hquestion hyes hcolon hno⟩
  | @unary m op ts e us ev hop _ ih =>
    obtain ⟨used, rfl, harg⟩ := ih hclean
    exact ⟨op :: used, rfl, .unary hop harg⟩
  | no ht => exact ⟨[_], rfl, .no ht⟩
  | yes ht => exact ⟨[_], rfl, .yes ht⟩
  | nil ht => exact ⟨[_], rfl, .nil ht⟩
  | number ht hvalue => exact ⟨[_], rfl, .number ht hvalue⟩
  | string ht htext => exact ⟨[_], rfl, .string ht htext⟩
  | @group m left ts e right us ev hleft _ hright ih =>
    obtain ⟨used, rfl, hinner⟩ := ih hclean
    exact ⟨left :: (used ++ [right]), by simp, .group hleft hinner hright⟩
  | name hx => exact ⟨[_], rfl, .name hx⟩
  | missing => exact absurd (List.mem_cons_self ..) (hclean _)

end LoxSyntax
