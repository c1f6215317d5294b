import LoxSyntax.Grammar.Expression
import LoxSyntax.Proofs.Rule.Success

/-!
# How an expression is read

A successful run of a rule for expressions, as a derivation.  The derivation says which tokens were
read, where reading stopped and why, and what was reported on the way; it knows nothing of cursors
and rounds.  Every fact about the trees that the rules give is an induction over it.

* `Scope` — what a derivation is of: a level of precedence, a chain of it so far, or the same one
  level of nesting deeper.
* `Expr.Reads` — the derivations.
* `Expr.Reads.length_lt` — something is always read.
* **`Grammar.atRoom_follows`** — a rule that opens a level succeeds exactly where there is a
  derivation, in both directions.
-/

namespace LoxSyntax

/-! ## What is read -/

/-- What a derivation is of. -/
inductive Scope
  /-- Operands and operators of a level so far. -/
  | chain (p : Precedence)
  /-- All that the rule of a level reads. -/
  | level (p : Precedence)
  /-- All that is read one level of nesting deeper. -/
  | opened (o : Opening)

/-- The level that an opening goes to. -/
def Opening.level : Opening → Precedence
  | expression => .comma
  | assignment => .assignment
  | unary => .unary

namespace Precedence

/-- Whether expressions of a level are chains of operands and operators. -/
def isChain : Precedence → Bool
  | assignment | conditional | unary | primary => false
  | _ => true

/-- What the operands of a chain are. -/
def operands : Precedence → Scope
  | comma => .level .assignment
  | disjunction => .level .conjunction
  | conjunction => .level .equality
  | equality => .level .comparison
  | comparison => .level .sum
  | sum => .level .product
  | _ => .opened .unary

end Precedence

/-- The operators between two operands make chains. -/
theorem TokenKind.isChain_of_precedence? {k : TokenKind} {p : Precedence}
    (h : k.precedence? = some p) : p.isChain := by
  cases k <;> simp only [precedence?, reduceCtorEq, Option.some.injEq] at h <;> subst h <;> rfl

/-- `Reads endLine m scope ts e us events`: where `m` levels may still be opened, `e` is read from
`ts`, and reading stops in front of `us`.  The tokens end on line `endLine`, which only the places
of the events tell. -/
inductive Expr.Reads (endLine : UInt32) :
    Nat → Scope → List Token → Expr → List Token → List Event → Prop
  | operand {m p ts e us ev} (hp : p.isChain) (first : Reads endLine m p.operands ts e us ev) :
      Reads endLine m (.chain p) ts e us ev
  | join {m p ts lhs op us rhs vs ev ev'}
      (left : Reads endLine m (.chain p) ts lhs (op :: us) ev)
      (hop : op.kind.precedence? = some p)
      (right : Reads endLine m p.operands us rhs vs ev') :
      Reads endLine m (.chain p) ts (p.join lhs op rhs) vs (ev ++ ev')
  | close {m p ts e us ev} (hp : p.isChain) (all : Reads endLine m (.chain p) ts e us ev)
      (stop : (nextKind us).precedence? ≠ some p) :
      Reads endLine m (.level p) ts e us ev
  | unassigned {m ts e us ev} (target : Reads endLine m (.level .conditional) ts e us ev)
      (stop : nextKind us ≠ .equal) :
      Reads endLine m (.level .assignment) ts e us ev
  | assign {m ts x equals us v vs ev ev'}
      (target : Reads endLine m (.level .conditional) ts (.variable x) (equals :: us) ev)
      (hequals : equals.kind = .equal)
      (value : Reads endLine m (.opened .assignment) us v vs ev') :
      Reads endLine m (.level .assignment) ts (.assign x v) vs (ev ++ ev')
  /-- The value is read and dropped. -/
  | invalidTarget {m ts e equals us v vs ev ev'}
      (target : Reads endLine m (.level .conditional) ts e (equals :: us) ev)
      (hequals : equals.kind = .equal) (htarget : ∀ x, e ≠ .variable x)
      (value : Reads endLine m (.opened .assignment) us v vs ev') :
      Reads endLine m (.level .assignment) ts e vs
        (ev ++ (ev' ++ [.diagnosed ⟨.invalidAssignmentTarget, ⟨equals :: us, endLine⟩⟩]))
  | unbranched {m ts e us ev} (condition : Reads endLine m (.level .disjunction) ts e us ev)
      (stop : nextKind us ≠ .question) :
      Reads endLine m (.level .conditional) ts e us ev
  | conditional {m ts condition question us yes colon vs no ws ev ev' ev''}
      (hcondition : Reads endLine m (.level .disjunction) ts condition (question :: us) ev)
      (hquestion : question.kind = .question)
      (hyes : Reads endLine m (.opened .expression) us yes (colon :: vs) ev')
      (hcolon : colon.kind = .colon)
      (hno : Reads endLine m (.opened .expression) vs no ws ev'') :
      Reads endLine m (.level .conditional) ts (.conditional condition yes no) ws
        (ev ++ (ev' ++ ev''))
  | unary {m op ts e us ev} (hop : op.kind.isUnary)
      (arg : Reads endLine m (.opened .unary) ts e us ev) :
      Reads endLine m (.level .unary) (op :: ts) (.unary op e) us ev
  | bare {m ts e us ev} (hnext : (nextKind ts).isUnary = false)
      (atom : Reads endLine m (.level .primary) ts e us ev) :
      Reads endLine m (.level .unary) ts e us ev
  | no {m t ts} (ht : t.kind = .falseWord) :
      Reads endLine m (.level .primary) (t :: ts) (.bool false) ts []
  | yes {m t ts} (ht : t.kind = .trueWord) :
      Reads endLine m (.level .primary) (t :: ts) (.bool true) ts []
  | nil {m t ts} (ht : t.kind = .nilWord) :
      Reads endLine m (.level .primary) (t :: ts) .nil ts []
  | number {m t ts value} (ht : t.kind = .number) (hvalue : t.literal = some (.number value)) :
      Reads endLine m (.level .primary) (t :: ts) (.number value) ts []
  | string {m t ts text} (ht : t.kind = .string) (htext : t.literal = some (.string text)) :
      Reads endLine m (.level .primary) (t :: ts) (.string text) ts []
  | group {m left ts e right us ev} (hleft : left.kind = .leftParen)
      (inner : Reads endLine m (.opened .expression) ts e (right :: us) ev)
      (hright : right.kind = .rightParen) :
      Reads endLine m (.level .primary) (left :: ts) (.group e) us ev
  | name {m x ts} (hx : x.kind = .identifier) :
      Reads endLine m (.level .primary) (x :: ts) (.variable x) ts []
  /-- The operand that is there is read and dropped. -/
  | missing {m op p ts e us ev} (hop : op.kind.precedence? = some p) (hp : .equality ≤ p)
      (operand : Reads endLine m (.level p) ts e us ev) :
      Reads endLine m (.level .primary) (op :: ts) .missing us
        (.diagnosed ⟨.missingLeftOperand, ⟨op :: ts, endLine⟩⟩ :: ev)
  | opened {m o ts e us ev} (inner : Reads endLine m (.level o.level) ts e us ev) :
      Reads endLine (m + 1) (.opened o) ts e us ev

namespace Expr.Reads

variable {endLine : UInt32} {m : Nat} {scope : Scope} {ts us : List Token} {e : Expr}
  {ev : List Event}

/-- What is left is an end of what there was, and shorter. -/
theorem exists_append (h : Expr.Reads endLine m scope ts e us ev) :
    ∃ used, used ≠ [] ∧ ts = used ++ us := by
  induction h with
  | operand _ _ ih | close _ _ _ ih | unassigned _ _ ih | unbranched _ _ ih | bare _ _ ih
  | opened _ ih => exact ih
  | @join m p ts lhs op us rhs vs ev ev' _ _ _ ih₁ ih₂ =>
    obtain ⟨used₁, hne, rfl⟩ := ih₁
    obtain ⟨used₂, -, rfl⟩ := ih₂
    exact ⟨used₁ ++ op :: used₂, by simp, by simp⟩
  | @assign m ts x equals us v vs ev ev' _ _ _ ih₁ ih₂
  | @invalidTarget m ts x equals us v vs ev ev' _ _ _ _ ih₁ ih₂ =>
    obtain ⟨used₁, hne, rfl⟩ := ih₁
    obtain ⟨used₂, -, rfl⟩ := ih₂
    exact ⟨used₁ ++ equals :: used₂, by simp, by simp⟩
  | @conditional m ts c question us y colon vs n ws ev ev' ev'' _ _ _ _ _ ih₁ ih₂ ih₃ =>
    obtain ⟨used₁, hne, rfl⟩ := ih₁
    obtain ⟨used₂, -, rfl⟩ := ih₂
    obtain ⟨used₃, -, rfl⟩ := ih₃
    exact ⟨used₁ ++ question :: used₂ ++ colon :: used₃, by simp, by simp⟩
  | @unary m op ts e us ev _ _ ih | @missing m op p ts e us ev _ _ _ ih =>
    obtain ⟨used, -, rfl⟩ := ih
    exact ⟨op :: used, by simp, by simp⟩
  | @no m t ts _ | @yes m t ts _ | @nil m t ts _ | @number m t ts _ _ _ | @string m t ts _ _ _
  | @name m t ts _ => exact ⟨[t], by simp, by simp⟩
  | @group m left ts e right us ev _ _ _ ih =>
    obtain ⟨used, -, rfl⟩ := ih
    exact ⟨left :: used ++ [right], by simp, by simp⟩

/-- Something is always read. -/
theorem length_lt (h : Expr.Reads endLine m scope ts e us ev) : us.length < ts.length := by
  obtain ⟨used, hne, rfl⟩ := h.exists_append
  have := List.length_pos_iff.2 hne
  simp only [List.length_append]
  omega

end Expr.Reads

/-! ## Rules and derivations -/

namespace Grammar

open Rule

/-- The rule succeeds exactly where there is a derivation, if `m` levels may be opened. -/
abbrev Follows (rule : Rule Expr) (m : Nat) (scope : Scope) : Prop :=
  rule.Follows m fun endLine => Expr.Reads endLine m scope

/-! ## Chains -/

section Chains

variable {p : Precedence} {operand : Rule Expr} {m : Nat}

/-- One round of a chain: the end, or an operator and its right operand. -/
theorem gives_chain_cons (hoperand : Follows operand m p.operands) {c c' : Cursor}
    (hroom : c.room = m) {round : Token} {rounds : List Token} {lhs e : Expr}
    {ev : List Event} :
    (chain p operand (round :: rounds) lhs).Gives c e c' ev ↔
      (∃ op us rhs vs ev₁ ev₂, c.unread = op :: us ∧ op.kind.precedence? = some p ∧
        Expr.Reads c.endLine m p.operands us rhs vs ev₁ ∧
        (chain p operand rounds (p.join lhs op rhs)).Gives (c.upTo vs) e c' ev₂ ∧
        ev = ev₁ ++ ev₂) ∨
      ((nextKind c.unread).precedence? ≠ some p ∧ e = lhs ∧ c' = c ∧ ev = []) := by
  rw [chain, gives_eat?_bind]
  refine or_congr ⟨?_, ?_⟩ (and_congr ?_ gives_pure)
  · rintro ⟨op, us, hus, hop, hrest⟩
    obtain ⟨rhs, vs, ev₁, ev₂, hrhs, hmore, rfl⟩ :=
      (hoperand.gives_bind (c := c.upTo us) hroom).1 hrest
    exact ⟨op, us, rhs, vs, ev₁, ev₂, hus, by simpa using hop, hrhs, hmore, rfl⟩
  · rintro ⟨op, us, rhs, vs, ev₁, ev₂, hus, hop, hrhs, hmore, rfl⟩
    exact ⟨op, us, hus, by simpa using hop,
      (hoperand.gives_bind (c := c.upTo us) hroom).2 ⟨rhs, vs, ev₁, ev₂, hrhs, hmore, rfl⟩⟩
  · rcases c.unread with _ | ⟨t, ts⟩
    · simp [TokenKind.precedence?]
    · simp

/-- A chain ends in front of anything but an operator of its level. -/
theorem chain_stop (hoperand : Follows operand m p.operands) (rounds : List Token) (e : Expr)
    {c : Cursor} (hroom : c.room = m) (h : (nextKind c.unread).precedence? ≠ some p) :
    (chain p operand rounds e).Gives c e c [] := by
  cases rounds with
  | nil => exact gives_pure.2 ⟨rfl, rfl, rfl⟩
  | cons _ rounds => exact (gives_chain_cons hoperand hroom).2 (.inr ⟨h, rfl, rfl, rfl⟩)

/-- What a chain reads behind `lhs` continues the derivation of `lhs`. -/
theorem reads_of_chain (hp : p.isChain) (hoperand : Follows operand m p.operands)
    (rounds : List Token) :
    ∀ {c e c' ev lhs ts ev₀}, c.room = m → c.unread.length ≤ rounds.length →
      Expr.Reads c.endLine m (.chain p) ts lhs c.unread ev₀ →
      (chain p operand rounds lhs).Gives c e c' ev →
      ∃ us, c' = c.upTo us ∧ Expr.Reads c.endLine m (.level p) ts e us (ev₀ ++ ev) := by
  induction rounds with
  | nil =>
    intro c e c' ev lhs ts ev₀ _ hlen hlhs h
    obtain ⟨rfl, rfl, rfl⟩ := gives_pure.1 h
    have hnil : c'.unread = [] := List.length_eq_zero_iff.1 (Nat.le_zero.1 hlen)
    rw [List.append_nil]
    exact ⟨c'.unread, rfl, .close hp hlhs (by simp [hnil, TokenKind.precedence?])⟩
  | cons _ rounds ih =>
    intro c e c' ev lhs ts ev₀ hroom hlen hlhs h
    rcases (gives_chain_cons hoperand hroom).1 h with
      ⟨op, us, rhs, vs, ev₁, ev₂, hus, hop, hrhs, hmore, rfl⟩ | ⟨hstop, rfl, rfl, rfl⟩
    · have hjoin := (hus ▸ hlhs).join hop hrhs
      have hlt := hrhs.length_lt
      simp only [hus, List.length_cons] at hlen
      simpa using ih (c := c.upTo vs) hroom (by simp; omega) hjoin hmore
    · rw [List.append_nil]
      exact ⟨c'.unread, rfl, .close hp hlhs hstop⟩

/-- Behind the derivation of a part of a chain the rule goes on with the rest of the chain. -/
theorem leftAssociative_of_reads (hoperand : Follows operand m p.operands) {endLine : UInt32}
    {ts us : List Token} {lhs : Expr} {ev₀ : List Event}
    (h : Expr.Reads endLine m (.chain p) ts lhs us ev₀) {c : Cursor} (hroom : c.room = m)
    (hts : c.unread = ts) (hline : c.endLine = endLine) :
    ∃ rounds : List Token, us.length ≤ rounds.length ∧ ∀ e c' ev,
      (chain p operand rounds lhs).Gives (c.upTo us) e c' ev →
      (leftAssociative p operand).Gives c e c' (ev₀ ++ ev) := by
  generalize hscope : Scope.chain p = scope at h
  induction h with
  | @operand m p' ts e us ev hp first =>
    obtain rfl := Scope.chain.inj hscope
    subst hts hline
    refine ⟨us, Nat.le_refl _, fun e' c' ev' h' => ?_⟩
    exact (hoperand.gives_bind hroom).2 ⟨e, us, ev, ev', first, gives_place_bind.2 h', rfl⟩
  | @join m p' ts lhs op us rhs vs ev ev' left hop right ih =>
    obtain rfl := Scope.chain.inj hscope
    obtain ⟨rounds, hlen, hrun⟩ := ih hoperand hroom hts hscope
    subst hts hline
    obtain _ | ⟨t, rounds⟩ := rounds
    · simp at hlen
    have hlt := right.length_lt
    refine ⟨rounds, by simp at hlen; omega, fun e'' c'' ev'' h'' => ?_⟩
    rw [List.append_assoc]
    exact hrun _ _ _ ((gives_chain_cons hoperand (c := c.upTo (op :: us)) hroom).2
      (.inl ⟨op, us, rhs, vs, ev', ev'', rfl, hop, right, h'', rfl⟩))
  | _ => cases hscope

/-- A chain is read exactly where it has a derivation. -/
theorem leftAssociative_follows (hp : p.isChain) (hoperand : Follows operand m p.operands) :
    Follows (leftAssociative p operand) m (.level p) := by
  intro c e c' ev hroom
  constructor
  · intro h
    obtain ⟨lhs, us, ev₁, ev₂, hlhs, hrest, rfl⟩ := (hoperand.gives_bind hroom).1 h
    exact reads_of_chain hp hoperand us (c := c.upTo us) hroom (Nat.le_refl _) (.operand hp hlhs)
      (gives_place_bind.1 hrest)
  · rintro ⟨us, rfl, h⟩
    generalize hts : c.unread = ts at h
    cases h with
    | close _ all stop =>
      obtain ⟨rounds, -, hrun⟩ := leftAssociative_of_reads hoperand all hroom hts rfl
      simpa using hrun _ _ _ (chain_stop hoperand rounds e (c := c.upTo us) hroom stop)
    | _ => simp [Precedence.isChain] at hp

end Chains

/-! ## Operands -/

/-- A token that is an expression by itself. -/
theorem gives_leaf {t : Token} {ts : List Token} {x e : Expr} {c c' : Cursor} {ev : List Event}
    (hts : c.unread = t :: ts) :
    (do skip; return x : Rule Expr).Gives c e c' ev ↔ e = x ∧ c' = c.upTo ts ∧ ev = [] := by
  rw [gives_skip_bind, hts, List.tail_cons, gives_pure]

/-- A token of a literal's kind is a literal if it carries a value of that kind. -/
theorem gives_literal {t : Token} {ts : List Token} {c c' : Cursor} {e : Expr}
    {ev : List Event} (hts : c.unread = t :: ts) :
    (literal t).Gives c e c' ev ↔
      ((∃ v, t.kind = .number ∧ t.literal = some (.number v) ∧ e = .number v) ∨
        (∃ s, t.kind = .string ∧ t.literal = some (.string s) ∧ e = .string s)) ∧
      c' = c.upTo ts ∧ ev = [] := by
  rw [literal, gives_place_bind, gives_skip_bind, hts, List.tail_cons]
  split
  · next v hkind hvalue => simp [hkind, hvalue]
  · next s hkind htext => simp [hkind, htext]
  · next hnumber hstring =>
    refine iff_of_false not_gives_failAt ?_
    rintro ⟨⟨v, hkind, hvalue, -⟩ | ⟨s, hkind, htext, -⟩, -⟩
    · exact hnumber v hkind hvalue
    · exact hstring s hkind htext

theorem gives_missingOperand {operand : Rule Expr} {p : Precedence} {t : Token}
    {ts : List Token} {c c' : Cursor} {e : Expr} {ev : List Event} {m : Nat}
    (hroom : c.room = m) (hoperand : Follows operand m (.level p)) (hts : c.unread = t :: ts) :
    (missingOperand operand).Gives c e c' ev ↔
      ∃ dropped us ev', Expr.Reads c.endLine m (.level p) ts dropped us ev' ∧
        e = .missing ∧ c' = c.upTo us ∧
        ev = .diagnosed ⟨.missingLeftOperand, ⟨t :: ts, c.endLine⟩⟩ :: ev' := by
  have hplace : c.toPlace = ⟨t :: ts, c.endLine⟩ := by rw [← hts]
  rw [missingOperand, gives_place_bind, gives_report_bind, hplace]
  simp only [gives_skip_bind, hts, List.tail_cons,
    hoperand.gives_bind (c := c.upTo ts) hroom, gives_pure]
  constructor
  · rintro ⟨_, ⟨e', us, ev₁, ev₂, hreads, ⟨rfl, rfl, rfl⟩, rfl⟩, rfl⟩
    exact ⟨e', us, ev₁, hreads, rfl, rfl, by simp⟩
  · rintro ⟨e', us, ev', hreads, rfl, rfl, rfl⟩
    exact ⟨ev', ⟨e', us, ev', [], hreads, ⟨rfl, rfl, rfl⟩, by simp⟩, rfl⟩

/-! ## The levels

In what follows the rules that open a level are given with their derivations. -/

section Levels

variable {deeper : Opening → Rule Expr} {m : Nat} (h : ∀ o, Follows (deeper o) m (.opened o))

include h

theorem product_follows : Follows (product deeper) m (.level .product) :=
  leftAssociative_follows rfl (h .unary)

theorem sum_follows : Follows (sum deeper) m (.level .sum) :=
  leftAssociative_follows rfl (product_follows h)

theorem comparison_follows : Follows (comparison deeper) m (.level .comparison) :=
  leftAssociative_follows rfl (sum_follows h)

theorem equality_follows : Follows (equality deeper) m (.level .equality) :=
  leftAssociative_follows rfl (comparison_follows h)

theorem conjunction_follows : Follows (conjunction deeper) m (.level .conjunction) :=
  leftAssociative_follows rfl (equality_follows h)

theorem disjunction_follows : Follows (disjunction deeper) m (.level .disjunction) :=
  leftAssociative_follows rfl (conjunction_follows h)

theorem conditional_follows : Follows (conditional deeper) m (.level .conditional) := by
  intro c e c' ev hroom
  rw [conditional, (disjunction_follows h).gives_bind hroom]
  constructor
  · rintro ⟨condition, us, ev₁, ev₂, hcondition, hrest, rfl⟩
    rcases (gives_eat_bind (by decide)).1 hrest with
      ⟨question, vs, hvs, hquestion, hrest⟩ | ⟨hstop, hpure⟩
    · obtain rfl : us = question :: vs := hvs
      obtain ⟨yes, ws, ev₃, ev₄, hyes, hseparator, rfl⟩ :=
        ((h .expression).gives_bind (c := c.upTo vs) hroom).1 hrest
      obtain ⟨colon, xs, hxs, hcolon, hbranch⟩ := gives_expect_bind.1 hseparator
      obtain rfl : ws = colon :: xs := hxs
      obtain ⟨no, ys, ev₅, ev₆, hno, hpure, rfl⟩ :=
        ((h .expression).gives_bind (c := c.upTo xs) hroom).1 hbranch
      obtain ⟨rfl, rfl, rfl⟩ := gives_pure.1 hpure
      exact ⟨ys, rfl, by simpa using hcondition.conditional hquestion hyes hcolon hno⟩
    · obtain ⟨rfl, rfl, rfl⟩ := gives_pure.1 hpure
      exact ⟨us, rfl, by simpa using hcondition.unbranched hstop⟩
  · rintro ⟨us, rfl, hreads⟩
    cases hreads with
    | close hp => simp [Precedence.isChain] at hp
    | unbranched hcondition hstop =>
      exact ⟨e, us, ev, [], hcondition, (gives_eat_bind (by decide)).2 (.inr ⟨hstop, rfl⟩),
        by simp⟩
    | @conditional _ _ condition question vs yes colon ws no us ev₁ ev₂ ev₃ hcondition hquestion
        hyes hcolon hno =>
      refine ⟨condition, question :: vs, ev₁, ev₂ ++ ev₃, hcondition, ?_, rfl⟩
      refine (gives_eat_bind (by decide)).2 (.inl ⟨question, vs, rfl, hquestion, ?_⟩)
      refine ((h .expression).gives_bind (c := c.upTo vs) hroom).2
        ⟨yes, colon :: ws, ev₂, ev₃, hyes, ?_, rfl⟩
      refine gives_expect_bind.2 ⟨colon, ws, rfl, hcolon, ?_⟩
      exact ((h .expression).gives_bind (c := c.upTo ws) hroom).2
        ⟨no, us, ev₃, [], hno, rfl, by simp⟩

theorem assignment_follows : Follows (assignment deeper) m (.level .assignment) := by
  intro c e c' ev hroom
  rw [assignment, (conditional_follows h).gives_bind hroom]
  constructor
  · rintro ⟨target, us, ev₁, ev₂, htarget, hrest, rfl⟩
    rcases (gives_eat_bind (by decide)).1 (gives_place_bind.1 hrest) with
      ⟨equals, vs, hvs, hequals, hrest⟩ | ⟨hstop, hpure⟩
    · obtain rfl : us = equals :: vs := hvs
      obtain ⟨value, ws, ev₃, ev₄, hvalue, hassign, rfl⟩ :=
        ((h .assignment).gives_bind (c := c.upTo vs) hroom).1 hrest
      split at hassign
      · obtain ⟨rfl, rfl, rfl⟩ := gives_pure.1 hassign
        exact ⟨ws, rfl, by simpa using htarget.assign hequals hvalue⟩
      · next hne =>
        obtain ⟨ev₅, hpure, rfl⟩ := gives_report_bind.1 hassign
        obtain ⟨rfl, rfl, rfl⟩ := gives_pure.1 hpure
        exact ⟨ws, rfl, htarget.invalidTarget hequals hne hvalue⟩
    · obtain ⟨rfl, rfl, rfl⟩ := gives_pure.1 hpure
      exact ⟨us, rfl, by simpa using htarget.unassigned hstop⟩
  · rintro ⟨us, rfl, hreads⟩
    cases hreads with
    | close hp => simp [Precedence.isChain] at hp
    | unassigned htarget hstop =>
      exact ⟨e, us, ev, [], htarget,
        gives_place_bind.2 ((gives_eat_bind (by decide)).2 (.inr ⟨hstop, rfl⟩)), by simp⟩
    | @assign _ _ x equals vs v us ev₁ ev₂ htarget hequals hvalue =>
      refine ⟨.variable x, equals :: vs, ev₁, ev₂, htarget, gives_place_bind.2 ?_, rfl⟩
      refine (gives_eat_bind (by decide)).2 (.inl ⟨equals, vs, rfl, hequals, ?_⟩)
      exact ((h .assignment).gives_bind (c := c.upTo vs) hroom).2
        ⟨v, us, ev₂, [], hvalue, rfl, by simp⟩
    | @invalidTarget _ _ _ equals vs v us ev₁ ev₂ htarget hequals hne hvalue =>
      refine ⟨e, equals :: vs, ev₁, _, htarget, gives_place_bind.2 ?_, rfl⟩
      refine (gives_eat_bind (by decide)).2 (.inl ⟨equals, vs, rfl, hequals, ?_⟩)
      refine ((h .assignment).gives_bind (c := c.upTo vs) hroom).2
        ⟨v, us, ev₂, _, hvalue, ?_, rfl⟩
      split
      · exact absurd rfl (hne _)
      · exact gives_report_bind.2 ⟨[], rfl, rfl⟩

theorem comma_follows : Follows (comma deeper) m (.level .comma) :=
  leftAssociative_follows rfl (assignment_follows h)

/-- At an operator that is no comma, `and` or `or`, the left operand is missed. -/
theorem primary_eq_missingOperand {c : Cursor} {t : Token} {ts : List Token} {p : Precedence}
    (hts : c.unread = t :: ts) (hop : t.kind.precedence? = some p) (hp : .equality ≤ p) :
    ∃ operand, Follows operand m (.level p) ∧
      primary deeper c = missingOperand operand c := by
  rw [primary, @bind_of_some _ _ next? _ _ _ _ _ rfl, hts, List.head?_cons]
  dsimp only
  generalize t.kind = kind at hop ⊢
  cases kind with
  | bangEqual | equalEqual =>
    cases hop
    exact ⟨_, equality_follows h, rfl⟩
  | greater | greaterEqual | less | lessEqual =>
    cases hop
    exact ⟨_, comparison_follows h, rfl⟩
  | minus | plus =>
    cases hop
    exact ⟨_, sum_follows h, rfl⟩
  | slash | star =>
    cases hop
    exact ⟨_, product_follows h, rfl⟩
  | comma | andWord | orWord =>
    cases hop
    exact absurd hp (by decide)
  | _ => cases hop

theorem primary_follows : Follows (primary deeper) m (.level .primary) := by
  intro c e c' ev hroom
  rcases hts : c.unread with _ | ⟨t, ts⟩
  · rw [primary, gives_next?_bind, hts]
    refine iff_of_false not_gives_fail ?_
    rintro ⟨us, -, hreads⟩
    have := hreads.length_lt
    simp at this
  by_cases hop : ∃ p, t.kind.precedence? = some p ∧ .equality ≤ p
  -- an operator: nothing but the derivation of a missing operand begins with one
  · obtain ⟨p, hop, hp⟩ := hop
    obtain ⟨operand, hoperand, heq⟩ := primary_eq_missingOperand h hts hop hp
    rw [Gives, heq, ← Gives, gives_missingOperand hroom hoperand hts]
    constructor
    · rintro ⟨_, us, ev', hreads, rfl, rfl, rfl⟩
      exact ⟨us, rfl, .missing hop hp hreads⟩
    · rintro ⟨us, rfl, hreads⟩
      cases hreads with
      | close hp => simp [Precedence.isChain] at hp
      | missing hop' _ hreads =>
        obtain rfl := Option.some.inj (hop.symm.trans hop')
        exact ⟨_, us, _, hreads, rfl, rfl, rfl⟩
      | no ht | yes ht | nil ht | name ht | number ht | string ht | group ht =>
        simp [ht, TokenKind.precedence?] at hop
  · rw [primary, gives_next?_bind, hts, List.head?_cons]
    dsimp only
    constructor
    · intro hgives
      split at hgives
      · next hkind =>
        obtain ⟨rfl, rfl, rfl⟩ := (gives_leaf hts).1 hgives
        exact ⟨ts, rfl, .no hkind⟩
      · next hkind =>
        obtain ⟨rfl, rfl, rfl⟩ := (gives_leaf hts).1 hgives
        exact ⟨ts, rfl, .yes hkind⟩
      · next hkind =>
        obtain ⟨rfl, rfl, rfl⟩ := (gives_leaf hts).1 hgives
        exact ⟨ts, rfl, .nil hkind⟩
      · obtain ⟨⟨v, hkind, hvalue, rfl⟩ | ⟨s, hkind, htext, rfl⟩, rfl, rfl⟩ :=
          (gives_literal hts).1 hgives
        · exact ⟨ts, rfl, .number hkind hvalue⟩
        · exact ⟨ts, rfl, .string hkind htext⟩
      · obtain ⟨⟨v, hkind, hvalue, rfl⟩ | ⟨s, hkind, htext, rfl⟩, rfl, rfl⟩ :=
          (gives_literal hts).1 hgives
        · exact ⟨ts, rfl, .number hkind hvalue⟩
        · exact ⟨ts, rfl, .string hkind htext⟩
      · next hkind =>
        have hbehind := gives_skip_bind.1 hgives
        rw [hts, List.tail_cons] at hbehind
        obtain ⟨inner, us, ev₁, ev₂, hinner, hend, rfl⟩ :=
          ((h .expression).gives_bind (c := c.upTo ts) hroom).1 hbehind
        obtain ⟨right, vs, hvs, hright, hpure⟩ := gives_expect_bind.1 hend
        obtain rfl : us = right :: vs := hvs
        obtain ⟨rfl, rfl, rfl⟩ := gives_pure.1 hpure
        exact ⟨vs, rfl, by simpa using hinner.group hkind hright⟩
      · next hkind =>
        obtain ⟨rfl, rfl, rfl⟩ := (gives_leaf hts).1 hgives
        exact ⟨ts, rfl, .name hkind⟩
      · split at hgives
        · next hp => exact absurd ⟨_, hp, by decide⟩ hop
        · next hp => exact absurd ⟨_, hp, by decide⟩ hop
        · next hp => exact absurd ⟨_, hp, by decide⟩ hop
        · next hp => exact absurd ⟨_, hp, by decide⟩ hop
        · exact absurd hgives not_gives_fail
    · rintro ⟨us, rfl, hreads⟩
      cases hreads with
      | close hp => simp [Precedence.isChain] at hp
      | no ht | yes ht | nil ht | name ht =>
        simp only [ht]
        exact (gives_leaf hts).2 ⟨rfl, rfl, rfl⟩
      | number ht hvalue =>
        simp only [ht]
        exact (gives_literal hts).2 ⟨.inl ⟨_, ht, hvalue, rfl⟩, rfl, rfl⟩
      | string ht htext =>
        simp only [ht]
        exact (gives_literal hts).2 ⟨.inr ⟨_, ht, htext, rfl⟩, rfl, rfl⟩
      | @group _ _ _ inner right us ev hleft hinner hright =>
        simp only [hleft]
        refine gives_skip_bind.2 ?_
        rw [hts, List.tail_cons]
        refine ((h .expression).gives_bind (c := c.upTo ts) hroom).2
          ⟨inner, right :: us, ev, [], hinner, ?_, by simp⟩
        exact gives_expect_bind.2 ⟨right, us, rfl, hright, rfl⟩
      | missing hop' hp => exact absurd ⟨_, hop', hp⟩ hop

theorem unary_follows : Follows (unary deeper) m (.level .unary) := by
  intro c e c' ev hroom
  rw [unary, gives_eat?_bind]
  constructor
  · rintro (⟨op, ts, hts, hop, hrest⟩ | ⟨hnext, hatom⟩)
    · obtain ⟨arg, us, ev₁, ev₂, harg, hpure, rfl⟩ :=
        ((h .unary).gives_bind (c := c.upTo ts) hroom).1 hrest
      obtain ⟨rfl, rfl, rfl⟩ := gives_pure.1 hpure
      exact ⟨us, rfl, by rw [hts]; simpa using harg.unary hop⟩
    · obtain ⟨us, rfl, hreads⟩ := (primary_follows h).reads hatom hroom
      refine ⟨us, rfl, .bare ?_ hreads⟩
      rcases hts : c.unread with _ | ⟨t, ts⟩
      · rfl
      · exact hnext t ts hts
  · rintro ⟨us, rfl, hreads⟩
    generalize hunread : c.unread = unread at hreads
    cases hreads with
    | close hp => simp [Precedence.isChain] at hp
    | @unary _ op ts arg us ev hop harg =>
      refine .inl ⟨op, ts, rfl, hop, ?_⟩
      exact ((h .unary).gives_bind (c := c.upTo ts) hroom).2 ⟨arg, us, ev, [], harg, rfl, by simp⟩
    | bare hnext hatom =>
      subst hunread
      refine .inr ⟨fun t ts hts => by simpa [hts] using hnext, ?_⟩
      exact (primary_follows h).gives hatom hroom

theorem opened_follows : ∀ o, Follows (opened deeper o) m (.level o.level)
  | .expression => comma_follows h
  | .assignment => assignment_follows h
  | .unary => unary_follows h

end Levels

/-! ## The knot -/

/-- A rule that opens a level succeeds exactly where there is a derivation. -/
theorem atRoom_follows (m : Nat) : ∀ o, Follows (atRoom m o) m (.opened o) := by
  induction m with
  | zero =>
    intro o c e c' ev _
    refine iff_of_false not_gives_fail ?_
    rintro ⟨us, -, hreads⟩
    cases hreads
  | succ m ih =>
    intro o c e c' ev hroom
    have hopened := opened_follows ih o
    refine (gives_nested hroom).trans ⟨?_, ?_⟩
    · rintro ⟨c₁, hgives, rfl⟩
      obtain ⟨us, rfl, hreads⟩ := hopened.reads hgives (c.deeper_room hroom)
      exact ⟨us, rfl, .opened hreads⟩
    · rintro ⟨us, rfl, hreads⟩
      cases hreads with
      | opened hreads =>
        exact ⟨c.deeper.upTo us, hopened.gives (c := c.deeper) hreads (c.deeper_room hroom), rfl⟩

/-- An expression is read exactly where it has a derivation. -/
theorem expression_follows {c : Cursor} {e : Expr} {c' : Cursor} {ev : List Event} :
    expression.Gives c e c' ev ↔
      ∃ us, c' = c.upTo us ∧
        Expr.Reads c.endLine c.room (.opened .expression) c.unread e us ev :=
  atRoom_follows c.room .expression rfl

end Grammar

end LoxSyntax
