import LoxSyntax.Proofs.Rule.Widening

/-!
# Rules made alike

A relation between rules that holds between equal steps, and that sequence and recovery keep, holds
between two rules of the grammar as soon as it holds between the rules one level deeper that they
are written over.  One such relation is to reply alike at the cursors with a given number of levels
left to open; by it the rules can be compared level by level.

* `Rule.Congruence` — the relations that are kept.
* `Grammar.opened_congr`, `Grammar.statementBody_congr` — rules over related rules are related.
* `Rule.SameAt` — rules that reply alike where `m` levels may be opened.
* **`Grammar.atRoom_eq`**, **`Grammar.statementAt_eq`** — a number of levels beyond what the cursor
  allows makes no difference.
-/

namespace LoxSyntax

namespace Rule

/-- A relation between rules that holds between equal steps and is kept by the ways to make rules of
others within a level. -/
structure Congruence (R : ∀ {α : Type}, Rule α → Rule α → Prop) : Prop where
  step : ∀ {α : Type} {rule : Rule α}, Step rule → R rule rule
  bind : ∀ {α β : Type} {rule rule' : Rule α} {next next' : α → Rule β},
    R rule rule' → (∀ a, R (next a) (next' a)) → R (rule >>= next) (rule' >>= next')
  recovered : ∀ {α : Type} {rule rule' : Rule α}, R rule rule' →
    R (recovered rule) (recovered rule')

namespace Congruence

variable {R : ∀ {α : Type}, Rule α → Rule α → Prop} (hR : Congruence @R) {α β : Type}

include hR

theorem pure (a : α) : R (Pure.pure a) (Pure.pure a) :=
  hR.step (.pure a)

theorem map (f : α → β) {rule rule' : Rule α} (h : R rule rule') :
    R (f <$> rule) (f <$> rule') := by
  rw [map_eq_pure_bind, map_eq_pure_bind]
  exact hR.bind h fun a => hR.pure (f a)

theorem place_bind {next next' : Place → Rule β} (h : ∀ p, R (next p) (next' p)) :
    R (place >>= next) (place >>= next') :=
  hR.bind (hR.step .place) h

theorem skip_bind {next next' : Unit → Rule β} (h : R (next ()) (next' ())) :
    R (skip >>= next) (skip >>= next') :=
  hR.bind (hR.step .skip) fun _ => h

theorem expect_bind (landmark : Landmark) {next next' : Token → Rule β}
    (h : ∀ t, R (next t) (next' t)) :
    R (expect landmark >>= next) (expect landmark >>= next') := by
  refine hR.bind (hR.bind (hR.step (.eat? _)) ?_) h
  rintro (_ | t)
  · exact hR.step (.fail rfl)
  · exact hR.pure t

/-- A choice by a token. -/
theorem ite_eat (kind : TokenKind) {yes yes' no no' : Rule α} (hyes : R yes yes')
    (hno : R no no') :
    R (do if ← Rule.eat kind then yes else no) (do if ← Rule.eat kind then yes' else no') := by
  refine hR.bind (hR.bind (hR.step (.eat? _)) fun _ => hR.pure _) ?_
  rintro (_ | _)
  · exact hno
  · exact hyes

theorem chain (p : Precedence) {operand operand' : Rule Expr} (h : R operand operand')
    (rounds : List Token) :
    ∀ lhs, R (Rule.chain p operand rounds lhs) (Rule.chain p operand' rounds lhs) := by
  induction rounds with
  | nil => exact fun lhs => hR.pure lhs
  | cons _ rounds ih =>
    intro lhs
    refine hR.bind (hR.step (.eat? _)) ?_
    rintro (_ | op)
    · exact hR.pure lhs
    · exact hR.bind h fun rhs => ih (p.join lhs op rhs)

theorem leftAssociative (p : Precedence) {operand operand' : Rule Expr} (h : R operand operand') :
    R (Rule.leftAssociative p operand) (Rule.leftAssociative p operand') :=
  hR.bind h fun lhs => hR.place_bind fun start => hR.chain p h start.unread lhs

end Congruence

end Rule

/-! ## The grammar -/

namespace Grammar

open Rule

variable {R : ∀ {α : Type}, Rule α → Rule α → Prop} (hR : Congruence @R)

include hR

section Expressions

variable {deeper deeper' : Opening → Rule Expr} (h : ∀ o, R (deeper o) (deeper' o))

include h

theorem product_congr : R (product deeper) (product deeper') :=
  hR.leftAssociative _ (h .unary)

theorem sum_congr : R (sum deeper) (sum deeper') :=
  hR.leftAssociative _ (product_congr hR h)

theorem comparison_congr : R (comparison deeper) (comparison deeper') :=
  hR.leftAssociative _ (sum_congr hR h)

theorem equality_congr : R (equality deeper) (equality deeper') :=
  hR.leftAssociative _ (comparison_congr hR h)

theorem conjunction_congr : R (conjunction deeper) (conjunction deeper') :=
  hR.leftAssociative _ (equality_congr hR h)

theorem disjunction_congr : R (disjunction deeper) (disjunction deeper') :=
  hR.leftAssociative _ (conjunction_congr hR h)

theorem conditional_congr : R (conditional deeper) (conditional deeper') := by
  refine hR.bind (disjunction_congr hR h) fun _ => hR.ite_eat .question ?_ (hR.pure _)
  exact hR.bind (h .expression) fun _ => hR.expect_bind _ fun _ =>
    hR.bind (h .expression) fun _ => hR.pure _

theorem assignment_congr : R (assignment deeper) (assignment deeper') := by
  refine hR.bind (conditional_congr hR h) fun target => hR.place_bind fun equals =>
    hR.ite_eat .equal (hR.bind (h .assignment) fun value => ?_) (hR.pure _)
  split
  · exact hR.pure _
  · exact hR.bind (hR.step (.report rfl _)) fun _ => hR.pure _

theorem comma_congr : R (comma deeper) (comma deeper') :=
  hR.leftAssociative _ (assignment_congr hR h)

omit h in
theorem literal_congr (t : Token) : R (literal t) (literal t) := by
  refine hR.place_bind fun start => hR.skip_bind ?_
  split
  · exact hR.pure _
  · exact hR.pure _
  · exact hR.step (.failAt _)

omit h in
theorem missingOperand_congr {operand operand' : Rule Expr} (h : R operand operand') :
    R (missingOperand operand) (missingOperand operand') :=
  hR.place_bind fun _ => hR.bind (hR.step (.report rfl _)) fun _ =>
    hR.skip_bind (hR.bind h fun _ => hR.pure _)

theorem primary_congr : R (primary deeper) (primary deeper') := by
  refine hR.bind (hR.step .next?) ?_
  rintro (_ | t)
  · exact hR.step (.fail rfl)
  · dsimp only
    split
    · exact hR.skip_bind (hR.pure _)
    · exact hR.skip_bind (hR.pure _)
    · exact hR.skip_bind (hR.pure _)
    · exact literal_congr hR t
    · exact literal_congr hR t
    · exact hR.skip_bind (hR.bind (h .expression) fun _ => hR.expect_bind _ fun _ => hR.pure _)
    · exact hR.skip_bind (hR.pure _)
    · split
      · exact missingOperand_congr hR (equality_congr hR h)
      · exact missingOperand_congr hR (comparison_congr hR h)
      · exact missingOperand_congr hR (sum_congr hR h)
      · exact missingOperand_congr hR (product_congr hR h)
      · exact hR.step (.fail rfl)

theorem unary_congr : R (unary deeper) (unary deeper') := by
  refine hR.bind (hR.step (.eat? _)) ?_
  rintro (_ | op)
  · exact primary_congr hR h
  · exact hR.bind (h .unary) fun _ => hR.pure _

theorem opened_congr : ∀ o, R (opened deeper o) (opened deeper' o)
  | .expression => comma_congr hR h
  | .assignment => assignment_congr hR h
  | .unary => unary_congr hR h

end Expressions

section Statements

variable {expr expr' : Rule Expr} {stmt stmt' : Rule Stmt} (he : R expr expr') (hs : R stmt stmt')

include he

theorem terminated_congr : R (terminated expr) (terminated expr') :=
  hR.bind he fun _ => hR.expect_bind _ fun _ => hR.pure _

theorem variableDeclaration_congr :
    R (variableDeclaration expr) (variableDeclaration expr') :=
  hR.expect_bind _ fun _ => hR.ite_eat .equal
    (hR.bind he fun _ => hR.expect_bind _ fun _ => hR.pure _)
    (hR.expect_bind _ fun _ => hR.pure _)

theorem unlessNext_congr (kind : TokenKind) : R (unlessNext expr kind) (unlessNext expr' kind) := by
  refine hR.place_bind fun _ => ?_
  split
  · exact hR.pure _
  · exact hR.bind he fun _ => hR.pure _

theorem forInitial_congr : R (forInitial expr) (forInitial expr') :=
  hR.ite_eat .semicolon (hR.pure _) <| hR.ite_eat .varWord
    (hR.bind (variableDeclaration_congr hR he) fun _ => hR.pure _)
    (hR.bind (terminated_congr hR he) fun _ => hR.pure _)

include hs

theorem declarationOf_congr : R (declarationOf expr stmt) (declarationOf expr' stmt') :=
  hR.place_bind fun _ => hR.bind (hR.step (.declaring _)) fun _ =>
    hR.recovered (hR.ite_eat .varWord (variableDeclaration_congr hR he) hs)

omit he hs in
theorem declarationsOf_congr {declaration declaration' : Rule (Option Stmt)}
    (h : R declaration declaration') (last : TokenKind) (rounds : List Token) :
    R (declarationsOf declaration last rounds) (declarationsOf declaration' last rounds) := by
  induction rounds with
  | nil => exact hR.pure _
  | cons _ rounds ih =>
    refine hR.place_bind fun _ => ?_
    dsimp only
    split
    · exact hR.pure _
    · exact hR.bind h fun _ => hR.map _ ih

theorem block_congr : R (block expr stmt) (block expr' stmt') :=
  hR.place_bind fun start =>
    hR.bind (declarationsOf_congr hR (declarationOf_congr hR he hs) .rightBrace start.unread)
      fun _ => hR.expect_bind _ fun _ => hR.pure _

theorem conditionalStatement_congr :
    R (conditionalStatement expr stmt) (conditionalStatement expr' stmt') :=
  hR.expect_bind _ fun _ => hR.bind he fun _ => hR.expect_bind _ fun _ => hR.bind hs fun _ =>
    hR.ite_eat .elseWord (hR.bind hs fun _ => hR.pure _) (hR.pure _)

theorem whileLoop_congr : R (whileLoop expr stmt) (whileLoop expr' stmt') :=
  hR.expect_bind _ fun _ => hR.bind he fun _ => hR.expect_bind _ fun _ => hR.bind hs fun _ =>
    hR.pure _

theorem forLoop_congr : R (forLoop expr stmt) (forLoop expr' stmt') :=
  hR.expect_bind _ fun _ => hR.bind (forInitial_congr hR he) fun _ =>
    hR.bind (unlessNext_congr hR he _) fun _ => hR.expect_bind _ fun _ =>
      hR.bind (unlessNext_congr hR he _) fun _ => hR.expect_bind _ fun _ => hR.bind hs fun _ =>
        hR.pure _

theorem statementBody_congr : R (statementBody expr stmt) (statementBody expr' stmt') := by
  refine hR.place_bind fun _ => ?_
  split
  · exact hR.skip_bind (hR.bind (terminated_congr hR he) fun _ => hR.pure _)
  · exact hR.skip_bind (block_congr hR he hs)
  · exact hR.skip_bind (conditionalStatement_congr hR he hs)
  · exact hR.skip_bind (whileLoop_congr hR he hs)
  · exact hR.skip_bind (forLoop_congr hR he hs)
  · exact hR.bind (terminated_congr hR he) fun _ => hR.pure _

end Statements

end Grammar

/-! ## Levels beyond the ceiling -/

namespace Rule

variable {α β : Type} {m : Nat}

/-- Rules of the grammar that reply alike where `m` levels may be opened. -/
structure SameAt (m : Nat) {α : Type} (rule rule' : Rule α) : Prop where
  made : Widens rule rule
  same : ∀ c, c.room = m → rule c = rule' c

/-- A rule leaves as many levels to open as it was given, so the rest of a sequence replies alike
too. -/
theorem sameAt_congruence (m : Nat) : Congruence (SameAt m) where
  step h := ⟨.step h, fun _ _ => rfl⟩
  bind := by
    intro α β rule rule' next next' h hnext
    refine ⟨.bind h.made fun a => (hnext a).made, fun c hroom => ?_⟩
    rw [bind_reply, bind_reply, ← h.same c hroom]
    cases (rule c).result with
    | none => rfl
    | some a =>
      obtain ⟨us, -, hcursor⟩ := h.made.exists_upTo c
      have hsame := (hnext a).same (rule c).cursor (by rw [hcursor]; exact hroom)
      simp only [hsame]
  recovered := by
    intro α rule rule' h
    refine ⟨.recovered h.made, fun c hroom => ?_⟩
    rw [recovered_reply, recovered_reply, h.same c hroom]

/-- One level deeper there is one level less to open, and without any both rules fail. -/
theorem SameAt.nested {rule rule' : Rule α} (h : SameAt m rule rule') :
    SameAt (m + 1) (nested rule) (nested rule') where
  made := .nested h.made
  same c hroom := by
    have hlt := c.depth_lt_ceiling hroom
    rw [nested_of_lt rule hlt, nested_of_lt rule' hlt, h.same c.deeper (c.deeper_room hroom)]

/-- Without a level to open nothing is nested. -/
theorem sameAt_zero (rule : Rule α) : SameAt 0 (fail .tooMuchNesting) (nested rule) where
  made := .step (.fail rfl)
  same c hroom := by
    have hfull : ¬ c.depth < c.ceiling := by
      unfold Cursor.room at hroom
      omega
    exact (nested_of_not_lt rule hfull).symm

end Rule

namespace Grammar

open Rule

theorem atRoom_sameAt {m n : Nat} (hmn : m ≤ n) (o : Opening) :
    SameAt m (atRoom m o) (atRoom n o) := by
  induction m generalizing n o with
  | zero =>
    cases n with
    | zero => exact ⟨.step (.fail rfl), fun _ _ => rfl⟩
    | succ n => exact sameAt_zero _
  | succ m ih =>
    obtain ⟨n, rfl⟩ := Nat.exists_eq_add_of_le' hmn
    have hmn : m ≤ n + m := Nat.le_add_left m n
    exact (opened_congr (sameAt_congruence m) (ih hmn) o).nested

theorem statementAt_sameAt {m n : Nat} (hmn : m ≤ n) :
    SameAt m (statementAt m) (statementAt n) := by
  induction m generalizing n with
  | zero =>
    cases n with
    | zero => exact ⟨.step (.fail rfl), fun _ _ => rfl⟩
    | succ n => exact sameAt_zero (statementBody (atRoom n .expression) (statementAt n))
  | succ m ih =>
    obtain ⟨n, rfl⟩ := Nat.exists_eq_add_of_le' hmn
    have hmn : m ≤ n + m := Nat.le_add_left m n
    exact (statementBody_congr (sameAt_congruence m) (atRoom_sameAt hmn .expression)
      (ih hmn)).nested

/-- More room than the cursor has makes no difference to an expression. -/
theorem atRoom_eq {n : Nat} (o : Opening) {c : Cursor} (h : c.room ≤ n) :
    atRoom n o c = atRoom c.room o c :=
  ((atRoom_sameAt h o).same c rfl).symm

/-- More room than the cursor has makes no difference to a statement. -/
theorem statementAt_eq {n : Nat} {c : Cursor} (h : c.room ≤ n) :
    statementAt n c = statementAt c.room c :=
  ((statementAt_sameAt h).same c rfl).symm

end Grammar

end LoxSyntax
