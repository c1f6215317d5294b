import LoxSyntax.Proofs.Rule.Reply
import LoxSyntax.Proofs.Rule.Widening

/-!
# Rules that fit under the ceiling

Levels of nesting are paid for by tokens: between two levels that stay open a token is read, and one
token leaves at most two of them open, as a parenthesis does, which opens an expression and its
first operand.  A few levels are open before anything is read: a statement, its expression and the
first operand of that.  So no rule complains about nesting where two levels may be opened for each
unread token and a few more besides, whatever is read and whatever errors are met.

* `Rule.Quiet` — a run without a complaint about nesting.
* `Rule.Fits` — a rule whose runs are all quiet if there are levels enough.
* **`Grammar.atRoom_fits`** — two levels more than two for each token suffice for an expression.
* **`Grammar.statementAt_fits`** — three suffice for a statement.
-/

namespace LoxSyntax

namespace Rule

variable {α β : Type}

/-! ## Quiet runs -/

/-- Nothing that happens on the way is a complaint about nesting. -/
def Quiet (rule : Rule α) (c : Cursor) : Prop :=
  ∀ ev ∈ (rule c).events, ev.isNesting = false

section Quiet

variable {c : Cursor}

/-- The same events are equally quiet. -/
theorem Quiet.of_eq {rule : Rule α} {rule' : Rule β} {c' : Cursor} (h : rule'.Quiet c')
    (heq : (rule c).events = (rule' c').events) : rule.Quiet c := by
  rw [Quiet, heq]
  exact h

/-- A sequence is quiet if its first rule is, and the rest is behind whatever that has read. -/
theorem quiet_bind {rule : Rule α} {next : α → Rule β} (h : rule.Quiet c)
    (hnext : ∀ a, (rule c).result = some a → (next a).Quiet (rule c).cursor) :
    (rule >>= next).Quiet c := by
  intro ev hev
  rw [bind_reply] at hev
  cases hresult : (rule c).result with
  | none =>
    rw [hresult] at hev
    exact h ev hev
  | some a =>
    rw [hresult] at hev
    rcases List.mem_append.1 hev with hev | hev
    · exact h ev hev
    · exact hnext a hresult ev hev

theorem quiet_place_bind {next : Place → Rule β} :
    (place >>= next).Quiet c ↔ (next c.toPlace).Quiet c := by
  rw [Quiet, place_bind, Quiet]

theorem quiet_next?_bind {next : Option Token → Rule β} :
    (next? >>= next).Quiet c ↔ (next c.unread.head?).Quiet c := by
  rw [Quiet, next?_bind, Quiet]

theorem quiet_report {problem : Problem} {p : Place} (h : problem ≠ .tooMuchNesting) :
    (report problem p).Quiet c := by
  simp [Quiet, report, note, Event.isNesting, h]

theorem quiet_failAt {problem : Problem} {p : Place} (h : problem ≠ .tooMuchNesting) :
    (failAt problem p : Rule α).Quiet c := by
  simp [Quiet, failAt, Event.isNesting, h]

theorem quiet_fail {problem : Problem} (h : problem ≠ .tooMuchNesting) :
    (fail problem : Rule α).Quiet c :=
  quiet_failAt h

end Quiet

/-! ## Levels enough -/

/-- A rule of the grammar that is quiet where, of `m` levels to open, there are two for each unread
token and `extra` ones besides. -/
structure Fits (rule : Rule α) (m extra : Nat) : Prop where
  made : Widens rule rule
  quiet : ∀ c : Cursor, c.room = m → 2 * c.unread.length + extra ≤ m → rule.Quiet c

namespace Fits

variable {m k l : Nat}

/-- What is quiet with fewer levels is quiet with more. -/
theorem mono {rule : Rule α} (h : rule.Fits m k) (hkl : k ≤ l) : rule.Fits m l where
  made := h.made
  quiet c hroom hle := h.quiet c hroom (by omega)

theorem pure (a : α) : (Pure.pure a : Rule α).Fits m k where
  made := .pure a
  quiet c _ _ := by simp [Quiet, Pure.pure, Rule.pure]

theorem skip : Rule.skip.Fits m k where
  made := .step .skip
  quiet c _ _ := by simp [Quiet, Rule.skip]

theorem declaring (p : Place) : (note (.declaring p)).Fits m k where
  made := .step (.declaring p)
  quiet c _ _ := by simp [Quiet, note, Event.isNesting]

theorem report {problem : Problem} (h : problem.isStructural = false) (p : Place) :
    (Rule.report problem p).Fits m k where
  made := .step (.report h p)
  quiet _ _ _ := quiet_report fun heq => by simp [heq, Problem.isStructural] at h

theorem failAt (p : Place) : (Rule.failAt .expectedLiteral p : Rule α).Fits m k where
  made := .step (.failAt p)
  quiet _ _ _ := quiet_failAt (by simp)

/-- The rest of a sequence has no more tokens to read than all of it. -/
theorem bind {rule : Rule α} {next : α → Rule β} (h : rule.Fits m k)
    (hnext : ∀ a, (next a).Fits m k) : (rule >>= next).Fits m k where
  made := .bind h.made fun a => (hnext a).made
  quiet c hroom hle := by
    refine quiet_bind (h.quiet c hroom hle) fun a _ => ?_
    obtain ⟨us, hus, hcursor⟩ := h.made.exists_upTo c
    have hlen := hus.length_le
    rw [hcursor]
    refine (hnext a).quiet (c.upTo us) hroom ?_
    rw [Cursor.upTo_unread]
    omega

theorem map {rule : Rule α} (f : α → β) (h : rule.Fits m k) : (f <$> rule).Fits m k := by
  rw [map_eq_pure_bind]
  exact h.bind fun a => .pure (f a)

/-- What is behind the place needs no levels for looking at it. -/
theorem place_bind {next : Place → Rule β} (h : ∀ p, (next p).Fits m k) :
    (place >>= next).Fits m k where
  made := .bind (.step .place) fun p => (h p).made
  quiet c hroom hle := quiet_place_bind.2 ((h c.toPlace).quiet c hroom hle)

/-- Behind a token that is there two levels more are left. -/
theorem quiet_skip_bind {next : Unit → Rule β} (h : (next ()).Fits m (k + 2)) {c : Cursor}
    {t : Token} {ts : List Token} (hts : c.unread = t :: ts) (hroom : c.room = m)
    (hle : 2 * c.unread.length + k ≤ m) : (Rule.skip >>= next).Quiet c := by
  rw [hts, List.length_cons] at hle
  refine Quiet.of_eq (h.quiet (c.upTo ts) hroom (by simp; omega)) ?_
  rw [skip_bind, hts, List.tail_cons]

/-- Behind a token two levels more are left. -/
theorem eat?_bind {accepts : TokenKind → Bool} {next : Option Token → Rule β}
    (hsome : ∀ t, (next (some t)).Fits m (k + 2)) (hnone : (next none).Fits m k) :
    (eat? accepts >>= next).Fits m k where
  made := .bind (.step (.eat? _)) fun
    | some t => (hsome t).made
    | none => hnone.made
  quiet c hroom hle := by
    by_cases h : ∃ t ts, c.unread = t :: ts ∧ accepts t.kind
    · obtain ⟨t, ts, hts, ht⟩ := h
      rw [hts, List.length_cons] at hle
      refine Quiet.of_eq ((hsome t).quiet (c.upTo ts) hroom (by simp; omega)) ?_
      rw [eat?_bind_of_accepts next hts ht]
    · have hnot : ∀ t ts, c.unread = t :: ts → accepts t.kind = false := by
        intro t ts hts
        simpa using fun ht => h ⟨t, ts, hts, ht⟩
      refine Quiet.of_eq (hnone.quiet c hroom hle) ?_
      rw [eat?_bind_of_not_accepts next hnot]

/-- A choice by a token. -/
theorem ite_eat {kind : TokenKind} {yes no : Rule α} (hyes : yes.Fits m (k + 2))
    (hno : no.Fits m k) :
    (do if ← Rule.eat kind then yes else no : Rule α).Fits m k := by
  rw [eat_bind]
  exact eat?_bind (fun _ => hyes) hno

/-- Where something else stands at a landmark, the rest is not run. -/
theorem expect_bind {landmark : Landmark} {next : Token → Rule β}
    (h : ∀ t, (next t).Fits m (k + 2)) : (expect landmark >>= next).Fits m k where
  made := .bind (.expect landmark) fun t => (h t).made
  quiet c hroom hle := by
    by_cases hnext : nextKind c.unread = landmark.kind
    · cases hts : c.unread with
      | nil =>
        rw [hts] at hnext
        exact absurd hnext.symm landmark.kind_ne_eof
      | cons t ts =>
        rw [hts, nextKind_cons] at hnext
        rw [hts, List.length_cons] at hle
        refine Quiet.of_eq ((h t).quiet (c.upTo ts) hroom (by simp; omega)) ?_
        rw [expect_bind_of_kind next hts hnext]
    · intro ev hev
      rw [expect_bind_of_ne next hnext, List.mem_singleton] at hev
      rw [hev]
      rfl

/-- One level deeper there is one level less. -/
theorem nested {rule : Rule α} (h : rule.Fits m k) : (Rule.nested rule).Fits (m + 1) (k + 1) where
  made := .nested h.made
  quiet c hroom hle := by
    refine Quiet.of_eq (h.quiet c.deeper (c.deeper_room hroom) ?_) ?_
    · rw [Cursor.deeper_unread]
      omega
    · rw [nested_of_lt rule (c.depth_lt_ceiling hroom)]
      rfl

/-- Recovery is no complaint. -/
theorem recovered {rule : Rule α} (h : rule.Fits m k) : (Rule.recovered rule).Fits m k where
  made := .recovered h.made
  quiet c hroom hle := by
    have hquiet := h.quiet c hroom hle
    intro ev hev
    rw [recovered_reply] at hev
    split at hev
    · exact hquiet ev hev
    · rcases List.mem_append.1 hev with hev | hev
      · exact hquiet ev hev
      · rw [List.mem_singleton.1 hev]
        rfl

theorem chain (p : Precedence) {operand : Rule Expr} (h : operand.Fits m k)
    (rounds : List Token) : ∀ lhs, (Rule.chain p operand rounds lhs).Fits m k := by
  induction rounds with
  | nil => exact fun lhs => .pure lhs
  | cons _ rounds ih =>
    intro lhs
    refine eat?_bind (fun op => ?_) (.pure lhs)
    exact (h.bind fun rhs => ih (p.join lhs op rhs)).mono (Nat.le_add_right k 2)

theorem leftAssociative (p : Precedence) {operand : Rule Expr} (h : operand.Fits m k) :
    (Rule.leftAssociative p operand).Fits m k :=
  h.bind fun lhs => .place_bind fun start => .chain p h start.unread lhs

end Fits

end Rule

/-! ## Expressions -/

namespace Grammar

open Rule

/-- How many levels are open in front of the first token of what an opening goes to. -/
def firstLevels : Opening → Nat
  | .expression => 2
  | .assignment => 2
  | .unary => 1

section Expressions

variable {deeper : Opening → Rule Expr} {m : Nat} (h : ∀ o, (deeper o).Fits m (firstLevels o))

include h

theorem product_fits : (product deeper).Fits m 1 :=
  .leftAssociative _ (h .unary)

theorem sum_fits : (sum deeper).Fits m 1 :=
  .leftAssociative _ (product_fits h)

theorem comparison_fits : (comparison deeper).Fits m 1 :=
  .leftAssociative _ (sum_fits h)

theorem equality_fits : (equality deeper).Fits m 1 :=
  .leftAssociative _ (comparison_fits h)

theorem conjunction_fits : (conjunction deeper).Fits m 1 :=
  .leftAssociative _ (equality_fits h)

theorem disjunction_fits : (disjunction deeper).Fits m 1 :=
  .leftAssociative _ (conjunction_fits h)

/-- A whole expression behind at least one token. -/
theorem expression_fits {k : Nat} : (deeper .expression).Fits m (k + 2) :=
  (h .expression).mono (Nat.le_add_left 2 k)

theorem conditional_fits : (conditional deeper).Fits m 1 :=
  (disjunction_fits h).bind fun _ => .ite_eat
    ((expression_fits h).bind fun _ => .expect_bind fun _ =>
      (expression_fits h).bind fun _ => .pure _)
    (.pure _)

theorem assignment_fits : (assignment deeper).Fits m 1 := by
  refine (conditional_fits h).bind fun target => .place_bind fun equals => .ite_eat ?_ (.pure _)
  refine ((h .assignment).mono (by simp [firstLevels])).bind fun value => ?_
  split
  · exact .pure _
  · exact (Fits.report rfl equals).bind fun _ => .pure _

theorem comma_fits : (comma deeper).Fits m 1 :=
  .leftAssociative _ (assignment_fits h)

omit h in
theorem literal_fits (t : Token) {k : Nat} : (literal t).Fits m k := by
  refine .place_bind fun start => .bind .skip fun _ => ?_
  split
  · exact .pure _
  · exact .pure _
  · exact .failAt start

omit h in
/-- Behind an operator without its left operand there is a token less. -/
theorem missingOperand_quiet {operand : Rule Expr} (h : operand.Fits m 1) {c : Cursor} {t : Token}
    {ts : List Token} (hts : c.unread = t :: ts) (hroom : c.room = m)
    (hle : 2 * c.unread.length ≤ m) : (missingOperand operand).Quiet c := by
  intro ev hev
  rw [missingOperand, place_bind, report_bind] at hev
  rcases List.mem_cons.1 hev with rfl | hev
  · rfl
  · have hrest : (do let _ ← operand; return .missing : Rule Expr).Fits m 2 :=
      (h.mono (Nat.le_succ 1)).bind fun _ => .pure _
    exact Fits.quiet_skip_bind (k := 0) hrest hts hroom hle ev hev

theorem primary_fits : (primary deeper).Fits m 0 where
  made := primary_widens fun o => (h o).made
  quiet c hroom hle := by
    rw [primary, quiet_next?_bind]
    cases hts : c.unread with
    | nil => exact quiet_fail (by simp)
    | cons t ts =>
      have hbehind : ∀ {next : Unit → Rule Expr}, (next ()).Fits m 2 →
          (Rule.skip >>= next).Quiet c :=
        fun hnext => Fits.quiet_skip_bind (k := 0) hnext hts hroom hle
      rw [List.head?_cons]
      dsimp only
      split
      · exact hbehind (.pure _)
      · exact hbehind (.pure _)
      · exact hbehind (.pure _)
      · exact (literal_fits t).quiet c hroom hle
      · exact (literal_fits t).quiet c hroom hle
      · exact hbehind ((h .expression).bind fun _ => .expect_bind fun _ => .pure _)
      · exact hbehind (.pure _)
      · split
        · exact missingOperand_quiet (equality_fits h) hts hroom hle
        · exact missingOperand_quiet (comparison_fits h) hts hroom hle
        · exact missingOperand_quiet (sum_fits h) hts hroom hle
        · exact missingOperand_quiet (product_fits h) hts hroom hle
        · exact quiet_fail (by simp)

theorem unary_fits : (unary deeper).Fits m 0 :=
  .eat?_bind (fun _ => ((h .unary).mono (by simp [firstLevels])).bind fun _ => .pure _)
    (primary_fits h)

theorem opened_fits : ∀ o, (opened deeper o).Fits m (firstLevels o - 1)
  | .expression => comma_fits h
  | .assignment => assignment_fits h
  | .unary => unary_fits h

end Expressions

/-- Two levels for each unread token, and one or two besides, suffice for what opens a level. -/
theorem atRoom_fits (m : Nat) : ∀ o, (atRoom m o).Fits m (firstLevels o) := by
  induction m with
  | zero =>
    intro o
    refine ⟨.step (.fail rfl), fun c _ hle => ?_⟩
    cases o <;> simp [firstLevels] at hle
  | succ m ih =>
    intro o
    have hopened := (opened_fits ih o).nested
    rwa [Nat.sub_add_cancel (by cases o <;> decide)] at hopened

/-! ## Statements

`expr` and `stmt` are the rules for expressions and statements at this level. -/

section Statements

variable {expr : Rule Expr} {stmt : Rule Stmt} {m k : Nat} (he : expr.Fits m 2)
  (hs : stmt.Fits m 3)

include he

theorem terminated_fits : (terminated expr).Fits m 2 :=
  he.bind fun _ => .expect_bind fun _ => .pure _

theorem variableDeclaration_fits : (variableDeclaration expr).Fits m k :=
  .expect_bind fun _ => .ite_eat
    ((he.mono (by omega)).bind fun _ => .expect_bind fun _ => .pure _)
    (.expect_bind fun _ => .pure _)

theorem unlessNext_fits (kind : TokenKind) : (unlessNext expr kind).Fits m 2 := by
  refine .place_bind fun p => ?_
  split
  · exact .pure _
  · exact he.bind fun _ => .pure _

theorem forInitial_fits : (forInitial expr).Fits m 2 :=
  .ite_eat (.pure _) <| .ite_eat
    ((variableDeclaration_fits he).bind fun _ => .pure _)
    ((terminated_fits he).bind fun _ => .pure _)

include hs

theorem declarationOf_fits : (declarationOf expr stmt).Fits m 3 :=
  .place_bind fun p => (Fits.declaring p).bind fun _ =>
    .recovered (.ite_eat (variableDeclaration_fits he) hs)

omit he hs in
theorem declarationsOf_fits {declaration : Rule (Option Stmt)} (h : declaration.Fits m k)
    (last : TokenKind) (rounds : List Token) :
    (declarationsOf declaration last rounds).Fits m k := by
  induction rounds with
  | nil => exact .pure _
  | cons _ rounds ih =>
    refine .place_bind fun p => ?_
    dsimp only
    split
    · exact .pure _
    · exact h.bind fun _ => .map _ ih

theorem block_fits : (block expr stmt).Fits m 3 :=
  .place_bind fun start =>
    (declarationsOf_fits (declarationOf_fits he hs) .rightBrace start.unread).bind fun _ =>
      .expect_bind fun _ => .pure _

theorem conditionalStatement_fits : (conditionalStatement expr stmt).Fits m 2 :=
  .expect_bind fun _ => (he.mono (by omega)).bind fun _ => .expect_bind fun _ =>
    (hs.mono (by omega)).bind fun _ =>
      .ite_eat ((hs.mono (by omega)).bind fun _ => .pure _) (.pure _)

theorem whileLoop_fits : (whileLoop expr stmt).Fits m 2 :=
  .expect_bind fun _ => (he.mono (by omega)).bind fun _ => .expect_bind fun _ =>
    (hs.mono (by omega)).bind fun _ => .pure _

theorem forLoop_fits : (forLoop expr stmt).Fits m 2 :=
  .expect_bind fun _ => ((forInitial_fits he).mono (by omega)).bind fun _ =>
    ((unlessNext_fits he _).mono (by omega)).bind fun _ => .expect_bind fun _ =>
      ((unlessNext_fits he _).mono (by omega)).bind fun _ => .expect_bind fun _ =>
        (hs.mono (by omega)).bind fun _ => .pure _

theorem statementBody_fits : (statementBody expr stmt).Fits m 2 where
  made := statementBody_widens he.made hs.made
  quiet c hroom hle := by
    have hsimple : (do return .expression (← terminated expr) : Rule Stmt).Fits m 2 :=
      (terminated_fits he).bind fun _ => .pure _
    rw [statementBody, quiet_place_bind, c.kind_eq_nextKind]
    cases hts : c.unread with
    | nil => exact hsimple.quiet c hroom hle
    | cons t ts =>
      have hbehind : ∀ {next : Unit → Rule Stmt}, (next ()).Fits m 4 →
          (Rule.skip >>= next).Quiet c :=
        fun hnext => Fits.quiet_skip_bind (k := 2) hnext hts hroom hle
      rw [nextKind_cons]
      split
      · exact hbehind (((terminated_fits he).mono (by omega)).bind fun _ => .pure _)
      · exact hbehind ((block_fits he hs).mono (by omega))
      · exact hbehind ((conditionalStatement_fits he hs).mono (by omega))
      · exact hbehind ((whileLoop_fits he hs).mono (by omega))
      · exact hbehind ((forLoop_fits he hs).mono (by omega))
      · exact hsimple.quiet c hroom hle

end Statements

/-- Two levels for each unread token, and three besides, suffice for a statement. -/
theorem statementAt_fits (m : Nat) : (statementAt m).Fits m 3 := by
  induction m with
  | zero => exact ⟨.step (.fail rfl), fun c _ hle => absurd hle (by omega)⟩
  | succ m ih => exact (statementBody_fits (atRoom_fits m .expression) ih).nested

end Grammar

end LoxSyntax
