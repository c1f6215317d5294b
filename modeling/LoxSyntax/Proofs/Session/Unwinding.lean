import LoxSyntax.Proofs.Misfit.Program
import LoxSyntax.Proofs.Recovery.Attempts
import LoxSyntax.Proofs.Recovery.Expression
import LoxSyntax.Proofs.Recovery.Unwinding
import LoxSyntax.Proofs.Session.Rules

/-!
# Errors and recoveries of a call

Assignments to something else than a name and operands that are missing on the left are reported and
parsing goes on.  Every other error unwinds: it ends the rules that are running, up to the one that
recovers, or up to the call itself, which then fails.  Nothing else unwinds and no error is reported
twice on the way, so the errors of a call can be counted by its recoveries.

* `Call.Failed`, `Call.recoveries` — whether a call fails, and how often it recovers on the way, as
  the log tells.
* `Call.countP_reported` — the errors that unwind are as many as the recoveries and the failure.
* `Call.exists_concat_of_failed` — a call that fails has reported why, as the last thing it did.
* **`Parser.reported_unwinds`** — both, with what they say of expressions and of the declarations of
  a program.
-/

namespace LoxSyntax

open Rule Grammar

/-! ## Counting in reports and logs -/

/-- The problems that end a rule are the errors that are not semantic. -/
theorem countP_errorsOf (ev : List Event) :
    (errorsOf ev).countP (!·.isSemantic) = ev.countP Event.isStructural := by
  rw [errorsOf, List.countP_map, List.countP_filterMap]
  refine List.countP_congr fun event _ => ?_
  cases event with
  | diagnosed d => simp [Event.diagnostic?, Diagnostic.isSemantic_error, Event.isStructural]
  | _ => simp [Event.diagnostic?, Event.isStructural]

/-- Whether a record tells of a recovery. -/
def LogRecord.isRecovery : LogRecord → Bool
  | recovering _ => true
  | scanned _ | parsing _ | declaring _ | parsed .. => false

theorem countP_record? (ev : List Event) :
    (ev.filterMap Event.record?).countP LogRecord.isRecovery = ev.countP Event.isRecovery := by
  rw [List.countP_filterMap]
  refine List.countP_congr fun event _ => ?_
  cases event <;> simp [Event.record?, LogRecord.isRecovery, Event.isRecovery]

/-! ## Calls -/

/-- The parser with its cursor elsewhere. -/
def Parser.withCursor (p : Parser) (cursor : Cursor) : Parser :=
  { p with cursor }

namespace Call

variable (p : Parser) (call : Call)

/-- Only an expression or a statement can fail; a declaration that cannot be read is left out. -/
def Failed (p : Parser) : Call → Prop
  | expression => p.expression.1 = none
  | statement => p.statement.1 = none
  | declaration | program => False

instance : Decidable (call.Failed p) := by
  cases call <;> unfold Failed <;> infer_instance

/-- How many recoveries the call adds to the log. -/
def recoveries : Nat :=
  ((call.run p).2.log.drop p.log.length).countP LogRecord.isRecovery

/-- A call fails where its rule does. -/
theorem failed_iff : call.Failed p ↔ (call.rule p.cursor).result = none := by
  cases call with
  | expression =>
    show (Grammar.expression p.cursor).result = none ↔
      ((Grammar.expression p.cursor).result.map _) = none
    rw [Option.map_eq_none_iff]
  | statement =>
    show (Grammar.statement p.cursor).result = none ↔
      ((Grammar.statement p.cursor).result.map _) = none
    rw [Option.map_eq_none_iff]
  | declaration =>
    obtain ⟨o, us, ev, hgives, -⟩ := exists_gives_declaration p.cursor
    show False ↔ ((Grammar.declaration p.cursor).result.map _) = none
    rw [hgives]
    simp
  | program =>
    obtain ⟨ds, hds⟩ := exists_attempts p.cursor
    rw [rule_program, map_reply, hds.program_result]
    simp [Failed]

/-- The recoveries of a call are those of its rule. -/
theorem recoveries_eq :
    call.recoveries p = (call.rule p.cursor).events.countP Event.isRecovery := by
  rw [← countP_record?, recoveries]
  cases call with
  | expression | statement | declaration =>
    exact congrArg _ (List.drop_left ..)
  | program =>
    rw [rule_program, map_reply]
    show ((p.log ++ [LogRecord.parsing _] ++ (Grammar.program p.cursor).events.filterMap
      Event.record? ++ [LogRecord.parsed _ _]).drop p.log.length).countP _ = _
    simp [LogRecord.isRecovery]

/-- As many errors unwind as there are recoveries, and one more if the call fails. -/
theorem countP_reported :
    (call.reported p).countP (!·.isSemantic) =
      call.recoveries p + if call.Failed p then 1 else 0 := by
  have hcount := (call.ruleAt_widens (Nat.le_refl p.cursor.room)
    p.cursor.unread).countP_isStructural p.cursor
  rw [reported_eq, countP_errorsOf, recoveries_eq]
  refine hcount.trans (congrArg _ ?_)
  simp only [failed_iff, Reply.failures, Option.isNone_iff_eq_none]
  rfl

/-- The last error of a call that fails unwinds. -/
theorem exists_concat_of_failed (h : call.Failed p) :
    ∃ before e, call.reported p = before ++ [e] ∧ e.isSemantic = false := by
  obtain ⟨before, d, hevents, hd⟩ := (call.ruleAt_widens (Nat.le_refl p.cursor.room)
    p.cursor.unread).exists_concat p.cursor ((call.failed_iff p).1 h)
  refine ⟨errorsOf before, d.error, ?_, by rw [Diagnostic.isSemantic_error, hd]; rfl⟩
  rw [reported_eq]
  exact (congrArg errorsOf hevents).trans (errorsOf_append before _)

/-- Nothing recovers inside of an expression. -/
theorem recoveries_expression : expression.recoveries p = 0 := by
  rw [recoveries_eq]
  refine List.countP_eq_zero.2 fun event hevent hrecovery => ?_
  cases event with
  | recovering q => exact (atRoom_confined p.cursor.room .expression p.cursor).calm q hevent
  | _ => cases hrecovery

end Call

namespace Parser

variable (p : Parser)

/-- An expression fails just where an error unwinds, and then only one does. -/
theorem expression_eq_none_iff :
    (p.expression.1 = none ↔ ∃ e ∈ Call.expression.reported p, e.isSemantic = false) ∧
      (p.expression.1 = none → (Call.expression.reported p).countP (!·.isSemantic) = 1) := by
  have hcount := Call.expression.countP_reported p
  rw [Call.recoveries_expression, Nat.zero_add] at hcount
  have hpos : (∃ e ∈ Call.expression.reported p, e.isSemantic = false) ↔
      0 < (Call.expression.reported p).countP (!·.isSemantic) := by
    simp [List.countP_pos_iff]
  rw [hpos, hcount]
  by_cases h : p.expression.1 = none <;> simp [Call.Failed, h]

/-- A program makes the calls of the declarations that it attempts, and each of them is returned, or
recovers. -/
theorem exists_attempts_program : ∃ ds, Attempts p.cursor ds ∧
    p.program.1 = ds.filterMap (fun d => (p.withCursor d).declaration.1) ∧
    Call.program.reported p = ds.flatMap (fun d => Call.declaration.reported (p.withCursor d)) ∧
    ∀ d ∈ ds, (p.withCursor d).declaration.1 ≠ none ∨
      0 < Call.declaration.recoveries (p.withCursor d) := by
  obtain ⟨ds, hds⟩ := exists_attempts p.cursor
  refine ⟨ds, hds, ?_, ?_, fun d _ => ?_⟩
  · rw [program_fst, hds.program_result]
    rfl
  · rw [Call.reported_eq, Call.rule_program, Call.map_reply, hds.program_events]
    simp only [errorsOf, List.filterMap_flatMap, List.map_flatMap, Call.reported_eq]
    rfl
  · by_cases hnone : attempted d = none
    · rw [Call.recoveries_eq]
      exact .inr (List.countP_pos_iff.2 ⟨_, recovering_mem_of_none hnone, rfl⟩)
    · exact .inl hnone

/-- Of the errors that a call reports, as many unwind as it recovers on the way, and one more if it
fails; that one is then reported last.  So an expression, inside of which nothing recovers, fails
just where an error unwinds, and then only one does; and each declaration that a program attempts is
returned, or something in it was recovered from. -/
theorem reported_unwinds (call : Call) :
    ((call.reported p).countP (!·.isSemantic) =
        call.recoveries p + if call.Failed p then 1 else 0) ∧
      (call.Failed p → ∃ before e, call.reported p = before ++ [e] ∧ e.isSemantic = false) ∧
      ((p.expression.1 = none ↔ ∃ e ∈ Call.expression.reported p, e.isSemantic = false) ∧
        (p.expression.1 = none → (Call.expression.reported p).countP (!·.isSemantic) = 1)) ∧
      ∃ ds, Attempts p.cursor ds ∧
        p.program.1 = ds.filterMap (fun d => (p.withCursor d).declaration.1) ∧
        Call.program.reported p =
          ds.flatMap (fun d => Call.declaration.reported (p.withCursor d)) ∧
        ∀ d ∈ ds, (p.withCursor d).declaration.1 ≠ none ∨
          0 < Call.declaration.recoveries (p.withCursor d) :=
  ⟨call.countP_reported p, call.exists_concat_of_failed p, p.expression_eq_none_iff,
    p.exists_attempts_program⟩

end Parser

/-- The tokens of a block that is not closed, with `nil = a;` and `+;` in it. -/
def openBlock : List Token :=
  [⟨.leftBrace, "\x7b", 1, none⟩, ⟨.nilWord, "nil", 1, none⟩, ⟨.equal, "=", 1, none⟩,
    ⟨.identifier, "a", 1, none⟩, ⟨.semicolon, ";", 1, none⟩, ⟨.plus, "+", 1, none⟩,
    ⟨.semicolon, ";", 1, none⟩]

/-- Four errors are reported of it.  Two of them unwind, one up to the block and one out of it. -/
theorem openBlock_unwinds :
    let p := Parser.ofTokens 8 openBlock
    (Call.statement.reported p).length = 4 ∧ Call.statement.recoveries p = 1 ∧
      (Call.statement.reported p).countP (!·.isSemantic) = 1 + 1 ∧
      ∃ before e, Call.statement.reported p = before ++ [e] ∧ e.isSemantic = false := by
  intro p
  have hfailed : Call.statement.Failed p := by decide +kernel
  have hrecoveries : Call.statement.recoveries p = 1 := by decide +kernel
  obtain ⟨hcount, hlast, -⟩ := p.reported_unwinds .statement
  rw [if_pos hfailed, hrecoveries] at hcount
  exact ⟨by decide +kernel, hrecoveries, hcount, hlast hfailed⟩

end LoxSyntax
