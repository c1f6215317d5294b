import LoxSyntax.Proofs.Rule.Fitting
import LoxSyntax.Proofs.Session.Calls

/-!
# The rule of a call

A call runs one rule from the cursor of the parser: its answer, the errors that it adds to the
report and the cursor that it leaves are those of the rule's reply.  What holds of all rules of the
grammar therefore holds of all calls.

* `Call.ruleAt`, `Call.rule` — the rule of a call, with a given number of levels to open, and with
  those that the cursor has.
* `Call.run_fst`, `Call.run_cursor`, `Call.run_errors` — a call as a run of its rule.
* `Call.ruleAt_widens`, `Call.ruleAt_fits` — the rules of calls are rules of the grammar.
* `Parser.exists_after_cursor` — the cursor behind several calls.
-/

namespace LoxSyntax

open Rule Grammar

namespace Call

/-! ## Rules -/

/-- The rule of a call where `m` levels may be opened; a program takes no more rounds than there are
tokens in `rounds`. -/
def ruleAt (m : Nat) (rounds : List Token) : Call → Rule (List Tree)
  | expression => (fun e => [Tree.expression e]) <$> atRoom m .expression
  | statement => (fun s => [Tree.statement s]) <$> statementAt m
  | declaration =>
    (fun s => s.toList.map Tree.statement) <$> declarationOf (atRoom m .expression) (statementAt m)
  | program =>
    (fun ss => ss.map Tree.statement) <$>
      declarationsOf (declarationOf (atRoom m .expression) (statementAt m)) .eof rounds

/-- The rule of a call. -/
def rule (call : Call) : Rule (List Tree) := fun c =>
  call.ruleAt c.room c.unread c

/-- With more room the rule of a call is made in the same way. -/
theorem ruleAt_widens {m n : Nat} (hmn : m ≤ n) (rounds : List Token) (call : Call) :
    Widens (call.ruleAt m rounds) (call.ruleAt n rounds) := by
  have he := atRoom_widens hmn .expression
  have hs := statementAt_widens hmn
  cases call with
  | expression => exact .map _ he
  | statement => exact .map _ hs
  | declaration => exact .map _ (declarationOf_widens he hs)
  | program => exact .map _ (declarationsOf_widens (declarationOf_widens he hs) .eof rounds)

/-- Two levels for each unread token, and three besides, suffice for any call. -/
theorem ruleAt_fits (m : Nat) (rounds : List Token) (call : Call) :
    (call.ruleAt m rounds).Fits m 3 := by
  have he := atRoom_fits m .expression
  have hs := statementAt_fits m
  cases call with
  | expression => exact .map _ (he.mono (by simp [firstLevels]))
  | statement => exact .map _ hs
  | declaration => exact .map _ (declarationOf_fits he hs)
  | program => exact .map _ (declarationsOf_fits (declarationOf_fits he hs) .eof rounds)

/-- A call never reads backwards, and closes the levels that it opened. -/
theorem exists_rule_cursor (call : Call) (c : Cursor) :
    ∃ us, us <:+ c.unread ∧ (call.rule c).cursor = c.upTo us :=
  (call.ruleAt_widens (Nat.le_refl c.room) c.unread).exists_upTo c

/-! ## Runs -/

theorem map_reply {α β : Type} (f : α → β) (rule : Rule α) (c : Cursor) :
    (f <$> rule) c = ⟨(rule c).result.map f, (rule c).cursor, (rule c).events⟩ := rfl

/-- The rule of a program, from where it is run. -/
theorem rule_program (c : Cursor) :
    program.rule c = ((fun ss => ss.map Tree.statement) <$> Grammar.program) c :=
  map_congr _ (program_eq c).symm

variable (p : Parser) (call : Call)

theorem run_fst : (call.run p).1 = (call.rule p.cursor).result.getD [] := by
  cases call with
  | expression =>
    show (Grammar.expression p.cursor).result.toList.map _ =
      ((Grammar.expression p.cursor).result.map _).getD []
    cases (Grammar.expression p.cursor).result <;> rfl
  | statement =>
    show (Grammar.statement p.cursor).result.toList.map _ =
      ((Grammar.statement p.cursor).result.map _).getD []
    cases (Grammar.statement p.cursor).result <;> rfl
  | declaration =>
    show (Grammar.declaration p.cursor).result.join.toList.map _ =
      ((Grammar.declaration p.cursor).result.map _).getD []
    rcases (Grammar.declaration p.cursor).result with _ | _ | s <;> rfl
  | program =>
    rw [rule_program, map_reply]
    show ((Grammar.program p.cursor).result.getD []).map _ = _
    cases (Grammar.program p.cursor).result <;> rfl

theorem run_cursor : (call.run p).2.cursor = (call.rule p.cursor).cursor := by
  cases call with
  | expression | statement | declaration => rfl
  | program =>
    rw [rule_program]
    rfl

theorem run_errors : (call.run p).2.report.errors =
    p.report.errors ++ errorsOf (call.rule p.cursor).events := by
  cases call with
  | expression | statement | declaration => rfl
  | program =>
    rw [rule_program]
    rfl

/-- The errors that a call adds to the report. -/
def reported : List SyntaxError :=
  (call.run p).2.report.errors.drop p.report.errors.length

theorem reported_eq : call.reported p = errorsOf (call.rule p.cursor).events := by
  rw [reported, run_errors, List.drop_left]

end Call

/-- Several calls never read backwards, and close the levels that they opened. -/
theorem Parser.exists_after_cursor (calls : List Call) (p : Parser) :
    ∃ us, us <:+ p.cursor.unread ∧ (p.after calls).cursor = p.cursor.upTo us := by
  induction calls generalizing p with
  | nil => exact ⟨p.cursor.unread, List.suffix_refl _, rfl⟩
  | cons call calls ih =>
    obtain ⟨us, hus, hcursor⟩ := ih (call.run p).2
    obtain ⟨vs, hvs, hfirst⟩ := call.exists_rule_cursor p.cursor
    rw [call.run_cursor p, hfirst] at hus hcursor
    exact ⟨us, hus.trans hvs, hcursor⟩

end LoxSyntax
