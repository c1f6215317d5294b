import LoxSyntax.Proofs.Reading.Normal
import LoxSyntax.Session.Parser

/-!
# Calls of a parser

A parser answers calls one after another, and what it answers depends on the calls before.  Whatever
they were, and whether they failed or not, the trees it answers with are in normal form, and an
operand is missing in them only where the call has reported that.

* `Call`, `Call.run`, `Parser.after` — calls, their answers, and the parser behind several calls.
* `errorsOf` — the errors that a run of a rule reports.
* **`Parser.isNormal_after`** — every tree of every answer.
-/

namespace LoxSyntax

/-! ## Calls and answers -/

/-- A tree of an answer. -/
inductive Tree
  | expression (e : Expr)
  | statement (s : Stmt)

namespace Tree

def isNormal : Tree → Bool
  | expression e => e.isNormal
  | statement s => s.isNormal

def missingCount : Tree → Nat
  | expression e => e.missingCount
  | statement s => s.missingCount

/-- The number of missing operands in several trees. -/
def missingTotal : List Tree → Nat
  | [] => 0
  | t :: ts => t.missingCount + missingTotal ts

theorem missingTotal_map_statement (ss : List Stmt) :
    missingTotal (ss.map statement) = Program.missingCount ss := by
  induction ss with
  | nil => rfl
  | cons s ss ih =>
    rw [List.map_cons, missingTotal, ih]
    rfl

end Tree

/-- What a parser can be asked for. -/
inductive Call
  | expression
  | statement
  | declaration
  | program
deriving DecidableEq, Repr

/-- The trees of the answer, none of them if the call failed, and the parser behind it. -/
def Call.run (p : Parser) : Call → List Tree × Parser
  | expression => (p.expression.1.toList.map .expression, p.expression.2)
  | statement => (p.statement.1.toList.map .statement, p.statement.2)
  | declaration => (p.declaration.1.toList.map .statement, p.declaration.2)
  | program => (p.program.1.map .statement, p.program.2)

/-- The parser behind several calls. -/
def Parser.after (calls : List Call) (p : Parser) : Parser :=
  calls.foldl (fun p call => (call.run p).2) p

/-! ## What a run reports -/

/-- The errors among some events, in order. -/
def errorsOf (events : List Event) : List SyntaxError :=
  (events.filterMap Event.diagnostic?).map Diagnostic.error

theorem errorsOf_append (ev ev' : List Event) :
    errorsOf (ev ++ ev') = errorsOf ev ++ errorsOf ev' := by
  simp [errorsOf]

/-- The errors are those of what was diagnosed. -/
theorem forall_mem_errorsOf {ev : List Event} {P : SyntaxError → Prop} :
    (∀ e ∈ errorsOf ev, P e) ↔ ∀ d, .diagnosed d ∈ ev → P d.error := by
  simp only [errorsOf, List.mem_map, List.mem_filterMap]
  constructor
  · exact fun h d hd => h _ ⟨d, ⟨_, hd, rfl⟩, rfl⟩
  · rintro h _ ⟨d, ⟨event, hevent, heq⟩, rfl⟩
    cases event with
    | diagnosed d' =>
      cases heq
      exact h d hevent
    | _ => cases heq

/-- There are no errors where nothing was diagnosed. -/
theorem errorsOf_eq_nil {ev : List Event} :
    errorsOf ev = [] ↔ ∀ d, .diagnosed d ∉ ev :=
  List.eq_nil_iff_forall_not_mem.trans (forall_mem_errorsOf (P := fun _ => False))

/-- What was reported of missing operands stands among the errors. -/
theorem countP_isMissing_le (ev : List Event) :
    ev.countP Event.isMissing ≤
      (errorsOf ev).countP (·.message == "Missing left-hand operand.") := by
  induction ev with
  | nil => exact Nat.le_refl 0
  | cons event ev ih =>
    rcases event with d | p | p
    · show _ ≤ List.countP _ (d.error :: errorsOf ev)
      by_cases hd : d.problem = .missingLeftOperand
      · have hmessage : d.error.message = "Missing left-hand operand." := by
          simp [Diagnostic.error, hd, Problem.message]
        rw [List.countP_cons_of_pos (by simp [Event.isMissing, hd]),
          List.countP_cons_of_pos (by simp [hmessage])]
        exact Nat.succ_le_succ ih
      · rw [List.countP_cons_of_neg (by simp [Event.isMissing, hd]), List.countP_cons]
        exact Nat.le_trans ih (Nat.le_add_right _ _)
    · rw [List.countP_cons_of_neg (by simp [Event.isMissing])]
      exact ih
    · rw [List.countP_cons_of_neg (by simp [Event.isMissing])]
      exact ih

namespace Parser

variable {α : Type} (p : Parser)

theorem run_errors (rule : Rule α) :
    (p.run rule).2.report.errors = p.report.errors ++ errorsOf (rule p.cursor).events := rfl

/-- What a run answers, its rule gives. -/
theorem gives_of_run {p : Parser} {rule : Rule α} {a : α} (h : (p.run rule).1 = some a) :
    rule.Gives p.cursor a (p.run rule).2.cursor (rule p.cursor).events := by
  rw [Rule.Gives, ← h]
  rfl

theorem program_fst : p.program.1 = (Grammar.program p.cursor).result.getD [] := rfl

theorem program_errors :
    p.program.2.report.errors = p.report.errors ++ errorsOf (Grammar.program p.cursor).events := rfl

theorem declaration_errors :
    p.declaration.2.report.errors =
      p.report.errors ++ errorsOf (Grammar.declaration p.cursor).events := rfl

end Parser

/-! ## Trees of answers -/

/-- The trees are normal, and their missing operands are among the reported ones. -/
def Accounted (trees : List Tree) (events : List Event) : Prop :=
  (∀ t ∈ trees, t.isNormal) ∧
    Tree.missingTotal trees ≤ events.countP Event.isMissing

namespace Accounted

theorem nil (ev : List Event) : Accounted [] ev :=
  ⟨fun _ ht => absurd ht List.not_mem_nil, Nat.zero_le _⟩

theorem expression {endLine : UInt32} {m : Nat} {scope : Scope} {ts us : List Token} {e : Expr}
    {ev : List Event} (h : Expr.Reads endLine m scope ts e us ev) :
    Accounted [.expression e] ev := by
  refine ⟨fun t ht => ?_, h.missingCount_le⟩
  obtain rfl := List.mem_singleton.1 ht
  exact h.isNormal

theorem statements {endLine : UInt32} {m : Nat} {scope : Stmt.Scope} {ts us : List Token}
    {ss : List Stmt} {ev : List Event} (h : Stmt.Reads endLine m scope ts ss us ev) :
    Accounted (ss.map .statement) ev := by
  have hnormal := h.isNormal
  have hmissing := h.missingCount_le
  refine ⟨?_, ?_⟩
  · clear h hmissing
    induction ss with
    | nil => exact fun _ ht => absurd ht List.not_mem_nil
    | cons s ss ih =>
      simp only [Program.isNormal, Bool.and_eq_true] at hnormal
      simpa using ⟨hnormal.1, by simpa using ih hnormal.2⟩
  · rw [Tree.missingTotal_map_statement]
    exact hmissing

end Accounted

open Rule Grammar

/-- Whatever a call is answered with is accounted for by what happened during the call. -/
theorem Call.exists_accounted (p : Parser) (call : Call) :
    ∃ ev, (call.run p).2.report.errors = p.report.errors ++ errorsOf ev ∧
      Accounted (call.run p).1 ev := by
  cases call with
  | expression =>
    refine ⟨_, p.run_errors Grammar.expression, ?_⟩
    show Accounted ((Grammar.expression p.cursor).result.toList.map .expression) _
    rcases hreply : Grammar.expression p.cursor with ⟨_ | e, c', ev⟩
    · exact .nil ev
    · obtain ⟨us, -, hreads⟩ := expression_follows.1 hreply
      exact .expression hreads
  | statement =>
    refine ⟨_, p.run_errors Grammar.statement, ?_⟩
    show Accounted ((Grammar.statement p.cursor).result.toList.map .statement) _
    rcases hreply : Grammar.statement p.cursor with ⟨_ | s, c', ev⟩
    · exact .nil ev
    · obtain ⟨us, -, hreads⟩ := statementAt_reads p.cursor.room rfl hreply
      exact .statements hreads
  | declaration =>
    refine ⟨_, p.declaration_errors, ?_⟩
    show Accounted ((Grammar.declaration p.cursor).result.join.toList.map .statement) _
    rcases hreply : Grammar.declaration p.cursor with ⟨_ | _ | s, c', ev⟩
    · exact .nil ev
    · exact .nil ev
    · obtain ⟨us, -, hreads⟩ := declarationOf_reads (o := some s)
        (atRoom_follows p.cursor.room .expression) (statementAt_reads p.cursor.room)
        (atRoom_widens (Nat.le_refl _) .expression) (statementAt_widens (Nat.le_refl _)) rfl
        (fun h => nomatch h) hreply
      exact .statements hreads
  | program =>
    refine ⟨_, p.program_errors, ?_⟩
    show Accounted (((Grammar.program p.cursor).result.getD []).map .statement) _
    obtain ⟨ss, us, ev, hgives, hreads⟩ := program_reads p.cursor
    rw [hgives]
    exact .statements hreads

/-- Whatever the calls before, every tree of an answer is normal, and no more operands are missing
in the answer than the call has reported. -/
theorem Parser.isNormal_after (ceiling : Nat) (tokens : List Token) (calls : List Call)
    (call : Call) :
    let p := (Parser.ofTokens ceiling tokens).after calls
    (∀ t ∈ (call.run p).1, t.isNormal) ∧
      ∃ reported, (call.run p).2.report.errors = p.report.errors ++ reported ∧
        Tree.missingTotal (call.run p).1 ≤
          reported.countP (·.message == "Missing left-hand operand.") := by
  intro p
  obtain ⟨ev, herrors, hnormal, hmissing⟩ := call.exists_accounted p
  exact ⟨hnormal, errorsOf ev, herrors, Nat.le_trans hmissing (countP_isMissing_le ev)⟩

end LoxSyntax
