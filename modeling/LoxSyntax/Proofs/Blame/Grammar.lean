import LoxSyntax.Proofs.Blame.Order
import LoxSyntax.Proofs.Misfit.Foresight
import LoxSyntax.Proofs.Recovery.Attempts

/-!
# The grammar blames in order

Every rule of the grammar blames in order.  Three of them blame a token and go on: an assignment
blames its equals sign late, an operator without its left operand is blamed before it is read, and
a literal without its value when it has been read.

Declarations may succeed although they have blamed the end, but then they have recovered there and
nothing is left.  A block that is not closed blames the end once more; its opening brace accounts
for that.

* **`Grammar.atRoom_clears`**, **`Grammar.statementAt_clears`** — expressions and statements.
* **`Grammar.declarationsOf_blames`** — declarations, one after another.
-/

namespace LoxSyntax

namespace Grammar

open Rule

/-! ## Expressions -/

section Expressions

variable {deeper : Opening → Rule Expr} (h : ∀ o, (deeper o).Clears)

include h

theorem product_clears : (product deeper).Clears :=
  (h .unary).leftAssociative _

theorem sum_clears : (sum deeper).Clears :=
  (product_clears h).leftAssociative _

theorem comparison_clears : (comparison deeper).Clears :=
  (sum_clears h).leftAssociative _

theorem equality_clears : (equality deeper).Clears :=
  (comparison_clears h).leftAssociative _

theorem conjunction_clears : (conjunction deeper).Clears :=
  (equality_clears h).leftAssociative _

theorem disjunction_clears : (disjunction deeper).Clears :=
  (conjunction_clears h).leftAssociative _

theorem conditional_clears : (conditional deeper).Clears :=
  (disjunction_clears h).bind fun _ => .ite_eat .question
    ((h .expression).bind fun _ => (Clears.expect _).bind fun _ =>
      (h .expression).bind fun _ => .pure _)
    (.pure _)

/-- The equals sign is blamed behind all that its right side is blamed for. -/
theorem assignment_clears : (assignment deeper).Clears := by
  refine (conditional_clears h).bind fun target c => clearsAt_place_bind.2 ?_
  rw [ClearsAt, eat_bind]
  by_cases hequal : nextKind c.unread = .equal
  · obtain ⟨t, ts, hts⟩ := List.exists_cons_of_ne_nil (l := c.unread) fun hnil => by
      rw [hnil] at hequal
      cases hequal
    have ht : t.kind = .equal := by rwa [hts] at hequal
    have hvalue := h .assignment (c.upTo ts)
    have hbehind : 1 + braces ts ≤ 1 + braces (t :: ts) :=
      Nat.add_le_add_left (braces_le_of_suffix (List.suffix_cons t ts)) 1
    rw [eat?_bind_of_accepts _ hts (by simp [ht])]
    show Reply.Clears 1 c ((deeper .assignment >>= _) (c.upTo ts))
    rw [bind_reply]
    split
    · next value hresult =>
      have hsome : (deeper .assignment (c.upTo ts)).result.isSome := by rw [hresult]; rfl
      split
      · next name =>
        have hassign := clears_bind hvalue fun value _ => Clears.pure (Expr.assign name value) _
        rw [bind_reply, hresult] at hassign
        exact hassign.cons hts hbehind
      · exact hvalue.late hts hsome target
    · exact (Reply.Clears.of_failed hvalue.toBlames).cons hts hbehind
  · rw [eat?_bind_of_not_accepts _ ((forall_kind_ne_iff (by decide)).2 hequal)]
    exact Clears.pure target c

theorem comma_clears : (comma deeper).Clears :=
  (assignment_clears h).leftAssociative _

omit h in
theorem literal_clears {t s : Token} {ts : List Token} {c : Cursor} (hts : c.unread = s :: ts) :
    (literal t).ClearsAt c := by
  refine clearsAt_place_bind.2 ?_
  split
  · exact clearsAt_skip_bind hts (.pure _)
  · exact clearsAt_skip_bind hts (.pure _)
  · rw [ClearsAt, skip_bind, hts]
    exact .blamed hts rfl rfl

omit h in
/-- The operator is blamed before it is read. -/
theorem missingOperand_clears {operand : Rule Expr} (h : operand.Clears) {t : Token}
    {ts : List Token} {c : Cursor} (hts : c.unread = t :: ts) :
    (missingOperand operand).ClearsAt c := by
  rw [missingOperand, clearsAt_place_bind, ← bind_assoc]
  have hoperator : (report .missingLeftOperand c.toPlace >>= fun _ => skip) c =
      ⟨some (), c.upTo ts, [.diagnosed ⟨.missingLeftOperand, c.toPlace⟩]⟩ := by
    rw [report_bind]
    simp only [skip, hts, List.tail_cons]
    rfl
  refine clears_bind ?_ fun _ _ => h.bind (fun _ => .pure _) _
  rw [hoperator]
  exact .blamed hts rfl rfl

theorem primary_clears : (primary deeper).Clears := by
  intro c
  rw [primary, clearsAt_next?_bind]
  cases hts : c.unread with
  | nil => exact Clears.fail _ c
  | cons t ts =>
    rw [List.head?_cons]
    dsimp only
    split
    · exact clearsAt_skip_bind hts (.pure _)
    · exact clearsAt_skip_bind hts (.pure _)
    · exact clearsAt_skip_bind hts (.pure _)
    · exact literal_clears hts
    · exact literal_clears hts
    · exact clearsAt_skip_bind hts ((h .expression).bind fun _ => (Clears.expect _).bind fun _ =>
        .pure _)
    · exact clearsAt_skip_bind hts (.pure _)
    · split
      · exact missingOperand_clears (equality_clears h) hts
      · exact missingOperand_clears (comparison_clears h) hts
      · exact missingOperand_clears (sum_clears h) hts
      · exact missingOperand_clears (product_clears h) hts
      · exact Clears.fail _ c

theorem unary_clears : (unary deeper).Clears :=
  (Clears.eat? _).bind fun
    | some _ => (h .unary).bind fun _ => .pure _
    | none => primary_clears h

theorem opened_clears : ∀ o, (opened deeper o).Clears
  | .expression => comma_clears h
  | .assignment => assignment_clears h
  | .unary => unary_clears h

end Expressions

/-- Expressions blame in order, and blame the end only if they fail. -/
theorem atRoom_clears (m : Nat) : ∀ o, (atRoom m o).Clears := by
  induction m with
  | zero => exact fun _ => .fail _
  | succ m ih => exact fun o => (opened_clears ih o).nested

/-! ## Declarations -/

section Statements

variable {expr : Rule Expr} {stmt : Rule Stmt} (he : expr.Clears) (hs : stmt.Clears)

include he

theorem terminated_clears : (terminated expr).Clears :=
  he.bind fun _ => (Clears.expect _).bind fun _ => .pure _

theorem variableDeclaration_clears : (variableDeclaration expr).Clears :=
  (Clears.expect _).bind fun _ => .ite_eat .equal
    (he.bind fun _ => (Clears.expect _).bind fun _ => .pure _)
    ((Clears.expect _).bind fun _ => .pure _)

theorem unlessNext_clears (kind : TokenKind) : (unlessNext expr kind).Clears :=
  Clears.place.bind fun _ => by
    split
    · exact .pure _
    · exact he.bind fun _ => .pure _

theorem forInitial_clears : (forInitial expr).Clears :=
  .ite_eat .semicolon (.pure _) <| .ite_eat .varWord
    ((variableDeclaration_clears he).bind fun _ => .pure _)
    ((terminated_clears he).bind fun _ => .pure _)

include hs

theorem declarationOf_blames : (declarationOf expr stmt).Blames := by
  have hrecovered := (Clears.ite_eat .varWord (variableDeclaration_clears he) hs).recovered
  intro c
  rw [declarationOf_reply]
  exact ⟨(hrecovered c).exists_upTo, (hrecovered c).placed, (hrecovered c).passed,
    (hrecovered c).ordered, (hrecovered c).countP_le⟩

omit he hs in
/-- Where a declaration has blamed the end, it was the last one. -/
theorem declarationsOf_blames {declaration : Rule (Option Stmt)} (h : declaration.Blames)
    (last : TokenKind) (rounds : List Token) :
    (declarationsOf declaration last rounds).Blames := by
  induction rounds with
  | nil => exact fun c => (Clears.pure [] c).toBlames
  | cons _ rounds ih =>
    intro c
    rw [declarationsOf_cons]
    split
    · exact (Clears.pure [] c).toBlames
    rw [bind_reply]
    split
    · next first hfirst =>
      have hsome : (declaration c).result.isSome := by rw [hfirst]; rfl
      have hmore := (ih (declaration c).cursor).map (first.toList ++ ·)
      refine (h c).append hsome hmore ?_
      by_cases hleft : (declaration c).cursor.unread = []
      · have hnone :
            (declarationsOf declaration last rounds (declaration c).cursor).diagnostics = [] := by
          rw [declarationsOf_of_nil declaration last rounds hleft]
          rfl
        rw [Reply.diagnostics_map, hnone]
        exact (h c).countP_le
      · have hcount := hmore.countP_le
        have hbraces := braces_le_of_suffix (h c).suffix
        rw [(h c).countP_eq_zero hsome hleft]
        omega
    · exact (Reply.Clears.of_failed (h c)).toBlames

theorem block_clears (c : Cursor) : (block expr stmt c).Clears 2 c := by
  rw [block, place_bind]
  refine clears_bind_of_blames
    (declarationsOf_blames (declarationOf_blames he hs) .rightBrace c.unread c)
    (fun body => ((Clears.expect .blockEnd).bind fun _ => .pure (Stmt.block body)) _)
    fun body hend => ?_
  rw [expect_bind_of_ne _ (by rw [hend]; decide)]

theorem conditionalStatement_clears : (conditionalStatement expr stmt).Clears :=
  (Clears.expect _).bind fun _ => he.bind fun _ => (Clears.expect _).bind fun _ =>
    hs.bind fun _ => .ite_eat .elseWord (hs.bind fun _ => .pure _) (.pure _)

theorem whileLoop_clears : (whileLoop expr stmt).Clears :=
  (Clears.expect _).bind fun _ => he.bind fun _ => (Clears.expect _).bind fun _ =>
    hs.bind fun _ => .pure _

theorem forLoop_clears : (forLoop expr stmt).Clears :=
  (Clears.expect _).bind fun _ => (forInitial_clears he).bind fun _ =>
    (unlessNext_clears he _).bind fun _ => (Clears.expect _).bind fun _ =>
      (unlessNext_clears he _).bind fun _ => (Clears.expect _).bind fun _ => hs.bind fun _ =>
        .pure _

theorem statementBody_clears : (statementBody expr stmt).Clears := by
  intro c
  rw [statementBody, clearsAt_place_bind, c.kind_eq_nextKind]
  rcases hts : c.unread with _ | ⟨t, ts⟩
  · exact (terminated_clears he).bind (fun _ => .pure _) c
  rw [nextKind_cons]
  split
  · exact clearsAt_skip_bind hts ((terminated_clears he).bind fun _ => .pure _)
  · next hkind =>
    rw [ClearsAt, skip_bind, hts, List.tail_cons]
    refine (block_clears he hs (c.upTo ts)).cons hts ?_
    rw [braces_cons, if_pos hkind]
    omega
  · exact clearsAt_skip_bind hts (conditionalStatement_clears he hs)
  · exact clearsAt_skip_bind hts (whileLoop_clears he hs)
  · exact clearsAt_skip_bind hts (forLoop_clears he hs)
  · exact (terminated_clears he).bind (fun _ => .pure _) c

end Statements

/-- Statements blame in order, and blame the end only if they fail. -/
theorem statementAt_clears (m : Nat) : (statementAt m).Clears := by
  induction m with
  | zero => exact .fail _
  | succ m ih => exact (statementBody_clears (atRoom_clears m .expression) ih).nested

/-- A program blames in order. -/
theorem program_blames (c : Cursor) : (program c).Blames 1 c := by
  rw [program_eq]
  exact declarationsOf_blames (declarationOf_blames (atRoom_clears c.room .expression)
    (statementAt_clears c.room)) .eof c.unread c

end Grammar

end LoxSyntax
