import LoxSyntax.Proofs.Blame.Program
import LoxSyntax.Proofs.Misfit.Foresight
import LoxSyntax.Proofs.Recovery.Attempts
import LoxSyntax.Proofs.Rule.Congruence
import LoxSyntax.Proofs.Rule.Cost

/-!
# Progress

Every call comes to an end, after a number of steps that is told by the tokens it has to read and
not by the ceiling.  The levels and rounds that the rules are given are no bound of their own: more
of them make no difference.  A declaration gets further wherever something is left to read, also
where it is left out, and so a program gets to the end; an expression and a statement get further
wherever they are read.

* `Call.ruleAt_costs` — the steps of a call.
* `Call.ruleAt_eq` — more levels than may be opened, and more rounds than there are tokens.
* `Grammar.declaration_advances`, `Grammar.statement_advances`, `Grammar.expression_advances` — the
  rules that get further.
* **`Parser.progress_session`** — all of it, behind any session.
-/

namespace LoxSyntax

open Rule Grammar

/-! ## The end of a call -/

namespace Call

/-- A call takes 40 steps for each token that it reads, and few more. -/
theorem ruleAt_costs (m : Nat) (rounds : List Token) (call : Call) :
    (call.ruleAt m rounds).Costs 18 18 := by
  have he := (atRoom_costs m).1
  have hs := statementAt_costs m
  intro c
  cases call with
  | expression => exact ((he c).map _).mono (by decide) (by decide)
  | statement => exact ((hs c).map _).mono (by decide) (by decide)
  | declaration =>
    refine ((declarationOf_costs he hs c).map _).mono ?_ ?_ <;> split <;> decide
  | program =>
    refine ((declarationsOf_costs (declarationOf_costs he hs) .eof rounds c).map _).mono ?_ ?_ <;>
      split <;> decide

/-- No call takes more levels than may be opened, or more rounds than there are tokens. -/
theorem ruleAt_eq (call : Call) {m : Nat} {rounds : List Token} {c : Cursor} (hm : c.room ≤ m)
    (hrounds : c.unread.length ≤ rounds.length) : call.ruleAt m rounds c = call.rule c := by
  have he := atRoom_sameAt hm .expression
  have hs := statementAt_sameAt hm
  have hcongr := sameAt_congruence c.room
  cases call with
  | expression => exact map_congr _ (atRoom_eq .expression hm)
  | statement => exact map_congr _ (statementAt_eq hm)
  | declaration =>
    exact map_congr _ ((declarationOf_congr hcongr he hs).same c rfl).symm
  | program =>
    refine map_congr _ ?_
    have hdeclarations := declarationsOf_congr hcongr (declarationOf_congr hcongr he hs) .eof rounds
    calc declarationsOf (declarationOf (atRoom m .expression) (statementAt m)) .eof rounds c
        = declarationsOf (declarationOf (atRoom c.room .expression) (statementAt c.room)) .eof
            rounds c := (hdeclarations.same c rfl).symm
      _ = declarationsOf (declarationOf (atRoom c.room .expression) (statementAt c.room)) .eof
            c.unread c :=
          declarationsOf_rounds (atRoom_follows c.room .expression) (statementAt_reads c.room)
            (atRoom_widens (Nat.le_refl _) .expression) (statementAt_widens (Nat.le_refl _)) .eof
            rounds c.unread rfl hrounds (Nat.le_refl _)

end Call

/-! ## Getting further -/

namespace Grammar

variable (c : Cursor)

/-- In front of the end a declaration gets further, whether it is read or left out. -/
theorem declaration_advances (h : c.isAtEnd = false) :
    (declaration c).cursor.unread.length < c.unread.length := by
  obtain ⟨o, us, ev, hgives, -, hlt⟩ := exists_gives_declaration c
  have hne : c.unread ≠ [] := by simpa [Place.isAtEnd] using h
  rw [hgives]
  exact hlt hne

/-- A statement that is read gets further. -/
theorem statement_advances (h : (statement c).result.isSome) :
    (statement c).cursor.unread.length < c.unread.length := by
  obtain ⟨s, hs⟩ := Option.isSome_iff_exists.1 h
  have hgives : statement.Gives c s (statement c).cursor (statement c).events := by
    rw [Gives, ← hs]
  obtain ⟨us, hcursor, hreads⟩ := statementAt_reads c.room rfl hgives
  rw [hcursor]
  exact hreads.length_le

/-- An expression that is read gets further. -/
theorem expression_advances (h : (expression c).result.isSome) :
    (expression c).cursor.unread.length < c.unread.length := by
  obtain ⟨e, he⟩ := Option.isSome_iff_exists.1 h
  have hgives : expression.Gives c e (expression c).cursor (expression c).events := by
    rw [Gives, ← he]
  obtain ⟨us, hcursor, hreads⟩ := expression_follows.1 hgives
  rw [hcursor]
  exact hreads.length_lt

/-- A program gets to the end. -/
theorem program_unread (heof : ∀ t ∈ c.unread, t.kind ≠ .eof) :
    (program c).cursor.unread = [] := by
  obtain ⟨ss, us, ev, hgives, hreads⟩ := program_reads c
  rw [hgives]
  exact hreads.eq_nil_of_program heof

end Grammar

namespace Parser

/-- The index grows where fewer tokens are left to read. -/
theorem index_lt_index {p q : Parser} (htokens : q.tokens = p.tokens)
    (hlt : q.cursor.unread.length < p.cursor.unread.length)
    (hle : p.cursor.unread.length ≤ (p.tokens.takeWhile (·.kind != .eof)).length) :
    p.index < q.index := by
  simp only [index, htokens]
  omega

/-- Behind any session every call comes to an end within 40 steps for each unread token and 18
besides, whatever the ceiling is, and neither more levels nor more rounds would change its reply.
In front of the end a declaration gets further, wherever it begins and whether it is read or left
out; a statement and an expression get further wherever they are read; and a program gets to the
end. -/
theorem progress_session (ceiling : Nat) (tokens : List Token) (actions : List Action) :
    let p := (ofTokens ceiling tokens).session actions
    (∀ call : Call, ∃ ds, (call.ruleAt p.cursor.room p.cursor.unread).Passes p.cursor ds ∧
        ds.length ≤ 40 * p.cursor.unread.length + 18) ∧
      (∀ (call : Call) (c : Cursor) m rounds, c.room ≤ m → c.unread.length ≤ rounds.length →
        call.ruleAt m rounds c = call.rule c) ∧
      (∀ c : Cursor,
        (c.isAtEnd = false → (Grammar.declaration c).cursor.unread.length < c.unread.length) ∧
        ((Grammar.statement c).result.isSome →
          (Grammar.statement c).cursor.unread.length < c.unread.length) ∧
        ((Grammar.expression c).result.isSome →
          (Grammar.expression c).cursor.unread.length < c.unread.length)) ∧
      (p.isAtEnd = false → p.index < p.declaration.2.index) ∧
      (p.statement.1.isSome → p.index < p.statement.2.index) ∧
      (p.expression.1.isSome → p.index < p.expression.2.index) ∧
      p.program.2.isAtEnd = true := by
  intro p
  obtain ⟨htokens, hunread, -⟩ := session_unread ceiling tokens actions
  have hle : p.cursor.unread.length ≤ (p.tokens.takeWhile (·.kind != .eof)).length := by
    rw [htokens, takeWhile_completed]
    exact hunread.length_le
  refine ⟨fun call => ?_, fun call c m rounds hm hrounds => call.ruleAt_eq hm hrounds,
    fun c => ⟨declaration_advances c, statement_advances c, expression_advances c⟩,
    fun hend => ?_, fun hsome => ?_, fun hsome => ?_, ?_⟩
  · obtain ⟨ds, hds, hcost⟩ := call.ruleAt_costs p.cursor.room p.cursor.unread p.cursor
    refine ⟨ds, hds, ?_⟩
    rw [ite_self] at hcost
    omega
  · exact index_lt_index rfl (declaration_advances p.cursor hend) hle
  · exact index_lt_index rfl (statement_advances p.cursor hsome) hle
  · exact index_lt_index rfl (expression_advances p.cursor hsome) hle
  · have heof : ∀ t ∈ p.cursor.unread, t.kind ≠ .eof :=
      fun t ht => ne_eof_of_mem_text (hunread.subset ht)
    show (Grammar.program p.cursor).cursor.isAtEnd = true
    rw [Place.isAtEnd, program_unread p.cursor heof, List.isEmpty_nil]

end Parser

/-- The tokens of `a;`. -/
def nameTokens : List Token :=
  [⟨.identifier, "a", 1, none⟩, ⟨.semicolon, ";", 1, none⟩]

/-- Four levels suffice to read them, as a declaration, as a statement, or the name alone as an
expression. -/
theorem nameTokens_progress :
    let p := (Parser.ofTokens 4 nameTokens).session []
    let c := p.cursor
    (p.isAtEnd = false ∧ p.index < p.declaration.2.index) ∧
      (p.statement.1.isSome ∧ p.index < p.statement.2.index) ∧
      (p.expression.1.isSome ∧ p.index < p.expression.2.index) ∧
      (Call.statement.ruleAt 9 (nameTokens ++ nameTokens) c = Call.statement.rule c) ∧
      (Grammar.declaration c).cursor.unread.length < c.unread.length := by
  intro p c
  have hend : p.isAtEnd = false := by decide +kernel
  have hstatement : p.statement.1.isSome := by decide +kernel
  have hexpression : p.expression.1.isSome := by decide +kernel
  obtain ⟨-, hrule, hcursor, hdeclared, hstated, hread, -⟩ :=
    Parser.progress_session 4 nameTokens []
  exact ⟨⟨hend, hdeclared hend⟩, ⟨hstatement, hstated hstatement⟩,
    ⟨hexpression, hread hexpression⟩,
    hrule .statement c 9 _ (by decide +kernel) (by decide +kernel), (hcursor c).1 hend⟩

end LoxSyntax
