import Mathlib.Data.List.TakeWhile
import LoxSyntax.Proofs.Canonical.Expression
import LoxSyntax.Proofs.Operand.Leftmost
import LoxSyntax.Proofs.Session.Renewal

/-!
# Operators without a left operand

Where an operand should begin but a binary operator stands, the operator is taken together with all
that it could have to its right, as one operand that is missing.  The rest of the expression is read
as if some other operand stood there: with the same end, the same errors behind the one about the
missing operand, and the same tree but for this operand.

* `Grammar.ofLevel` — the rule of a level.
* `Parser.ReadsOperand` — tokens that the rule of a level reads to their end.
* `Parser.ReadsOperand.exists_reads` — they are read in front of all that the level stops at.
* `Grammar.expression_misses` — an expression that begins with an operator.
* **`Parser.expression_missing`** — the answers of a parser to it, and to the same expression with
  an operand there.
-/

namespace LoxSyntax

open Rule

/-! ## Right operands -/

namespace Grammar

/-- The rule of a level. -/
def ofLevel (deeper : Opening → Rule Expr) : Precedence → Rule Expr
  | .comma => comma deeper
  | .assignment => assignment deeper
  | .conditional => conditional deeper
  | .disjunction => disjunction deeper
  | .conjunction => conjunction deeper
  | .equality => equality deeper
  | .comparison => comparison deeper
  | .sum => sum deeper
  | .product => product deeper
  | .unary => unary deeper
  | .primary => primary deeper

theorem ofLevel_follows {deeper : Opening → Rule Expr} {m : Nat}
    (h : ∀ o, Follows (deeper o) m (.opened o)) :
    ∀ p, Follows (ofLevel deeper p) m (.level p)
  | .comma => comma_follows h
  | .assignment => assignment_follows h
  | .conditional => conditional_follows h
  | .disjunction => disjunction_follows h
  | .conjunction => conjunction_follows h
  | .equality => equality_follows h
  | .comparison => comparison_follows h
  | .sum => sum_follows h
  | .product => product_follows h
  | .unary => unary_follows h
  | .primary => primary_follows h

end Grammar

/-- The rule of a level reads the tokens from the first to the last one, without an error. -/
def Parser.ReadsOperand (ceiling : Nat) (p : Precedence) (tokens : List Token) : Prop :=
  let call := (ofTokens ceiling tokens).run (Grammar.ofLevel (Grammar.atRoom ceiling) p)
  (∀ t ∈ tokens, t.kind ≠ .eof) ∧ call.1.isSome ∧ call.2.report.isEmpty ∧ call.2.isAtEnd

/-- What a level stops at in front of other tokens, it stops at before the end of the text. -/
theorem stops_takeWhile {p : Precedence} (hp : .equality ≤ p) {tokens : List Token}
    (h : ∀ q, (nextKind tokens).precedence? = some q → q < p) :
    (Scope.level p).Stops (nextKind (tokens.takeWhile (·.kind != .eof))) := by
  have hstops : (Scope.level p).Stops (nextKind tokens) := by
    intro q hq
    by_cases hchain : q.isChain
    · exact h q (TokenKind.precedence?_of_continuation? hq hchain)
    · -- an equals sign or a question mark
      have hlt : q < .unary := TokenKind.lt_unary_of_continuation? hq
      have hequality : q < .equality := by
        cases q <;> first | decide | exact absurd rfl hchain | exact absurd hlt (by decide)
      exact Precedence.lt_of_lt_of_le hequality hp
  cases tokens with
  | nil => exact hstops
  | cons t ts =>
    by_cases ht : t.kind = .eof
    · rw [List.takeWhile_cons_of_neg (by simp [ht])]
      rintro q ⟨⟩
    · rwa [List.takeWhile_cons_of_pos (by simpa using ht)]

namespace Parser

/-- Tokens that are an operand have a derivation without an error. -/
theorem ReadsOperand.reads {n : Nat} {p : Precedence} {ts : List Token} (h : ReadsOperand n p ts) :
    ∃ e ev, (∀ d, .diagnosed d ∉ ev) ∧
      Expr.Reads (Place.ofTokens ts).endLine n (.level p) ts e [] ev := by
  have hfollows := Grammar.ofLevel_follows (Grammar.atRoom_follows n) p
  unfold ReadsOperand at h
  generalize Grammar.ofLevel (Grammar.atRoom n) p = rule at h hfollows
  obtain ⟨hts, hresult, hreport, hend⟩ := h
  have hunread : (ofTokens n ts).cursor.unread = ts :=
    (Place.unread_ofTokens ts).trans (List.takeWhile_eq_self_iff.2 (by simpa using hts))
  obtain ⟨e, he⟩ := Option.isSome_iff_exists.1 hresult
  obtain ⟨us, hcursor, hreads⟩ := hfollows.reads (gives_of_run he) rfl
  rw [hunread] at hreads
  rw [isAtEnd, hcursor] at hend
  obtain rfl : us = [] := List.isEmpty_iff.1 hend
  rw [Report.isEmpty, List.isEmpty_iff, run_errors] at hreport
  exact ⟨e, _, errorsOf_eq_nil.1 hreport, hreads⟩

/-- An operand is read in front of everything that its level stops at, where as many levels may be
opened. -/
theorem ReadsOperand.exists_reads {n m : Nat} {p : Precedence} {ts us : List Token}
    (h : ReadsOperand n p ts) (hp : .equality ≤ p) (hproduct : p ≤ .product) (hm : n ≤ m)
    (hus : (Scope.level p).Stops (nextKind us)) (endLine : UInt32) :
    ∃ e, Expr.Reads endLine m (.level p) (ts ++ us) e us [] := by
  obtain ⟨e, ev, hclean, hreads⟩ := h.reads
  obtain ⟨used, hused, hderives⟩ := hreads.derives hclean
  rw [List.append_nil] at hused
  have hmissing : e.missingCount = 0 :=
    Nat.le_zero.1 (countP_isMissing_eq_zero hclean ▸ hreads.missingCount_le)
  have hloosest : p ≤ e.precedence := hreads.loosest_le
  have hlevels : e.levels ≤ (Scope.level p).room m := by
    have hle := hreads.levels_le
    cases p <;> simp only [Scope.room] at hle ⊢ <;> omega
  have hadmits : (Scope.level p).Admits e := ⟨hloosest, Precedence.le_trans hproduct (by decide)⟩
  refine ⟨e, Expr.found endLine e hreads.isNormal hmissing hadmits hlevels
    (hused ▸ hderives.items) hus fun hopen => ?_⟩
  have hdisjunction : .disjunction ≤ e.precedence :=
    Precedence.le_trans (by decide) (Precedence.le_trans hp hloosest)
  rw [Expr.endsInConditional_of_disjunction_le hdisjunction] at hopen
  cases hopen

end Parser

/-! ## In place of an operand -/

namespace Grammar

section Placed

variable {op nil : Token} {p : Precedence} {ts : List Token} {d : Cursor} {m : Nat}
  (hop : op.kind.precedence? = some p) (hp : .equality ≤ p) (hunary : op.kind.isUnary = false)
  (hnil : nil.kind = .nilWord)
  (hreads : ∃ e, Expr.Reads d.endLine m (.level p) (ts ++ d.unread) e d.unread [])

include hop hp hunary hnil hreads

/-- An operator with its right operand stands for an operand that is missing. -/
theorem unary_misses (hroom : d.room = m + 1) :
    Reply.Misses [.diagnosed ⟨.missingLeftOperand, ⟨op :: (ts ++ d.unread), d.endLine⟩⟩]
      (atRoom (m + 1) .unary (d.upTo (nil :: d.unread)))
      (atRoom (m + 1) .unary (d.upTo (op :: (ts ++ d.unread)))) := by
  obtain ⟨e, he⟩ := hreads
  have hfollows := atRoom_follows (m + 1) .unary
  have hplaced : Expr.Reads d.endLine (m + 1) (.opened .unary) (nil :: d.unread) .nil d.unread [] :=
    .opened (.bare (by rw [nextKind_cons, hnil]; rfl) (.nil hnil))
  have hmissed : Expr.Reads d.endLine (m + 1) (.opened .unary) (op :: (ts ++ d.unread)) .missing
      d.unread [.diagnosed ⟨.missingLeftOperand, ⟨op :: (ts ++ d.unread), d.endLine⟩⟩] :=
    .opened (.bare hunary (.missing hop hp he))
  have hplaced := hfollows.gives (c := d.upTo (nil :: d.unread)) hplaced hroom
  have hmissed := hfollows.gives (c := d.upTo (op :: (ts ++ d.unread))) hmissed hroom
  rw [hplaced, hmissed]
  exact ⟨by rintro _ ⟨⟩; rfl, rfl⟩

/-- The expression that begins with the operator is the one that begins with an operand, but misses
it. -/
theorem expression_misses (hroom : d.room = m + 2) :
    Reply.Misses [.diagnosed ⟨.missingLeftOperand, ⟨op :: (ts ++ d.unread), d.endLine⟩⟩]
      (expression (d.upTo (nil :: d.unread))) (expression (d.upTo (op :: (ts ++ d.unread)))) := by
  have hrun : ∀ us, expression (d.upTo us) = nested (comma (atRoom (m + 1))) (d.upTo us) := by
    intro us
    rw [expression, Cursor.upTo_room, hroom]
    rfl
  rw [hrun, hrun]
  exact .nested hroom hroom <| comma_misses <|
    unary_misses hop hp hunary hnil hreads (d := d.deeper) (d.deeper_room hroom)

end Placed

end Grammar

namespace Parser

/-- The tokens in front of others are read first. -/
theorem cursor_ofTokens_append (ceiling : Nat) {front tokens : List Token}
    (hfront : ∀ t ∈ front, t.kind ≠ .eof) (h : tokens ≠ []) :
    (ofTokens ceiling (front ++ tokens)).cursor =
      (ofTokens ceiling tokens).cursor.upTo (front ++ (ofTokens ceiling tokens).cursor.unread) := by
  rw [ofTokens, Place.ofTokens_append hfront h]
  rfl

/-- The answers of two new parsers, one of which misses an operand that the other one has. -/
theorem expression_of_misses {parser parser' : Parser} {d : Diagnostic}
    (hnew : parser.report = {}) (hnew' : parser'.report = {})
    (h : Reply.Misses [.diagnosed d] (Grammar.expression parser.cursor)
      (Grammar.expression parser'.cursor)) :
    (∀ e ∈ parser.expression.1, e.leftmost = .nil) ∧
      parser'.expression.1 = parser.expression.1.map (·.withLeftmost .missing) ∧
      parser'.expression.2.cursor = parser.expression.2.cursor ∧
      parser'.expression.2.report.errors = d.error :: parser.expression.2.report.errors := by
  obtain ⟨hleftmost, hreply⟩ := h
  have hresult := congrArg Reply.result hreply
  have hcursor := congrArg Reply.cursor hreply
  refine ⟨hleftmost, hresult, hcursor, ?_⟩
  rw [expression, expression, run_errors, run_errors, hreply, hnew, hnew']
  rfl

/-- An operator without a left operand, from `==` on but no minus, its right operand and more tokens
behind it are answered as `nil` and these tokens are: with a tree or not, with the same tokens left
to read, and with the same errors behind the one that tells of the missing operand, which stands in
the tree where `nil` would. -/
theorem expression_missing {ceiling n : Nat} {p : Precedence} {op nil : Token}
    {ts rest : List Token}
    (hop : op.kind.precedence? = some p) (hp : .equality ≤ p) (hunary : op.kind.isUnary = false)
    (hts : ReadsOperand n p ts) (hrest : rest ≠ [])
    (hnext : ∀ q, (nextKind rest).precedence? = some q → q < p) (hnil : nil.kind = .nilWord)
    (hceiling : n + 2 ≤ ceiling) :
    let missed := (ofTokens ceiling (op :: (ts ++ rest))).expression
    let placed := (ofTokens ceiling (nil :: rest)).expression
    (∀ e ∈ placed.1, e.leftmost = .nil) ∧
      missed.1 = placed.1.map (·.withLeftmost .missing) ∧
      missed.2.cursor = placed.2.cursor ∧
      missed.2.report.errors =
        ⟨op.line, "at '" ++ op.lexeme ++ "'", "Missing left-hand operand."⟩ ::
          placed.2.report.errors := by
  obtain ⟨m, rfl⟩ : ∃ m, ceiling = m + 2 := ⟨ceiling - 2, by omega⟩
  have hproduct : p ≤ .product := Nat.le_of_lt_succ
    (TokenKind.lt_unary_of_continuation? (TokenKind.continuation?_of_precedence? hop))
  have hop_ne : op.kind ≠ .eof := by
    intro heof
    rw [heof] at hop
    cases hop
  have hnil_ne : nil.kind ≠ .eof := by
    rw [hnil]
    decide
  have hstops := stops_takeWhile hp hnext
  rw [← Place.unread_ofTokens] at hstops
  have hmisses := Grammar.expression_misses hop hp hunary hnil
    (hts.exists_reads hp hproduct (by omega) hstops (Place.ofTokens rest).endLine)
    (d := (ofTokens (m + 2) rest).cursor) rfl
  have hmissed : (ofTokens (m + 2) (op :: (ts ++ rest))).cursor =
      (ofTokens (m + 2) rest).cursor.upTo
        (op :: (ts ++ (ofTokens (m + 2) rest).cursor.unread)) :=
    cursor_ofTokens_append (m + 2) (List.forall_mem_cons.2 ⟨hop_ne, hts.1⟩) hrest
  have hplaced : (ofTokens (m + 2) (nil :: rest)).cursor =
      (ofTokens (m + 2) rest).cursor.upTo (nil :: (ofTokens (m + 2) rest).cursor.unread) :=
    cursor_ofTokens_append (m + 2) (List.forall_mem_singleton.2 hnil_ne) hrest
  rw [← hmissed, ← hplaced] at hmisses
  exact expression_of_misses rfl rfl hmisses

/-- The tokens of `a * b`. -/
def productTokens : List Token :=
  [⟨.identifier, "a", 1, none⟩, ⟨.star, "*", 1, none⟩, ⟨.identifier, "b", 2, none⟩]

/-- The tokens of `< c = d)`, where something is assigned to no variable. -/
def comparedTokens : List Token :=
  [⟨.less, "<", 2, none⟩, ⟨.identifier, "c", 2, none⟩, ⟨.equal, "=", 3, none⟩,
    ⟨.identifier, "d", 3, none⟩, ⟨.rightParen, ")", 4, none⟩, Token.eof 5]

theorem productTokens_missing :
    let plus : Token := ⟨.plus, "+", 1, none⟩
    let missed := (ofTokens 3 (plus :: (productTokens ++ comparedTokens))).expression
    ReadsOperand 1 .sum productTokens ∧ 1 + 2 ≤ 3 ∧
      missed.1 = some (.binary .missing ⟨.less, "<", 2, none⟩
        (.variable ⟨.identifier, "c", 2, none⟩)) ∧
      missed.2.cursor.unread = [⟨.rightParen, ")", 4, none⟩] ∧
      missed.2.report.errors = [⟨1, "at '+'", "Missing left-hand operand."⟩,
        ⟨3, "at '='", "Invalid assignment target."⟩] := by
  have hread : ReadsOperand 1 .sum productTokens :=
    ⟨by decide, by decide +kernel, by decide +kernel, by decide +kernel⟩
  obtain ⟨-, htree, hcursor, hreport⟩ := @expression_missing 3 1 .sum ⟨.plus, "+", 1, none⟩
    ⟨.nilWord, "nil", 1, none⟩ productTokens comparedTokens rfl (by decide) rfl hread (by decide)
    (by decide) rfl (by decide)
  refine ⟨hread, by decide, htree.trans ?_, (congrArg (·.unread) hcursor).trans ?_,
    hreport.trans ?_⟩ <;>
    decide +kernel

end Parser

end LoxSyntax
