import LoxSyntax.Proofs.Misfit.Fork

/-!
# How far the grammar looks ahead

Every rule of the grammar decides by the next token alone what it reads and what it reports.  So two
texts that part behind a token are read alike, and their errors are the same, for as long as that
token is not read.

* `Rule.chain_rounds`, `Grammar.declarationsOf_rounds` — rounds enough are as good as more of them.
* **`Grammar.atRoom_foresees`**, **`Grammar.statementAt_foresees`** — no rule looks past the next
  token.
* **`Grammar.program_agrees`** — programs that part behind a token.
-/

namespace LoxSyntax

variable {f : Fork} {m : Nat}

/-! ## Rounds -/

namespace Rule

theorem chain_of_nil (p : Precedence) (operand : Rule Expr) (rounds : List Token) (lhs : Expr)
    {c : Cursor} (hnil : c.unread = []) : chain p operand rounds lhs c = ⟨some lhs, c, []⟩ := by
  cases rounds with
  | nil => rfl
  | cons _ rounds =>
    exact eat?_bind_of_not_accepts _ fun t ts hts => nomatch hnil.symm.trans hts

/-- A chain takes no more rounds than there are tokens. -/
theorem chain_rounds (p : Precedence) {operand : Rule Expr} (h : Widens operand operand)
    (rounds : List Token) : ∀ (rounds' : List Token) (lhs : Expr) {c : Cursor},
      c.unread.length ≤ rounds.length → c.unread.length ≤ rounds'.length →
      chain p operand rounds lhs c = chain p operand rounds' lhs c := by
  induction rounds with
  | nil =>
    intro rounds' lhs c hlen _
    have hnil : c.unread = [] := List.length_eq_zero_iff.1 (Nat.le_zero.1 hlen)
    rw [chain_of_nil p operand _ lhs hnil, chain_of_nil p operand _ lhs hnil]
  | cons _ rounds ih =>
    -- a round is taken where an operator follows, and then a token has been read
    intro rounds' lhs c hlen hlen'
    cases hts : c.unread with
    | nil => rw [chain_of_nil p operand _ lhs hts, chain_of_nil p operand _ lhs hts]
    | cons t ts =>
      rw [hts, List.length_cons] at hlen hlen'
      obtain _ | ⟨_, rounds'⟩ := rounds'
      · simp at hlen'
      rw [List.length_cons] at hlen hlen'
      rw [chain, chain]
      by_cases ht : t.kind.precedence? = some p
      · rw [eat?_bind_of_accepts _ hts (by simp [ht]), eat?_bind_of_accepts _ hts (by simp [ht])]
        refine Grammar.bind_congr rfl fun rhs => ?_
        obtain ⟨us, hus, hcursor⟩ := h.exists_upTo (c.upTo ts)
        rw [hcursor]
        exact ih rounds' _ (Nat.le_trans hus.length_le (Nat.le_of_succ_le_succ hlen))
          (Nat.le_trans hus.length_le (Nat.le_of_succ_le_succ hlen'))
      · have hnot : ∀ s ss, c.unread = s :: ss → (s.kind.precedence? == some p) = false := by
          intro s ss hs
          cases hts.symm.trans hs
          simpa using ht
        rw [eat?_bind_of_not_accepts _ hnot, eat?_bind_of_not_accepts _ hnot]

namespace Foresees

variable {operand : Rule Expr} (h : Foresees f m operand operand)

include h

theorem chain (p : Precedence) (rounds : List Token) :
    ∀ lhs, Foresees f m (Rule.chain p operand rounds lhs) (Rule.chain p operand rounds lhs) := by
  induction rounds with
  | nil => exact fun lhs => .pure lhs
  | cons _ rounds ih =>
    intro lhs
    exact (eat? _).bind fun
      | none => .pure lhs
      | some op => h.bind fun rhs => ih (p.join lhs op rhs)

/-- Both runs take the rounds that they have tokens for. -/
theorem leftAssociative (p : Precedence) :
    Foresees f m (Rule.leftAssociative p operand) (Rule.leftAssociative p operand) := by
  refine h.bind fun lhs => ⟨.bind (.step .place) fun start => .chain p h.made start.unread lhs, ?_⟩
  intro c c' htwin hroom
  rw [Rule.place_bind, Rule.place_bind,
    chain_rounds p h.made c.unread (c.unread ++ c'.unread) lhs (Nat.le_refl _) (by simp),
    chain_rounds p h.made c'.unread (c.unread ++ c'.unread) lhs (Nat.le_refl _) (by simp)]
  exact (h.chain p _ lhs).agrees htwin hroom

end Foresees

end Rule

namespace Grammar

open Rule

/-! ## Expressions -/

section Expressions

variable {deeper : Opening → Rule Expr} (h : ∀ o, Foresees f m (deeper o) (deeper o))

include h

theorem product_foresees : Foresees f m (product deeper) (product deeper) :=
  (h .unary).leftAssociative _

theorem sum_foresees : Foresees f m (sum deeper) (sum deeper) :=
  (product_foresees h).leftAssociative _

theorem comparison_foresees : Foresees f m (comparison deeper) (comparison deeper) :=
  (sum_foresees h).leftAssociative _

theorem equality_foresees : Foresees f m (equality deeper) (equality deeper) :=
  (comparison_foresees h).leftAssociative _

theorem conjunction_foresees : Foresees f m (conjunction deeper) (conjunction deeper) :=
  (equality_foresees h).leftAssociative _

theorem disjunction_foresees : Foresees f m (disjunction deeper) (disjunction deeper) :=
  (conjunction_foresees h).leftAssociative _

theorem conditional_foresees : Foresees f m (conditional deeper) (conditional deeper) :=
  (disjunction_foresees h).bind fun _ => .ite_eat .question
    ((h .expression).bind fun _ => (Foresees.expect _).bind fun _ =>
      (h .expression).bind fun _ => .pure _)
    (.pure _)

theorem assignment_foresees : Foresees f m (assignment deeper) (assignment deeper) := by
  refine (conditional_foresees h).bind fun target => .place_bind ?_ fun p p' htwin =>
    .ite_eat .equal ((h .assignment).bind fun value => ?_) (.pure _)
  · refine .bind (.step .place) fun _ => .ite_eat .equal (.bind (h .assignment).made fun _ => ?_)
      (.pure _)
    split
    · exact .pure _
    · exact .bind (.step (.report rfl _)) fun _ => .pure _
  · split
    · exact .pure _
    · exact (Foresees.report rfl htwin).bind fun _ => .pure _

theorem comma_foresees : Foresees f m (comma deeper) (comma deeper) :=
  (assignment_foresees h).leftAssociative _

omit h in
theorem literal_foresees (t : Token) : Foresees f m (literal t) (literal t) := by
  refine .place_bind (literal_widens t) fun p p' htwin => Foresees.skip.bind fun _ => ?_
  split
  · exact .pure _
  · exact .pure _
  · exact .failAt htwin

omit h in
theorem missingOperand_foresees {operand : Rule Expr} (h : Foresees f m operand operand) :
    Foresees f m (missingOperand operand) (missingOperand operand) :=
  .place_bind (missingOperand_widens h.made) fun _ _ htwin =>
    (Foresees.report rfl htwin).bind fun _ => Foresees.skip.bind fun _ => h.bind fun _ => .pure _

theorem primary_foresees : Foresees f m (primary deeper) (primary deeper) := by
  refine .next?_bind fun
    | none => .fail rfl
    | some t => ?_
  dsimp only
  split
  · exact Foresees.skip.bind fun _ => .pure _
  · exact Foresees.skip.bind fun _ => .pure _
  · exact Foresees.skip.bind fun _ => .pure _
  · exact literal_foresees t
  · exact literal_foresees t
  · exact Foresees.skip.bind fun _ => (h .expression).bind fun _ =>
      (Foresees.expect _).bind fun _ => .pure _
  · exact Foresees.skip.bind fun _ => .pure _
  · split
    · exact missingOperand_foresees (equality_foresees h)
    · exact missingOperand_foresees (comparison_foresees h)
    · exact missingOperand_foresees (sum_foresees h)
    · exact missingOperand_foresees (product_foresees h)
    · exact .fail rfl

theorem unary_foresees : Foresees f m (unary deeper) (unary deeper) :=
  (Foresees.eat? _).bind fun
    | some _ => (h .unary).bind fun _ => .pure _
    | none => primary_foresees h

theorem opened_foresees : ∀ o, Foresees f m (opened deeper o) (opened deeper o)
  | .expression => comma_foresees h
  | .assignment => assignment_foresees h
  | .unary => unary_foresees h

end Expressions

/-- No rule for expressions looks past the next token. -/
theorem atRoom_foresees (m : Nat) : ∀ o, Foresees f m (atRoom m o) (atRoom m o) := by
  induction m with
  | zero => exact fun _ => .fail rfl
  | succ m ih => exact fun o => (opened_foresees ih o).nested

/-! ## Statements

`expr` and `stmt` are the rules for expressions and statements at this level. -/

section Statements

variable {expr : Rule Expr} {stmt : Rule Stmt} (he : Foresees f m expr expr)
  (hs : Foresees f m stmt stmt)

include he

theorem terminated_foresees : Foresees f m (terminated expr) (terminated expr) :=
  he.bind fun _ => (Foresees.expect _).bind fun _ => .pure _

theorem variableDeclaration_foresees :
    Foresees f m (variableDeclaration expr) (variableDeclaration expr) :=
  (Foresees.expect _).bind fun _ => .ite_eat .equal
    (he.bind fun _ => (Foresees.expect _).bind fun _ => .pure _)
    ((Foresees.expect _).bind fun _ => .pure _)

theorem unlessNext_foresees (kind : TokenKind) :
    Foresees f m (unlessNext expr kind) (unlessNext expr kind) where
  made := unlessNext_widens he.made kind
  agrees c c' htwin hroom := by
    rw [unlessNext, place_bind, place_bind, c.kind_eq_nextKind, c'.kind_eq_nextKind,
      htwin.place.nextKind_eq]
    split
    · exact (Foresees.pure _).agrees htwin hroom
    · exact (he.bind fun _ => .pure _).agrees htwin hroom

theorem forInitial_foresees : Foresees f m (forInitial expr) (forInitial expr) :=
  .ite_eat .semicolon (.pure _) <| .ite_eat .varWord
    ((variableDeclaration_foresees he).bind fun _ => .pure _)
    ((terminated_foresees he).bind fun _ => .pure _)

include hs

theorem declarationOf_foresees :
    Foresees f m (declarationOf expr stmt) (declarationOf expr stmt) :=
  .place_bind (declarationOf_widens he.made hs.made) fun p p' _ =>
    (Foresees.declaring p p').bind fun _ =>
      .recovered (.ite_eat .varWord (variableDeclaration_foresees he) hs)

omit he hs in
theorem declarationsOf_foresees {declaration : Rule (Option Stmt)}
    (h : Foresees f m declaration declaration) (last : TokenKind) (rounds : List Token) :
    Foresees f m (declarationsOf declaration last rounds)
      (declarationsOf declaration last rounds) := by
  induction rounds with
  | nil => exact .pure _
  | cons _ rounds ih =>
    refine ⟨declarationsOf_widens h.made last _, fun c c' htwin hroom => ?_⟩
    rw [declarationsOf_cons, declarationsOf_cons, htwin.place.nextKind_eq]
    split
    · exact (Foresees.pure _).agrees htwin hroom
    · exact (h.bind fun _ => ih.map _).agrees htwin hroom

end Statements

/-! ## Compound statements -/

theorem declarationsOf_of_nil (declaration : Rule (Option Stmt)) (last : TokenKind)
    (rounds : List Token) {c : Cursor} (hnil : c.unread = []) :
    declarationsOf declaration last rounds c = ⟨some [], c, []⟩ := by
  cases rounds with
  | nil => rfl
  | cons _ rounds => rw [declarationsOf_cons, if_pos (by simp [hnil])]

section Compound

variable {expr : Rule Expr} {stmt : Rule Stmt} (hexpr : Follows expr m (.opened .expression))
  (hstmt : Derived stmt m .statement)

include hexpr hstmt

/-- There are no more declarations than tokens. -/
theorem declarationsOf_rounds (he : Widens expr expr) (hs : Widens stmt stmt) (last : TokenKind)
    (rounds : List Token) : ∀ (rounds' : List Token) {c : Cursor}, c.room = m →
      c.unread.length ≤ rounds.length → c.unread.length ≤ rounds'.length →
      declarationsOf (declarationOf expr stmt) last rounds c =
        declarationsOf (declarationOf expr stmt) last rounds' c := by
  induction rounds with
  | nil =>
    intro rounds' c _ hlen _
    have hnil : c.unread = [] := List.length_eq_zero_iff.1 (Nat.le_zero.1 hlen)
    rw [declarationsOf_of_nil _ _ _ hnil, declarationsOf_of_nil _ _ _ hnil]
  | cons _ rounds ih =>
    intro rounds' c hroom hlen hlen'
    by_cases hne : c.unread = []
    · rw [declarationsOf_of_nil _ _ _ hne, declarationsOf_of_nil _ _ _ hne]
    obtain _ | ⟨_, rounds'⟩ := rounds'
    · exact absurd (List.length_eq_zero_iff.1 (Nat.le_zero.1 hlen')) hne
    rw [List.length_cons] at hlen hlen'
    rw [declarationsOf_cons, declarationsOf_cons]
    split
    · rfl
    · refine bind_congr rfl fun o => map_congr _ ?_
      obtain ⟨o', c₁, ev, hgives⟩ := exists_gives_declarationOf expr stmt c
      obtain ⟨us, rfl, hreads⟩ := declarationOf_reads hexpr hstmt he hs hroom (fun _ => hne) hgives
      have hlt := hreads.length_le
      simp only [Stmt.Scope.reading] at hlt
      rw [hgives]
      exact ih rounds' (c := c.upTo us) hroom (by simp; omega) (by simp; omega)

variable (he : Foresees f m expr expr) (hs : Foresees f m stmt stmt)

include he hs

/-- Both runs take the rounds that they have tokens for. -/
theorem declarationsHere_foresees (last : TokenKind) :
    Foresees f m (do declarationsOf (declarationOf expr stmt) last (← place).unread)
      (do declarationsOf (declarationOf expr stmt) last (← place).unread) where
  made := .bind (.step .place) fun start =>
    declarationsOf_widens (declarationOf_widens he.made hs.made) last start.unread
  agrees c c' htwin hroom := by
    rw [place_bind, place_bind,
      declarationsOf_rounds hexpr hstmt he.made hs.made last c.unread (c.unread ++ c'.unread) hroom
        (Nat.le_refl _) (by simp),
      declarationsOf_rounds hexpr hstmt he.made hs.made last c'.unread (c.unread ++ c'.unread)
        (htwin.room_eq.trans hroom) (Nat.le_refl _) (by simp)]
    exact (declarationsOf_foresees (declarationOf_foresees he hs) last _).agrees htwin hroom

theorem block_foresees : Foresees f m (block expr stmt) (block expr stmt) := by
  have hbody := (declarationsHere_foresees hexpr hstmt he hs .rightBrace).bind fun body =>
    (Foresees.expect .blockEnd).bind fun _ => .pure (Stmt.block body)
  rwa [bind_assoc] at hbody

omit hexpr hstmt in
theorem conditionalStatement_foresees :
    Foresees f m (conditionalStatement expr stmt) (conditionalStatement expr stmt) :=
  (Foresees.expect _).bind fun _ => he.bind fun _ => (Foresees.expect _).bind fun _ =>
    hs.bind fun _ => .ite_eat .elseWord (hs.bind fun _ => .pure _) (.pure _)

omit hexpr hstmt in
theorem whileLoop_foresees : Foresees f m (whileLoop expr stmt) (whileLoop expr stmt) :=
  (Foresees.expect _).bind fun _ => he.bind fun _ => (Foresees.expect _).bind fun _ =>
    hs.bind fun _ => .pure _

omit hexpr hstmt in
theorem forLoop_foresees : Foresees f m (forLoop expr stmt) (forLoop expr stmt) :=
  (Foresees.expect _).bind fun _ => (forInitial_foresees he).bind fun _ =>
    (unlessNext_foresees he _).bind fun _ => (Foresees.expect _).bind fun _ =>
      (unlessNext_foresees he _).bind fun _ => (Foresees.expect _).bind fun _ =>
        hs.bind fun _ => .pure _

theorem statementBody_foresees :
    Foresees f m (statementBody expr stmt) (statementBody expr stmt) where
  made := statementBody_widens he.made hs.made
  agrees c c' htwin hroom := by
    rw [statementBody, place_bind, place_bind, c.kind_eq_nextKind, c'.kind_eq_nextKind,
      htwin.place.nextKind_eq]
    refine Foresees.agrees ?_ htwin hroom
    split
    · exact Foresees.skip.bind fun _ => (terminated_foresees he).bind fun _ => .pure _
    · exact Foresees.skip.bind fun _ => block_foresees hexpr hstmt he hs
    · exact Foresees.skip.bind fun _ => conditionalStatement_foresees he hs
    · exact Foresees.skip.bind fun _ => whileLoop_foresees he hs
    · exact Foresees.skip.bind fun _ => forLoop_foresees he hs
    · exact (terminated_foresees he).bind fun _ => .pure _

end Compound

/-- No rule for statements looks past the next token. -/
theorem statementAt_foresees (m : Nat) : Foresees f m (statementAt m) (statementAt m) := by
  induction m with
  | zero => exact .fail rfl
  | succ m ih =>
    exact (statementBody_foresees (atRoom_follows m .expression) (statementAt_reads m)
      (atRoom_foresees m .expression) ih).nested

/-! ## Programs -/

/-- Programs that part behind a token. -/
theorem program_agrees {c c' : Cursor} (htwin : Cursor.Twin f c c') :
    (program c).Agrees f (program c') := by
  rw [program_eq, program_eq, htwin.room_eq]
  exact (declarationsHere_foresees (atRoom_follows c.room .expression)
    (statementAt_reads c.room) (atRoom_foresees c.room .expression)
    (statementAt_foresees c.room) .eof).agrees htwin rfl

end Grammar

end LoxSyntax
