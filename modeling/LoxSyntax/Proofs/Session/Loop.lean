import LoxSyntax.Proofs.Sentence.Standing
import LoxSyntax.Proofs.Session.Renewal
import LoxSyntax.Tree.Agreement

/-!
# The loop that a `for` loop stands for

A `for` loop is read as the tree of a `while` loop.  That loop can be written down: the tokens of
the clauses and of the body are put into braces and parentheses in another order.  It is read as the
same tree, whatever the clauses are and whichever of them are there, only that it takes some levels
more, as the braces count.

* `LoopParts` — the tokens that a loop is made of.
* `LoopParts.asFor`, `LoopParts.asWhile` — the two ways to write it.
* `LoopParts.Stand` — the trees of the parts.
* **`LoopParts.readsAll_asWhile`** — what is read from the one is read from the other.
-/

namespace LoxSyntax

/-! ## Two ways to write a loop -/

/-- Tokens of all kinds, to put between other tokens. -/
structure Marks where
  token : TokenKind → Token
  kind_token : ∀ k, (token k).kind = k

/-- The clauses of a loop and its body.  The first clause has its semicolon with it. -/
structure LoopParts where
  initial : List Token
  condition : List Token
  increment : List Token
  body : List Token
  initial_derives : ∃ o, Stmt.DerivesInitial initial o
  condition_derives : ∃ o, Expr.DerivesOptional condition o
  increment_derives : ∃ o, Expr.DerivesOptional increment o
  body_ne_eof : ∀ t ∈ body, t.kind ≠ .eof

/-- Some tokens and others in braces. -/
def Marks.braced (marks : Marks) (ts us : List Token) : List Token :=
  marks.token .leftBrace :: (ts ++ (us ++ [marks.token .rightBrace]))

theorem Marks.braced_ne_eof (marks : Marks) {ts us : List Token} (hts : ∀ t ∈ ts, t.kind ≠ .eof)
    (hus : ∀ t ∈ us, t.kind ≠ .eof) : ∀ t ∈ marks.braced ts us, t.kind ≠ .eof := by
  simp only [braced, List.mem_cons, List.mem_append, List.not_mem_nil, or_false, or_imp,
    forall_and, forall_eq, marks.kind_token]
  exact ⟨by decide, hts, hus, by decide⟩

namespace LoopParts

/-- The loop with all its clauses in front. -/
def asFor (p : LoopParts) (marks : Marks) : List Token :=
  marks.token .forWord :: marks.token .leftParen ::
    (p.initial ++ (p.condition ++ marks.token .semicolon ::
      (p.increment ++ marks.token .rightParen :: p.body)))

/-- What is repeated: the body, and the last clause behind it. -/
def repeated (p : LoopParts) (marks : Marks) : List Token :=
  if p.increment = [] then p.body
  else marks.braced p.body (p.increment ++ [marks.token .semicolon])

/-- What is tested each time, which is `true` if nothing is said. -/
def tested (p : LoopParts) (marks : Marks) : List Token :=
  if p.condition = [] then [marks.token .trueWord] else p.condition

/-- The loop without the first clause. -/
def inner (p : LoopParts) (marks repeating : Marks) : List Token :=
  marks.token .whileWord :: marks.token .leftParen ::
    (p.tested marks ++ marks.token .rightParen :: p.repeated repeating)

/-- The first clause, if it says anything, and the loop behind it. -/
def asWhile (p : LoopParts) (enclosing marks repeating : Marks) : List Token :=
  if p.initial.map (·.kind) = [.semicolon] then p.inner marks repeating
  else enclosing.braced p.initial (p.inner marks repeating)

end LoopParts

/-- A new parser reads the tokens, all of them up to the end of the text, as one statement without
an error. -/
def Parser.ReadsAll (ceiling : Nat) (tokens : List Token) (s : Stmt) : Prop :=
  let call := (Parser.ofTokens ceiling tokens).statement
  call.1 = some s ∧ call.2.report.isEmpty ∧ call.2.isAtEnd

/-! ## Statements up to the end -/

theorem Parser.readsAll_iff {ceiling : Nat} {tokens : List Token} {s : Stmt} :
    ReadsAll ceiling tokens s ↔ ∃ ev, problemsOf ev = [] ∧
      Stmt.Reads (Place.ofTokens tokens).endLine ceiling .statement
        (tokens.takeWhile (·.kind != .eof)) [s] [] ev := by
  have hunread : (ofTokens ceiling tokens).cursor.unread = tokens.takeWhile (·.kind != .eof) :=
    Place.unread_ofTokens tokens
  have hreport : (ofTokens ceiling tokens).statement.2.report.isEmpty ↔
      problemsOf (Grammar.statement (ofTokens ceiling tokens).cursor).events = [] := by
    rw [Report.isEmpty, List.isEmpty_iff, problemsOf_eq_nil, ← errorsOf_eq_nil]
    exact Iff.rfl
  constructor
  · rintro ⟨hresult, hempty, hend⟩
    have hgives : Grammar.statement.Gives (ofTokens ceiling tokens).cursor s
        (ofTokens ceiling tokens).statement.2.cursor _ := gives_of_run hresult
    obtain ⟨us, hcursor, hreads⟩ := Grammar.statementAt_reads ceiling rfl hgives
    rw [hunread] at hreads
    rw [isAtEnd, hcursor] at hend
    obtain rfl : us = [] := List.isEmpty_iff.1 hend
    exact ⟨_, hreport.1 hempty, hreads⟩
  · rintro ⟨ev, hev, hreads⟩
    have hgives := hreads.gives (unbroken_of_clean (problemsOf_eq_nil.1 hev))
      (ofTokens ceiling tokens).cursor rfl rfl hunread s rfl
    have hreply : Grammar.statement (ofTokens ceiling tokens).cursor =
        ⟨some s, (ofTokens ceiling tokens).cursor.upTo [], ev⟩ := hgives
    refine ⟨?_, hreport.2 ?_, ?_⟩
    · exact congrArg Reply.result hreply
    · rwa [hreply]
    · show (Grammar.statement (ofTokens ceiling tokens).cursor).cursor.isAtEnd = true
      rw [hreply]
      rfl

/-- The tokens up to the end of the text, in front of it. -/
theorem takeWhile_append_tail {ts tail : List Token} (hts : ∀ t ∈ ts, t.kind ≠ .eof)
    (htail : nextKind tail = .eof) : (ts ++ tail).takeWhile (·.kind != .eof) = ts := by
  rw [List.takeWhile_append_of_pos (by simpa using hts)]
  cases tail with
  | nil => simp
  | cons t tail => simp_all

/-- What stands for a statement is read as that statement, if it is all there is. -/
theorem Stmt.Stands.readsAll {m ceiling : Nat} {ts tail : List Token} {s : Stmt}
    (h : Stmt.Stands m .statement ts s) (hts : ∀ t ∈ ts, t.kind ≠ .eof) (hm : m ≤ ceiling)
    (htail : nextKind tail = .eof) : Parser.ReadsAll ceiling (ts ++ tail) s := by
  obtain ⟨ev, hev, hreads⟩ := h (Place.ofTokens (ts ++ tail)).endLine [] hm (by simp)
  rw [List.append_nil] at hreads
  refine Parser.readsAll_iff.2 ⟨ev, hev, ?_⟩
  rwa [takeWhile_append_tail hts htail]

/-! ## The parts and their trees -/

namespace LoopParts

variable {p : LoopParts} {m : Nat} {i : Option Stmt} {c n : Option Expr} {b : Stmt}

/-- What the parts stand for, with `m` levels to open or more. -/
structure Stand (p : LoopParts) (m : Nat) (i : Option Stmt) (c n : Option Expr) (b : Stmt) :
    Prop where
  pos : 0 < m
  initial_none : p.initial.map (·.kind) = [.semicolon] ↔ i = none
  initial : ∀ s ∈ i, Stmt.Stands (m + 1) .declaration p.initial s
  condition_none : p.condition = [] ↔ c = none
  condition : ∀ e ∈ c, Expr.Stands m p.condition e
  increment_none : p.increment = [] ↔ n = none
  increment : ∀ e ∈ n, Expr.Stands m p.increment e
  body : Stmt.Stands m .statement p.body b

/-- The condition of the loop. -/
theorem Stand.tested (h : p.Stand m i c n b) (marks : Marks) :
    Expr.Stands (m + 1) (p.tested marks) (c.getD (.bool true)) := by
  have hpos := h.pos
  cases c with
  | none =>
    rw [LoopParts.tested, if_pos (h.condition_none.2 rfl)]
    exact (Expr.stands_true (marks.kind_token .trueWord)).mono (by omega)
  | some e =>
    rw [LoopParts.tested, if_neg (mt h.condition_none.1 (by simp))]
    exact (h.condition e rfl).mono (by omega)

/-- What is repeated. -/
theorem Stand.repeated (h : p.Stand m i c n b) (marks : Marks) :
    Stmt.Stands (m + 2) .statement (p.repeated marks)
      ((n.map fun e => .block [b, .expression e]).getD b) := by
  cases n with
  | none =>
    rw [LoopParts.repeated, if_pos (h.increment_none.2 rfl)]
    exact h.body.mono (by omega)
  | some e =>
    rw [LoopParts.repeated, if_neg (mt h.increment_none.1 (by simp))]
    have hincrement := Stmt.Stands.expression (h.increment e rfl) (marks.kind_token .semicolon)
    exact (h.body.mono (by omega)).declaration.pair hincrement.declaration
      (marks.kind_token .leftBrace) (marks.kind_token .rightBrace)

/-- The loop, with its first clause in front. -/
theorem Stand.loop (h : p.Stand m i c n b) (enclosing marks repeating : Marks) :
    Stmt.Stands (m + 4) .statement (p.asWhile enclosing marks repeating) (.ofFor i c n b) := by
  have hinner : Stmt.Stands (m + 3) .statement (p.inner marks repeating) (.ofFor none c n b) := by
    have hloop := Stmt.Stands.loop ((h.tested marks).mono (Nat.le_succ (m + 1)))
      (h.repeated repeating) (marks.kind_token .whileWord) (marks.kind_token .leftParen)
      (marks.kind_token .rightParen)
    cases n <;> exact hloop
  cases i with
  | none =>
    rw [asWhile, if_pos (h.initial_none.2 rfl)]
    exact hinner.mono (Nat.le_succ (m + 3))
  | some s =>
    have hinitial : Stmt.Stands (m + 3) .declaration p.initial s :=
      (h.initial s rfl).mono (by omega)
    rw [asWhile, if_neg (mt h.initial_none.1 (by simp))]
    exact hinitial.pair hinner.declaration (enclosing.kind_token .leftBrace)
      (enclosing.kind_token .rightBrace)

/-- A first clause that is its semicolon says nothing. -/
theorem map_kind_eq_iff (p : LoopParts) {o : Option Stmt} (h : Stmt.DerivesInitial p.initial o) :
    p.initial.map (·.kind) = [.semicolon] ↔ o = none := by
  obtain ⟨front, semicolon, hinitial, hsemicolon, hnil, -⟩ := h.exists_concat
  rw [← hnil, hinitial, List.map_append, List.map_singleton, hsemicolon]
  simp

/-- Where the loop is read, its parts are. -/
theorem exists_stand {endLine : UInt32} {ceiling : Nat} {marks : Marks} {s : Stmt}
    {ev : List Event} (hev : problemsOf ev = [])
    (h : Stmt.Reads endLine ceiling .statement (p.asFor marks) [s] [] ev) :
    ∃ m i c n b, ceiling = m + 1 ∧ s = .ofFor i c n b ∧ p.Stand m i c n b := by
  obtain ⟨_, hinitial₀⟩ := p.initial_derives
  obtain ⟨_, hcondition₀⟩ := p.condition_derives
  obtain ⟨_, hincrement₀⟩ := p.increment_derives
  have hword := marks.kind_token .forWord
  rw [asFor] at h
  cases h with
  | @opened m _ _ _ _ inner =>
  generalize hbehind : p.initial ++ (p.condition ++ marks.token .semicolon ::
    (p.increment ++ marks.token .rightParen :: p.body)) = behind at inner
  cases inner with
  | print hword' | block hword' | ifThen hword' | ifElse hword' | loop hword' =>
    rw [hword] at hword'
    cases hword'
  | expression hnext =>
    rw [nextKind_cons, hword] at hnext
    cases hnext
  | @forLoop _ _ _ _ i us c semicolon vs n right ws b _ ev₁ ev₂ ev₃ ev₄ _ _ initial condition
      hsemicolon increment hright body =>
    simp only [problemsOf_append, List.append_eq_nil_iff] at hev
    obtain ⟨hev₁, hev₂, hev₃, hev₄⟩ := hev
    -- each clause ends where it was put together with the next one
    obtain ⟨used, hused, hinitial⟩ := initial.derives (problemsOf_eq_nil.1 hev₁)
    obtain ⟨rfl, rfl⟩ := hinitial₀.append_inj hinitial (hbehind.trans hused)
    obtain ⟨used, hused, hcondition⟩ := condition.derives (problemsOf_eq_nil.1 hev₂)
    obtain ⟨rfl, rfl, rfl⟩ := hcondition₀.semicolon_inj hcondition (marks.kind_token .semicolon)
      hsemicolon hused
    obtain ⟨used, hused, hincrement⟩ := increment.derives (problemsOf_eq_nil.1 hev₃)
    obtain ⟨rfl, rfl, rfl⟩ := hincrement₀.rightParen_inj hincrement (marks.kind_token .rightParen)
      hright hused
    subst hbehind
    refine ⟨m, i, c, n, b, rfl, rfl, ?_⟩
    exact
      { pos := body.room_pos
        initial_none := p.map_kind_eq_iff hinitial
        initial := by
          rintro s rfl
          exact initial.stands hev₁
        condition_none := hcondition.eq_nil_iff
        condition := by
          rintro e rfl
          cases condition with
          | some _ value => exact value.stands hev₂
        increment_none := hincrement.eq_nil_iff
        increment := by
          rintro e rfl
          cases increment with
          | some _ value => exact value.stands hev₃
        body := by
          rw [← List.append_nil p.body] at body
          exact body.stands hev₄ (by simp) }

/-! ## One loop for the other -/

section Tokens

variable (p : LoopParts)

theorem initial_ne_eof : ∀ t ∈ p.initial, t.kind ≠ .eof := by
  obtain ⟨_, hinitial⟩ := p.initial_derives
  obtain ⟨front, semicolon, hinitial, hsemicolon, -, hfront⟩ := hinitial.exists_concat
  intro t ht
  rw [hinitial, List.mem_append, List.mem_singleton] at ht
  rcases ht with ht | rfl
  · exact (TokenKind.ne_of_isClausal (hfront t ht)).2
  · simp [hsemicolon]

theorem asFor_ne_eof (marks : Marks) : ∀ t ∈ p.asFor marks, t.kind ≠ .eof := by
  obtain ⟨_, hcondition⟩ := p.condition_derives
  obtain ⟨_, hincrement⟩ := p.increment_derives
  simp only [asFor, List.mem_cons, List.mem_append, or_imp, forall_and, forall_eq,
    marks.kind_token]
  exact ⟨by decide, by decide, p.initial_ne_eof, hcondition.ne_eof, by decide, hincrement.ne_eof,
    by decide, p.body_ne_eof⟩

theorem tested_ne_eof (marks : Marks) : ∀ t ∈ p.tested marks, t.kind ≠ .eof := by
  obtain ⟨_, hcondition⟩ := p.condition_derives
  unfold tested
  split
  · simp [marks.kind_token]
  · exact hcondition.ne_eof

theorem repeated_ne_eof (marks : Marks) : ∀ t ∈ p.repeated marks, t.kind ≠ .eof := by
  obtain ⟨_, hincrement⟩ := p.increment_derives
  unfold repeated
  split
  · exact p.body_ne_eof
  · refine marks.braced_ne_eof p.body_ne_eof ?_
    simp only [List.mem_append, List.mem_singleton, or_imp, forall_and, forall_eq,
      marks.kind_token]
    exact ⟨hincrement.ne_eof, by decide⟩

theorem asWhile_ne_eof (enclosing marks repeating : Marks) :
    ∀ t ∈ p.asWhile enclosing marks repeating, t.kind ≠ .eof := by
  have hinner : ∀ t ∈ p.inner marks repeating, t.kind ≠ .eof := by
    simp only [inner, List.mem_cons, List.mem_append, or_imp, forall_and, forall_eq,
      marks.kind_token]
    exact ⟨by decide, by decide, p.tested_ne_eof marks, by decide, p.repeated_ne_eof repeating⟩
  unfold asWhile
  split
  · exact hinner
  · exact enclosing.braced_ne_eof p.initial_ne_eof hinner

end Tokens

/-- What is read from a `for` loop is read from the `while` loop that is made of its parts, where
three levels more may be opened. -/
theorem readsAll_asWhile (p : LoopParts) (marks enclosing looping repeating : Marks)
    {ceiling : Nat} {tail : List Token} {s : Stmt} (htail : nextKind tail = .eof)
    (h : Parser.ReadsAll ceiling (p.asFor marks ++ tail) s) {ceiling' : Nat} {tail' : List Token}
    (hceiling : ceiling + 3 ≤ ceiling') (htail' : nextKind tail' = .eof) :
    Parser.ReadsAll ceiling' (p.asWhile enclosing looping repeating ++ tail') s := by
  obtain ⟨ev, hev, hreads⟩ := Parser.readsAll_iff.1 h
  rw [takeWhile_append_tail (p.asFor_ne_eof marks) htail] at hreads
  obtain ⟨m, i, c, n, b, rfl, rfl, hstand⟩ := exists_stand hev hreads
  exact (hstand.loop enclosing looping repeating).readsAll
    (p.asWhile_ne_eof enclosing looping repeating) hceiling htail'

/-- The parts of `for (var i = a; i < b; i = c) print i;`. -/
def counting : LoopParts where
  initial := [⟨.varWord, "var", 1, none⟩, ⟨.identifier, "i", 1, none⟩, ⟨.equal, "=", 1, none⟩,
    ⟨.identifier, "a", 1, none⟩, ⟨.semicolon, ";", 1, none⟩]
  condition := [⟨.identifier, "i", 2, none⟩, ⟨.less, "<", 2, none⟩, ⟨.identifier, "b", 2, none⟩]
  increment := [⟨.identifier, "i", 3, none⟩, ⟨.equal, "=", 3, none⟩, ⟨.identifier, "c", 3, none⟩]
  body := [⟨.printWord, "print", 4, none⟩, ⟨.identifier, "i", 4, none⟩, ⟨.semicolon, ";", 4, none⟩]
  initial_derives :=
    ⟨_, .declared (.valued rfl rfl rfl (.tighter (by decide) (.name rfl)) rfl)⟩
  condition_derives :=
    ⟨_, .some (.tighter (by decide) (.join (.tighter (by decide) (.name rfl)) rfl
      (by decide : Precedence.comparison < .primary) (.name rfl) (by decide)))⟩
  increment_derives :=
    ⟨_, .some (.tighter (by decide) (.assign rfl rfl (.tighter (by decide) (.name rfl))))⟩
  body_ne_eof := by decide

/-- The words and the marks of one line. -/
def plainMarks (line : UInt32) : Marks where
  token k := ⟨k, String.ofList k.spelling, line, none⟩
  kind_token _ := rfl

/-- The tree of that loop. -/
def countingLoop : Stmt :=
  .block [.declare ⟨.identifier, "i", 1, none⟩ (some (.variable ⟨.identifier, "a", 1, none⟩)),
    .loop (.binary (.variable ⟨.identifier, "i", 2, none⟩) ⟨.less, "<", 2, none⟩
        (.variable ⟨.identifier, "b", 2, none⟩))
      (.block [.print (.variable ⟨.identifier, "i", 4, none⟩),
        .expression (.assign ⟨.identifier, "i", 3, none⟩
          (.variable ⟨.identifier, "c", 3, none⟩))])]

theorem readsAll_counting :
    Parser.ReadsAll 5 (counting.asFor (plainMarks 7) ++ []) countingLoop ∧
      Parser.ReadsAll 8 (counting.asWhile (plainMarks 6) (plainMarks 5) (plainMarks 4) ++
        [Token.eof 9]) countingLoop := by
  have hread : Parser.ReadsAll 5 (counting.asFor (plainMarks 7) ++ []) countingLoop :=
    ⟨by decide +kernel, by decide +kernel, by decide +kernel⟩
  exact ⟨hread, readsAll_asWhile counting (plainMarks 7) (plainMarks 6) (plainMarks 5)
    (plainMarks 4) rfl hread (by decide) rfl⟩

end LoopParts

end LoxSyntax
