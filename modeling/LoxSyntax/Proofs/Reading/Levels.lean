import LoxSyntax.Proofs.Reading.Statement
import LoxSyntax.Proofs.Tree.Levels

/-!
# The levels of what was read

A tree that was read takes no more levels of nesting than there were to open, as long as it stands
for its own text.  A `for` loop does not: what it is read as can take three times as many.

* **`Expr.Reads.levels_le`** — the levels of an expression.
* **`Stmt.Reads.levels_le_mul`** — the levels of any statements.
* **`Stmt.Reads.levels_le_add`** — the same by the number of loops in their tokens.
* **`Stmt.Reads.levels_le`** — the levels of statements read from tokens without `for`.
-/

namespace LoxSyntax

/-! ## Expressions -/

/-- How many levels the operands of an expression may take. -/
def Scope.room (m : Nat) : Scope → Nat
  | .level .unary | .level .primary => m + 1
  | .chain _ | .level _ | .opened .unary => m
  | .opened _ => m - 1

/-- What was read took no more levels than there were to open. -/
theorem Expr.Reads.levels_le {endLine : UInt32} {m : Nat} {scope : Scope} {ts us : List Token}
    {e : Expr} {ev : List Event} (h : Expr.Reads endLine m scope ts e us ev) :
    e.levels ≤ scope.room m := by
  induction h with
  | @operand m p _ _ _ _ _ _ ih => cases p <;> exact ih
  | @join m p ts lhs op us rhs vs ev ev' _ _ _ ih ih' =>
    rw [levels_join]
    have hrhs : rhs.levels ≤ m := by cases p <;> exact ih'
    exact Nat.max_le.2 ⟨ih, hrhs⟩
  | @close m p _ _ _ _ hp _ _ ih =>
    cases p <;> first | exact ih | cases hp
  | unassigned _ _ ih | unbranched _ _ ih | bare _ _ ih => exact ih
  | @assign m ts x equals us v vs ev ev' _ _ _ _ ih =>
    have := v.levels_pos
    simp only [levels, Scope.room] at ih ⊢
    omega
  | invalidTarget _ _ _ _ ih _ => exact ih
  | @conditional m ts c question us yes colon vs no ws ev ev' ev'' _ _ _ _ _ ih ih' ih'' =>
    have := yes.levels_pos
    have := no.levels_pos
    simp only [levels, Scope.room] at ih ih' ih'' ⊢
    omega
  | unary _ _ ih =>
    simp only [levels, Scope.room] at ih ⊢
    omega
  | no | yes | nil | number | string | name | missing =>
    simp only [levels, Scope.room]
    omega
  | @group m left ts e right us ev _ _ _ ih =>
    have := e.levels_pos
    simp only [levels, Scope.room] at ih ⊢
    omega
  | @opened m o ts e us ev _ ih => cases o <;> exact ih

/-- A whole expression opens a level besides. -/
theorem Expr.Reads.levels_lt {endLine : UInt32} {m : Nat} {ts us : List Token} {e : Expr}
    {ev : List Event} (h : Expr.Reads endLine m (.opened .expression) ts e us ev) :
    e.levels < m := by
  have hle := h.levels_le
  have hpos := e.levels_pos
  simp only [Scope.room] at hle
  omega

/-! ## Statements -/

section Statements

variable {endLine : UInt32} {m : Nat} {ts us : List Token} {ev : List Event}

theorem Expr.ReadsEnded.levels_lt {e : Expr} (h : Expr.ReadsEnded endLine m ts e us ev) :
    e.levels < m := by
  obtain ⟨_, hreads, -⟩ := h
  exact hreads.levels_lt

theorem Expr.ReadsOptional.levels_lt {kind : TokenKind} {o : Option Expr}
    (h : Expr.ReadsOptional endLine m kind ts o us ev) : ∀ e ∈ o, e.levels < m := by
  cases h with
  | none => exact fun e he => nomatch he
  | some _ value =>
    rintro e ⟨⟩
    exact value.levels_lt

theorem Stmt.ReadsVariable.levels_le {s : Stmt} (h : Stmt.ReadsVariable endLine m ts s us ev) :
    s.levels ≤ m := by
  cases h with
  | bare => exact Nat.zero_le m
  | valued _ _ value =>
    have := value.levels_lt
    simp only [levels]
    omega

theorem Stmt.ReadsInitial.levels_le {o : Option Stmt}
    (h : Stmt.ReadsInitial endLine m ts o us ev) : ∀ s ∈ o, s.levels ≤ m + 1 := by
  cases h with
  | none => exact fun s hs => nomatch hs
  | declared _ declaration =>
    rintro s ⟨⟩
    exact Nat.le_succ_of_le declaration.levels_le
  | stated _ _ value =>
    rintro s ⟨⟩
    have := value.levels_lt
    simp only [levels]
    omega

/-- How many levels a statement may take. -/
def Stmt.Scope.room (m : Nat) : Stmt.Scope → Nat
  | .body => m + 1
  | _ => m

/-- No statement is read where no level may be opened. -/
theorem Stmt.Reads.room_pos {ss : List Stmt}
    (h : Stmt.Reads endLine m .statement ts ss us ev) : 0 < m := by
  cases h with
  | opened => exact Nat.succ_pos _

/-- Statements that were read take at most three times as many levels as there were to open. -/
theorem Stmt.Reads.levels_le_mul {scope : Stmt.Scope} {ss : List Stmt}
    (h : Stmt.Reads endLine m scope ts ss us ev) :
    Program.levels ss ≤ 3 * scope.room m := by
  induction h with
  | opened _ ih | stated _ _ ih => exact ih
  | print _ value | expression _ value =>
    have := value.levels_lt
    simp only [Program.levels, Stmt.levels, Scope.room]
    omega
  | block _ _ _ ih =>
    simp only [Program.levels, Stmt.levels, Scope.room] at ih ⊢
    omega
  | ifThen _ _ condition _ _ _ ih | loop _ _ condition _ _ ih =>
    have := condition.levels_lt
    simp only [Program.levels, Stmt.levels, Scope.room] at ih ⊢
    omega
  | ifElse _ _ condition _ yes _ _ ih ih' =>
    have := condition.levels_lt
    simp only [Program.levels, Stmt.levels, Scope.room] at ih ih' ⊢
    omega
  | forLoop _ _ initial condition _ increment _ body ih =>
    simp only [Program.levels, Scope.room, Nat.max_zero] at ih
    have hpos := body.room_pos
    have := Stmt.levels_ofFor_le hpos initial.levels_le condition.levels_lt increment.levels_lt ih
    simp only [Program.levels, Scope.room, Nat.max_zero]
    omega
  | declared _ inner =>
    have := inner.levels_le
    simp only [Program.levels, Scope.room, Nat.max_zero]
    omega
  | skipped | done => exact Nat.zero_le _
  | next _ _ _ ih ih' =>
    rw [Program.levels_append]
    exact Nat.max_le.2 ⟨ih, ih'⟩

/-! ## By the number of loops -/

/-- The number of loops in some tokens. -/
def loopCount (ts : List Token) : Nat :=
  ts.countP (·.kind == .forWord)

theorem loopCount_le_of_suffix (h : us <:+ ts) : loopCount us ≤ loopCount ts :=
  h.sublist.countP_le

theorem loopCount_cons_of_kind {word : Token} (hword : word.kind = .forWord) :
    loopCount (word :: ts) = loopCount ts + 1 :=
  List.countP_cons_of_pos (by simp [hword])

theorem loopCount_eq_zero (h : ∀ t ∈ ts, t.kind ≠ .forWord) : loopCount ts = 0 :=
  List.countP_eq_zero.2 fun t ht => by simpa using h t ht

/-- How many levels more some loops can take as what they stand for: two around each body, and one
more for an increment in the innermost. -/
def loopLevels (loops : Nat) : Nat :=
  2 * loops + min loops 1

/-- What is behind a condition in parentheses. -/
theorem Expr.Reads.suffix_head {c : Expr} {word left right : Token}
    (h : Expr.Reads endLine m (.opened .expression) ts c (right :: us) ev) :
    us <:+ word :: left :: ts :=
  ((List.suffix_cons _ _).trans h.suffix).trans
    ((List.suffix_cons _ _).trans (List.suffix_cons _ _))

/-- Statements that were read take few levels more than there were to open if there are few loops in
their tokens. -/
theorem Stmt.Reads.levels_le_add {scope : Stmt.Scope} {ss : List Stmt}
    (h : Stmt.Reads endLine m scope ts ss us ev) {n : Nat} (hn : loopCount ts ≤ n) :
    Program.levels ss ≤ scope.room m + loopLevels n := by
  -- what is behind some tokens holds no more loops than all of it
  have behind : ∀ {vs ws : List Token} {n : Nat}, loopCount ws ≤ n → vs <:+ ws →
      loopCount vs ≤ n :=
    fun hle hsuffix => Nat.le_trans (loopCount_le_of_suffix hsuffix) hle
  induction h generalizing n with
  | opened _ ih | stated _ _ ih => exact ih hn
  | print _ value | expression _ value =>
    have := value.levels_lt
    simp only [Program.levels, Stmt.levels, Scope.room]
    omega
  | block _ _ _ ih =>
    have := ih (behind hn (List.suffix_cons _ _))
    simp only [Program.levels, Stmt.levels, Scope.room] at this ⊢
    omega
  | ifThen _ _ condition _ _ _ ih | loop _ _ condition _ _ ih =>
    have hlt := condition.levels_lt
    have := ih (behind hn condition.suffix_head)
    simp only [Program.levels, Stmt.levels, Scope.room] at this ⊢
    omega
  | ifElse _ _ condition _ yes _ _ ih ih' =>
    have hlt := condition.levels_lt
    have hus := behind hn condition.suffix_head
    have hyes := ih hus
    have hno := ih' (behind hus ((List.suffix_cons _ _).trans yes.suffix))
    simp only [Program.levels, Stmt.levels, Scope.room] at hyes hno ⊢
    omega
  | forLoop hword _ initial condition _ increment _ body ih =>
    rw [loopCount_cons_of_kind hword] at hn
    obtain ⟨n, rfl⟩ := Nat.exists_eq_add_of_le' (Nat.le_trans (Nat.le_add_left 1 _) hn)
    have hus := behind (Nat.le_of_succ_le_succ hn) (initial.suffix.trans (List.suffix_cons _ _))
    have hvs := behind hus ((List.suffix_cons _ _).trans condition.suffix)
    have hbody := ih (behind hvs ((List.suffix_cons _ _).trans increment.suffix))
    simp only [Program.levels, Scope.room, Nat.max_zero, loopLevels] at hbody
    have hpos := body.room_pos
    have := Stmt.levels_ofFor_le hpos initial.levels_le condition.levels_lt increment.levels_lt
      hbody
    simp only [Program.levels, Scope.room, Nat.max_zero, loopLevels]
    omega
  | declared _ inner =>
    have := inner.levels_le
    simp only [Program.levels, Scope.room, Nat.max_zero]
    omega
  | skipped | done => exact Nat.zero_le _
  | next _ first _ ih ih' =>
    rw [Program.levels_append]
    exact Nat.max_le.2 ⟨ih hn, ih' (behind hn first.suffix)⟩

/-- Statements read from tokens without `for` took no more levels than there were to open. -/
theorem Stmt.Reads.levels_le {scope : Stmt.Scope} {ss : List Stmt}
    (h : Stmt.Reads endLine m scope ts ss us ev) (hfor : ∀ t ∈ ts, t.kind ≠ .forWord) :
    Program.levels ss ≤ scope.room m :=
  h.levels_le_add (Nat.le_of_eq (loopCount_eq_zero hfor))

end Statements

end LoxSyntax
