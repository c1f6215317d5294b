import LoxSyntax.Proofs.Misfit.Foresight
import LoxSyntax.Proofs.Recovery.Attempts
import LoxSyntax.Proofs.Recovery.Expression

/-!
# The forms of statements

Whatever its first token, a statement has one of four forms.  It ends with a semicolon, or it is a
block, or it ends with another statement, or with one that an `else` and a last statement may
follow.  What stands in front of that has no braces in it and nothing recovers there; and only in
the clauses of a `for` loop there are semicolons.

* `TokenKind.isHead`, `Grammar.Head` — what stands in front.
* `Grammar.Form` — the forms of statements.
* **`Grammar.exists_form`**, `Grammar.exists_variable_form` — every statement and every declaration
  of a variable has one.
-/

namespace LoxSyntax

/-- Whether a kind can stand in front of the end of a statement that a token of kind `word`
begins. -/
def TokenKind.isHead (word : TokenKind) : TokenKind → Bool
  | leftBrace | rightBrace => false
  | semicolon => word == forWord
  | _ => true

namespace TokenKind

theorem isHead_of_isInner (word : TokenKind) {k : TokenKind} (h : k.isInner) : isHead word k := by
  cases k <;> first | rfl | cases h

end TokenKind

namespace Grammar

open Rule TokenKind

variable {α : Type} {m : Nat} {word : TokenKind}

/-! ## Heads -/

/-- A rule for what stands in front of the end of a statement. -/
structure Head (m : Nat) (word : TokenKind) (head : Rule α) : Prop where
  stays : ∀ c : Cursor, nextKind c.unread = word → head.StaysAt (isHead word) c
  foresees : ∀ f : Fork, Foresees f m head head

/-- The expression in a head. -/
theorem expression_confined (m : Nat) (word : TokenKind) :
    (atRoom m .expression).Confined (isHead word) :=
  (atRoom_confined m .expression).mono fun _ => isHead_of_isInner word

namespace Head

/-- A token that stands in heads, and the rest of a head. -/
theorem skip {next : Rule α} (hword : isHead word word) (hword' : word ≠ .eof)
    (hconfined : next.Confined (isHead word)) (hforesees : ∀ f : Fork, Foresees f m next next) :
    Head m word (do Rule.skip; next) where
  stays c hc := by
    rcases hts : c.unread with _ | ⟨t, ts⟩
    · rw [hts] at hc
      exact absurd hc.symm hword'
    · rw [hts] at hc
      exact staysAt_skip_bind hts (hc ▸ hword) hconfined
  foresees f := Foresees.skip.bind fun _ => hforesees f

/-- An expression alone. -/
theorem expression (m : Nat) (word : TokenKind) : Head m word (atRoom m .expression) where
  stays c _ := expression_confined m word c
  foresees _ := atRoom_foresees m .expression

end Head

/-! ## The forms -/

/-- An `else` and a statement, if they follow. -/
def elseBranch (m : Nat) (alone : Stmt) (both : Stmt → Stmt) : Rule Stmt := do
  if ← eat .elseWord then
    return both (← statementAt m)
  else
    return alone

section ElseBranch

variable (m : Nat) (alone : Stmt) (both : Stmt → Stmt) {c : Cursor}

theorem elseBranch_of_else {t : Token} {ts : List Token} (hts : c.unread = t :: ts)
    (ht : t.kind = .elseWord) :
    elseBranch m alone both c = (both <$> statementAt m) (c.upTo ts) := by
  rw [elseBranch, eat_bind, eat?_bind_of_accepts _ hts (by simpa using ht)]
  simp

theorem elseBranch_of_ne (h : nextKind c.unread ≠ .elseWord) :
    elseBranch m alone both c = ⟨some alone, c, []⟩ := by
  rw [elseBranch, eat_bind, eat?_bind_of_not_accepts _ ((forall_kind_ne_iff (by decide)).2 h)]
  rfl

end ElseBranch

/-- The rules for what a token of kind `word` begins, where `m` levels may be opened. -/
inductive Form (m : Nat) (word : TokenKind) : Rule Stmt → Prop
  | ended {α : Type} {head : Rule α} (hhead : Head m word head) (landmark : Landmark)
      (hlandmark : landmark.kind = .semicolon) (f : α → Stmt) :
      Form m word (do
        let a ← head
        let _ ← expect landmark
        return f a)
  | block (hword : word = .leftBrace) :
      Form m word (do skip; block (atRoom m .expression) (statementAt m))
  | led {α : Type} {head : Rule α} (hhead : Head m word head) (f : α → Stmt → Stmt) :
      Form m word (do
        let a ← head
        f a <$> statementAt m)
  | branched {α : Type} {head : Rule α} (hhead : Head m word head) (f : α → Stmt → Stmt)
      (g : α → Stmt → Stmt → Stmt) :
      Form m word (do
        let a ← head
        let yes ← statementAt m
        elseBranch m (f a yes) (g a yes))

/-! ## Declarations of variables -/

/-- The value of a variable, if there is one. -/
def initialValue (expr : Rule Expr) : Rule (Option Expr) := do
  if ← eat .equal then
    let initial ← expr
    return some initial
  else
    return none

theorem variableDeclaration_eq (expr : Rule Expr) :
    variableDeclaration expr = (do
      let name ← expect .variableName
      let initial ← initialValue expr
      let _ ← expect .variableEnd
      return .declare name initial) := by
  simp only [variableDeclaration, initialValue, bind_assoc]
  refine congrArg _ (funext fun name => congrArg _ (funext fun equal => ?_))
  cases equal <;> simp

theorem variable_head (m : Nat) : Head m .varWord (do
    Rule.skip
    let name ← expect .variableName
    let initial ← initialValue (atRoom m .expression)
    return (name, initial)) :=
  .skip rfl (by decide)
    ((Confined.expect rfl).bind fun _ =>
      (Confined.ite_eat rfl ((expression_confined m _).bind fun _ => .pure _) (.pure _)).bind
        fun _ => .pure _)
    fun _ => (Foresees.expect _).bind fun _ =>
      (Foresees.ite_eat _ ((atRoom_foresees m .expression).bind fun _ => .pure _) (.pure _)).bind
        fun _ => .pure _

/-! ## Statements by their first token -/

theorem print_head (m : Nat) :
    Head m .printWord (do Rule.skip; atRoom m .expression) :=
  .skip rfl (by decide) (expression_confined m _) fun _ => atRoom_foresees m .expression

/-- A condition between landmarks. -/
def condition (expr : Rule Expr) (start stop : Landmark) : Rule Expr := do
  let _ ← expect start
  let e ← expr
  let _ ← expect stop
  return e

theorem condition_head (m : Nat) (start stop : Landmark) (hstart : isHead word start.kind)
    (hstop : isHead word stop.kind) (hword : isHead word word) (hword' : word ≠ .eof) :
    Head m word (do Rule.skip; condition (atRoom m .expression) start stop) :=
  .skip hword hword'
    ((Confined.expect hstart).bind fun _ => (expression_confined m _).bind fun _ =>
      (Confined.expect hstop).bind fun _ => .pure _)
    fun _ => (Foresees.expect _).bind fun _ => (atRoom_foresees m .expression).bind fun _ =>
      (Foresees.expect _).bind fun _ => .pure _

/-- The clauses of a `for` loop. -/
def clauses (expr : Rule Expr) : Rule (Option Stmt × Option Expr × Option Expr) := do
  let _ ← expect .forStart
  let initial ← forInitial expr
  let condition ← unlessNext expr .semicolon
  let _ ← expect .forConditionEnd
  let increment ← unlessNext expr .rightParen
  let _ ← expect .forEnd
  return (initial, condition, increment)

theorem unlessNext_confined (m : Nat) (kind : TokenKind) :
    (unlessNext (atRoom m .expression) kind).Confined (isHead word) :=
  Confined.place.bind fun _ => by
    split
    · exact .pure _
    · exact (expression_confined m word).bind fun _ => .pure _

theorem forInitial_confined (m : Nat) :
    (forInitial (atRoom m .expression)).Confined (isHead .forWord) := by
  have hexpr := expression_confined m .forWord
  refine .ite_eat rfl (.pure _)
    (.ite_eat rfl (.bind ?_ fun _ => .pure _) (.bind ?_ fun _ => .pure _))
  · exact (Confined.expect rfl).bind fun _ => .ite_eat rfl
      (hexpr.bind fun _ => (Confined.expect rfl).bind fun _ => .pure _)
      ((Confined.expect rfl).bind fun _ => .pure _)
  · exact hexpr.bind fun _ => (Confined.expect rfl).bind fun _ => .pure _

theorem for_head (m : Nat) : Head m .forWord (do Rule.skip; clauses (atRoom m .expression)) :=
  .skip rfl (by decide)
    ((Confined.expect rfl).bind fun _ => (forInitial_confined m).bind fun _ =>
      (unlessNext_confined m _).bind fun _ => (Confined.expect rfl).bind fun _ =>
        (unlessNext_confined m _).bind fun _ => (Confined.expect rfl).bind fun _ => .pure _)
    fun _ => (Foresees.expect _).bind fun _ =>
      (forInitial_foresees (atRoom_foresees m .expression)).bind fun _ =>
        (unlessNext_foresees (atRoom_foresees m .expression) _).bind fun _ =>
          (Foresees.expect _).bind fun _ =>
            (unlessNext_foresees (atRoom_foresees m .expression) _).bind fun _ =>
              (Foresees.expect _).bind fun _ => .pure _

/-- Every statement has one of the forms, told by its first token. -/
theorem exists_form (m : Nat) (word : TokenKind) :
    ∃ rule, Form m word rule ∧ ∀ c : Cursor, nextKind c.unread = word →
      statementBody (atRoom m .expression) (statementAt m) c = rule c := by
  simp only [statementBody, place_bind, Cursor.kind_eq_nextKind]
  refine ⟨_, ?_, fun c hc => by rw [hc]⟩
  split
  · simpa [terminated] using
      Form.ended (print_head m) .valueEnd rfl .print
  · exact .block rfl
  · simpa [conditionalStatement, condition, elseBranch] using
      Form.branched (condition_head m .ifStart .ifEnd rfl rfl rfl (by decide)) .ifThen .ifElse
  · simpa [whileLoop, condition] using
      Form.led (condition_head m .whileStart .whileEnd rfl rfl rfl (by decide)) .loop
  · simpa [forLoop, clauses] using Form.led (for_head m) fun a => .ofFor a.1 a.2.1 a.2.2
  · simpa [terminated] using
      Form.ended (.expression m _) .valueEnd rfl .expression

theorem statementBody_of_leftBrace (m : Nat) {c : Cursor} {left : Token} {ts : List Token}
    (hts : c.unread = left :: ts) (hleft : left.kind = .leftBrace) :
    statementBody (atRoom m .expression) (statementAt m) c =
      block (atRoom m .expression) (statementAt m) (c.upTo ts) := by
  rw [statementBody, place_bind, c.kind_eq_nextKind, hts, nextKind_cons, hleft]
  show (do skip; block (atRoom m .expression) (statementAt m) : Rule Stmt) c = _
  rw [skip_bind, hts, List.tail_cons]

/-- A declaration of a variable has the form of a statement. -/
theorem exists_variable_form (m : Nat) :
    ∃ rule, Form m .varWord rule ∧ ∀ c : Cursor, nextKind c.unread = .varWord →
      declared (atRoom m .expression) (statementAt m) c = rule c := by
  refine ⟨_, .ended (variable_head m) .variableEnd rfl fun a => .declare a.1 a.2, fun c hword => ?_⟩
  rcases hts : c.unread with _ | ⟨t, ts⟩
  · rw [hts] at hword
    cases hword
  · rw [hts] at hword
    rw [declared, eat_bind, eat?_bind_of_accepts _ hts (by simpa using hword), bind_assoc,
      skip_bind, hts]
    simp [variableDeclaration_eq]

/-- All other declarations are statements. -/
theorem declared_of_ne (expr : Rule Expr) (stmt : Rule Stmt) {c : Cursor}
    (hword : nextKind c.unread ≠ .varWord) : declared expr stmt c = stmt c := by
  rw [declared, eat_bind, eat?_bind_of_not_accepts _ ((forall_kind_ne_iff (by decide)).2 hword)]
  rfl

end Grammar

end LoxSyntax
