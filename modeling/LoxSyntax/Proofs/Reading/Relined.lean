import LoxSyntax.Proofs.Reading.Statement

/-!
# Other lines

Reading pays no attention to lines: tokens on other lines are read as the same trees on those lines,
and the same happens on the way.

* `Expr.relined`, `Stmt.relined`, `Program.relined` — trees with every line changed by a function.
* **`Expr.Reads.relined`**, **`Stmt.Reads.relined`** — what is read from tokens on other lines.
-/

namespace LoxSyntax

variable (f : UInt32 → UInt32)

/-! ## Trees -/

/-- The token on another line. -/
def Token.relined (t : Token) : Token :=
  { t with line := f t.line }

/-- The expression with the lines of its tokens changed. -/
def Expr.relined : Expr → Expr
  | .string text => .string text
  | .number value => .number value
  | .bool value => .bool value
  | .nil => .nil
  | .unary op arg => .unary (op.relined f) arg.relined
  | .binary lhs op rhs => .binary lhs.relined (op.relined f) rhs.relined
  | .logical lhs op rhs => .logical lhs.relined (op.relined f) rhs.relined
  | .conditional condition yes no => .conditional condition.relined yes.relined no.relined
  | .group inner => .group inner.relined
  | .variable name => .variable (name.relined f)
  | .assign name value => .assign (name.relined f) value.relined
  | .missing => .missing

mutual

/-- The statement with the lines of its tokens changed. -/
def Stmt.relined : Stmt → Stmt
  | .expression e => .expression (e.relined f)
  | .print e => .print (e.relined f)
  | .declare name none => .declare (name.relined f) none
  | .declare name (some initial) => .declare (name.relined f) (some (initial.relined f))
  | .block body => .block (Program.relined body)
  | .ifThen condition yes => .ifThen (condition.relined f) yes.relined
  | .ifElse condition yes no => .ifElse (condition.relined f) yes.relined no.relined
  | .loop condition body => .loop (condition.relined f) body.relined

/-- The program with the lines of its tokens changed. -/
def Program.relined : Program → Program
  | [] => []
  | s :: ss => s.relined :: Program.relined ss

end

theorem Expr.relined_join (p : Precedence) (lhs : Expr) (op : Token) (rhs : Expr) :
    (p.join lhs op rhs).relined f = p.join (lhs.relined f) (op.relined f) (rhs.relined f) := by
  cases p <;> rfl

theorem Expr.relined_ne_variable {e : Expr} (h : ∀ x, e ≠ .variable x) :
    ∀ x, e.relined f ≠ .variable x := by
  intro x hx
  cases e <;> cases hx
  exact h _ rfl

theorem Stmt.relined_ofFor (i : Option Stmt) (c n : Option Expr) (s : Stmt) :
    (Stmt.ofFor i c n s).relined f =
      .ofFor (i.map (Stmt.relined f)) (c.map (Expr.relined f)) (n.map (Expr.relined f))
        (s.relined f) := by
  cases i <;> cases c <;> cases n <;> rfl

theorem Program.relined_append (p q : Program) :
    relined f (p ++ q) = relined f p ++ relined f q := by
  induction p with
  | nil => rfl
  | cons s ss ih => simp only [List.cons_append, relined, ih]

/-! ## Events -/

/-- The place with the lines of its tokens changed. -/
def Place.relined (p : Place) : Place :=
  ⟨p.unread.map (Token.relined f), f p.endLine⟩

/-- The event at a place with the lines of its tokens changed. -/
def Event.relined : Event → Event
  | .diagnosed d => .diagnosed ⟨d.problem, d.place.relined f⟩
  | .declaring p => .declaring (p.relined f)
  | .recovering p => .recovering (p.relined f)

theorem clean_relined {ev : List Event} (h : ∀ d, .diagnosed d ∉ ev) :
    ∀ d, .diagnosed d ∉ ev.map (Event.relined f) := by
  intro d hd
  obtain ⟨event, hevent, heq⟩ := List.mem_map.1 hd
  cases event with
  | diagnosed d' => exact h d' hevent
  | _ => cases heq

@[simp] theorem nextKind_relined (ts : List Token) :
    nextKind (ts.map (Token.relined f)) = nextKind ts := by
  cases ts <;> rfl

/-! ## Expressions -/

section Reading

variable {endLine : UInt32} {m : Nat} {ts us : List Token} {ev : List Event}

/-- The same expression is read from tokens on other lines. -/
theorem Expr.Reads.relined {scope : Scope} {e : Expr}
    (h : Expr.Reads endLine m scope ts e us ev) :
    Expr.Reads (f endLine) m scope (ts.map (Token.relined f)) (e.relined f)
      (us.map (Token.relined f)) (ev.map (Event.relined f)) := by
  induction h with
  | operand hp _ ih => exact .operand hp ih
  | join _ hop _ ih ih' =>
    rw [Expr.relined_join, List.map_append]
    exact .join ih hop ih'
  | close hp _ stop ih => exact .close hp ih (by rwa [nextKind_relined])
  | unassigned _ stop ih => exact .unassigned ih (by rwa [nextKind_relined])
  | assign _ hequals _ ih ih' =>
    rw [List.map_append]
    exact .assign ih hequals ih'
  | invalidTarget _ hequals htarget _ ih ih' =>
    rw [List.map_append, List.map_append]
    exact .invalidTarget ih hequals (Expr.relined_ne_variable f htarget) ih'
  | unbranched _ stop ih => exact .unbranched ih (by rwa [nextKind_relined])
  | conditional _ hquestion _ hcolon _ ih ih' ih'' =>
    rw [List.map_append, List.map_append]
    exact .conditional ih hquestion ih' hcolon ih''
  | unary hop _ ih => exact .unary hop ih
  | bare hnext _ ih => exact .bare (by rwa [nextKind_relined]) ih
  | no ht => exact .no ht
  | yes ht => exact .yes ht
  | nil ht => exact .nil ht
  | number ht hvalue => exact .number ht hvalue
  | string ht htext => exact .string ht htext
  | group hleft _ hright ih => exact .group hleft ih hright
  | name hx => exact .name hx
  | missing hop hp _ ih => exact .missing hop hp ih
  | opened _ ih => exact .opened ih

/-! ## Statements -/

theorem Expr.ReadsEnded.relined {e : Expr} (h : Expr.ReadsEnded endLine m ts e us ev) :
    Expr.ReadsEnded (f endLine) m (ts.map (Token.relined f)) (e.relined f)
      (us.map (Token.relined f)) (ev.map (Event.relined f)) := by
  obtain ⟨semicolon, hreads, hsemicolon⟩ := h
  exact ⟨semicolon.relined f, hreads.relined f, hsemicolon⟩

theorem Expr.ReadsOptional.relined {kind : TokenKind} {o : Option Expr}
    (h : Expr.ReadsOptional endLine m kind ts o us ev) :
    Expr.ReadsOptional (f endLine) m kind (ts.map (Token.relined f)) (o.map (Expr.relined f))
      (us.map (Token.relined f)) (ev.map (Event.relined f)) := by
  cases h with
  | none stop => exact .none (by rwa [nextKind_relined])
  | some start value => exact .some (by rwa [nextKind_relined]) (value.relined f)

theorem Stmt.ReadsVariable.relined {s : Stmt} (h : Stmt.ReadsVariable endLine m ts s us ev) :
    Stmt.ReadsVariable (f endLine) m (ts.map (Token.relined f)) (s.relined f)
      (us.map (Token.relined f)) (ev.map (Event.relined f)) := by
  cases h with
  | bare hname hsemicolon => exact .bare hname hsemicolon
  | valued hname hequals value => exact .valued hname hequals (value.relined f)

theorem Stmt.ReadsInitial.relined {o : Option Stmt}
    (h : Stmt.ReadsInitial endLine m ts o us ev) :
    Stmt.ReadsInitial (f endLine) m (ts.map (Token.relined f)) (o.map (Stmt.relined f))
      (us.map (Token.relined f)) (ev.map (Event.relined f)) := by
  cases h with
  | none hsemicolon => exact .none hsemicolon
  | declared hword declaration => exact .declared hword (declaration.relined f)
  | stated hsemicolon hword value =>
    exact .stated (by rwa [nextKind_relined]) (by rwa [nextKind_relined]) (value.relined f)

/-- The same statements are read from tokens on other lines. -/
theorem Stmt.Reads.relined {scope : Stmt.Scope} {ss : List Stmt}
    (h : Stmt.Reads endLine m scope ts ss us ev) :
    Stmt.Reads (f endLine) m scope (ts.map (Token.relined f)) (Program.relined f ss)
      (us.map (Token.relined f)) (ev.map (Event.relined f)) := by
  induction h with
  | opened _ ih => exact .opened ih
  | print hword value => exact .print hword (value.relined f)
  | expression hnext value => exact .expression (by rwa [nextKind_relined]) (value.relined f)
  | block hleft _ hright ih => exact .block hleft ih hright
  | ifThen hword hleft condition hright _ stop ih =>
    rw [List.map_append]
    exact .ifThen hword hleft (condition.relined f) hright ih (by rwa [nextKind_relined])
  | ifElse hword hleft condition hright _ hother _ ih ih' =>
    rw [List.map_append, List.map_append]
    exact .ifElse hword hleft (condition.relined f) hright ih hother ih'
  | loop hword hleft condition hright _ ih =>
    rw [List.map_append]
    exact .loop hword hleft (condition.relined f) hright ih
  | forLoop hword hleft initial condition hsemicolon increment hright _ ih =>
    rw [Program.relined, Stmt.relined_ofFor, List.map_append, List.map_append, List.map_append]
    exact .forLoop hword hleft (initial.relined f) (condition.relined f) hsemicolon
      (increment.relined f) hright ih
  | declared hword inner => exact .declared hword (inner.relined f)
  | stated hnext _ ih => exact .stated (by rwa [nextKind_relined]) ih
  | skipped hsuffix hlt reported =>
    obtain ⟨d, hd, hmem⟩ := reported
    exact .skipped (hsuffix.map _) (by simpa using hlt)
      ⟨⟨d.problem, d.place.relined f⟩, hd, List.mem_map.2 ⟨_, hmem, rfl⟩⟩
  | done stop => exact .done (by rwa [nextKind_relined])
  | next start _ _ ih ih' =>
    rw [Program.relined_append, List.map_append]
    exact .next (by rwa [nextKind_relined]) ih ih'

end Reading

end LoxSyntax
