import LoxSyntax.Proofs.Reading.Relined

/-!
# Rules on other lines

No rule looks at a line.  So when every line of the unread tokens is changed by a function, a rule
replies the same with these lines changed: in what it read, in the cursor that it leaves, and in
the places of what happened on the way.

* `Cursor.relined`, `Reply.relined` — cursors and replies with their lines changed.
* `Rule.Relines` — two rules that reply the same on different lines.
* `Rule.Relines.bind`, `Rule.Relines.nested`, `Rule.Relines.recovered` — how rules are put together.
* `Place.resume_relined` — recovery stops at the same token.
-/

namespace LoxSyntax

variable {α β : Type} (f : UInt32 → UInt32)

/-! ## Cursors and replies -/

/-- The cursor with the lines of its tokens changed. -/
def Cursor.relined (c : Cursor) : Cursor :=
  { c with toPlace := c.toPlace.relined f }

/-- The reply with the lines of its tokens changed; `g` changes them in the result. -/
def Reply.relined (g : α → α) (r : Reply α) : Reply α :=
  ⟨r.result.map g, r.cursor.relined f, r.events.map (Event.relined f)⟩

@[simp] theorem Place.relined_unread (p : Place) :
    (p.relined f).unread = p.unread.map (Token.relined f) := rfl

@[simp] theorem Cursor.relined_unread (c : Cursor) :
    (c.relined f).unread = c.unread.map (Token.relined f) := rfl

@[simp] theorem Token.relined_kind (t : Token) : (t.relined f).kind = t.kind := rfl

@[simp] theorem Token.relined_literal (t : Token) : (t.relined f).literal = t.literal := rfl

theorem Place.relined_kind (p : Place) : (p.relined f).kind = p.kind := by
  rw [kind_eq_nextKind, kind_eq_nextKind, relined_unread, nextKind_relined]

/-! ## Recovery -/

theorem Place.skipToStatement_relined (skipped : Token) (ts : List Token) :
    skipToStatement (skipped.relined f) (ts.map (Token.relined f)) =
      (skipToStatement skipped ts).map (Token.relined f) := by
  induction ts generalizing skipped with
  | nil => rfl
  | cons t ts ih =>
    simp only [List.map_cons, skipToStatement, Token.relined_kind, ih]
    split <;> rfl

/-- Recovery pays attention to kinds only. -/
theorem Place.resume_relined (p : Place) : (p.relined f).resume = p.resume.relined f := by
  rcases p with ⟨_ | ⟨t, ts⟩, endLine⟩
  · rfl
  · simp only [resume, relined, List.map_cons, skipToStatement_relined]

namespace Rule

variable {g : α → α} {g' : β → β} {rule rule' : Rule α}

/-- On other lines the second rule does what the first one does; `g` changes the lines of the
result. -/
def Relines (g : α → α) (rule rule' : Rule α) : Prop :=
  ∀ c : Cursor, rule' (c.relined f) = (rule c).relined f g

variable {f}

namespace Relines

/-! ## Steps -/

theorem pure (a : α) : Relines f g (Pure.pure a) (Pure.pure (g a)) :=
  fun _ => rfl

theorem place : Relines f (Place.relined f) place place :=
  fun _ => rfl

theorem next? : Relines f (Option.map (Token.relined f)) next? next? := by
  intro c
  simp [Rule.next?, Reply.relined]

theorem skip : Relines f id skip skip := by
  intro c
  simp [Rule.skip, Reply.relined, Cursor.relined, Place.relined]

theorem note (event : Event) : Relines f id (note event) (note (event.relined f)) :=
  fun _ => rfl

theorem report (problem : Problem) (p : Place) :
    Relines f id (report problem p) (report problem (p.relined f)) :=
  note (.diagnosed ⟨problem, p⟩)

theorem failAt (problem : Problem) (p : Place) :
    Relines f g (failAt problem p) (failAt problem (p.relined f)) :=
  fun _ => rfl

theorem fail (problem : Problem) : Relines f g (fail problem) (fail problem) :=
  fun c => failAt problem c.toPlace c

theorem eat? (accepts : TokenKind → Bool) :
    Relines f (Option.map (Token.relined f)) (eat? accepts) (eat? accepts) := by
  intro c
  rcases hts : c.unread with _ | ⟨t, ts⟩
  · simp [Rule.eat?, Reply.relined, hts]
  · by_cases ht : accepts t.kind
    · simp [Rule.eat?, Reply.relined, hts, ht, Cursor.relined, Place.relined]
    · simp [Rule.eat?, Reply.relined, hts, ht]

/-! ## Rules made of others -/

theorem bind {next next' : α → Rule β} (h : Relines f g rule rule')
    (hnext : ∀ a, Relines f g' (next a) (next' (g a))) :
    Relines f g' (rule >>= next) (rule' >>= next') := by
  intro c
  rw [bind_reply, bind_reply, h c]
  rcases hresult : (rule c).result with _ | a
  · simp [Reply.relined, hresult]
  · simp [Reply.relined, hresult, hnext a (rule c).cursor]

theorem map {k k' : α → β} (h : Relines f g rule rule') (hk : ∀ a, g' (k a) = k' (g a)) :
    Relines f g' (k <$> rule) (k' <$> rule') := by
  rw [map_eq_pure_bind, map_eq_pure_bind]
  refine h.bind fun a => ?_
  rw [← hk a]
  exact .pure (k a)

theorem eat (kind : TokenKind) : Relines f id (eat kind) (eat kind) :=
  (eat? _).bind fun
    | some _ => .pure true
    | none => .pure false

theorem expect (landmark : Landmark) :
    Relines f (Token.relined f) (expect landmark) (expect landmark) :=
  (eat? _).bind fun
    | some t => .pure t
    | none => .fail _

/-- A choice by a token. -/
theorem ite_eat (kind : TokenKind) {yes yes' no no' : Rule α} (hyes : Relines f g yes yes')
    (hno : Relines f g no no') :
    Relines f g (do if ← Rule.eat kind then yes else no)
      (do if ← Rule.eat kind then yes' else no') :=
  (eat kind).bind fun
    | true => hyes
    | false => hno

theorem nested (h : Relines f g rule rule') : Relines f g (nested rule) (nested rule') := by
  intro c
  by_cases hlt : c.depth < c.ceiling
  · rw [nested_of_lt rule hlt, nested_of_lt rule' (c := c.relined f) hlt]
    exact congrArg Reply.shallower (h c.deeper)
  · rw [nested_of_not_lt rule hlt, nested_of_not_lt rule' (c := c.relined f) hlt]
    exact fail _ c

theorem recovered (h : Relines f g rule rule') :
    Relines f (Option.map g) (recovered rule) (recovered rule') := by
  intro c
  rw [recovered_reply, recovered_reply, h c]
  rcases hresult : (rule c).result with _ | a
  · have hresume := (rule c).cursor.toPlace.resume_relined f
    simp [Reply.relined, Cursor.relined, hresult, hresume, Event.relined]
  · simp [Reply.relined, hresult]

theorem chain (p : Precedence) {operand : Rule Expr}
    (h : Relines f (Expr.relined f) operand operand) (rounds : List Token) :
    ∀ lhs, Relines f (Expr.relined f) (chain p operand rounds lhs)
      (chain p operand (rounds.map (Token.relined f)) (lhs.relined f)) := by
  induction rounds with
  | nil => exact fun lhs => .pure lhs
  | cons _ rounds ih =>
    exact fun lhs => (eat? _).bind fun
      | none => .pure lhs
      | some op => h.bind fun rhs => Expr.relined_join f p lhs op rhs ▸ ih (p.join lhs op rhs)

theorem leftAssociative (p : Precedence) {operand : Rule Expr}
    (h : Relines f (Expr.relined f) operand operand) :
    Relines f (Expr.relined f) (leftAssociative p operand) (leftAssociative p operand) :=
  h.bind fun lhs => place.bind fun start => .chain p h start.unread lhs

end Relines

end Rule

end LoxSyntax
