import LoxSyntax.Proofs.Rule.Success

/-!
# What comes behind a token

A sequence that begins with one step replies what the rest of it replies from behind that step.
Which step it was is told by the next token alone.

* `Rule.place_bind`, `Rule.next?_bind`, `Rule.note_bind`, `Rule.report_bind` — steps that read
  nothing.
* `Rule.skip_bind`, `Rule.eat?_bind_of_accepts`, `Rule.expect_bind_of_kind` — steps that read a
  token.
* `Rule.expect_bind_of_ne` — the end of a sequence where something else stands at a landmark.
-/

namespace LoxSyntax

/-- No landmark demands the end of the text. -/
theorem Landmark.kind_ne_eof (landmark : Landmark) : landmark.kind ≠ .eof := by
  cases landmark <;> decide

namespace Rule

variable {α β : Type} {c : Cursor}

/-! ## Steps that read nothing -/

theorem place_bind (next : Place → Rule β) (c : Cursor) :
    (place >>= next) c = next c.toPlace c :=
  @bind_of_some _ _ place _ _ _ _ _ rfl

theorem next?_bind (next : Option Token → Rule β) (c : Cursor) :
    (next? >>= next) c = next c.unread.head? c :=
  @bind_of_some _ _ next? _ _ _ _ _ rfl

theorem note_bind (event : Event) (next : Unit → Rule β) (c : Cursor) :
    (note event >>= next) c =
      { next () c with events := event :: (next () c).events } :=
  @bind_of_some _ _ (note event) _ _ _ _ _ rfl

theorem report_bind (problem : Problem) (p : Place) (next : Unit → Rule β) (c : Cursor) :
    (report problem p >>= next) c =
      { next () c with events := .diagnosed ⟨problem, p⟩ :: (next () c).events } :=
  note_bind _ next c

/-! ## Steps that read a token -/

theorem skip_bind (next : Unit → Rule β) (c : Cursor) :
    (skip >>= next) c = next () (c.upTo c.unread.tail) :=
  @bind_of_some _ _ skip _ _ _ _ _ rfl

theorem eat?_bind_of_accepts {accepts : TokenKind → Bool} {t : Token} {ts : List Token}
    (next : Option Token → Rule β) (hts : c.unread = t :: ts) (ht : accepts t.kind) :
    (eat? accepts >>= next) c = next (some t) (c.upTo ts) :=
  bind_of_some (eat?_of_accepts hts ht)

theorem eat?_bind_of_not_accepts {accepts : TokenKind → Bool} (next : Option Token → Rule β)
    (h : ∀ t ts, c.unread = t :: ts → accepts t.kind = false) :
    (eat? accepts >>= next) c = next none c :=
  bind_of_some (eat?_of_not_accepts h)

theorem eat_bind (kind : TokenKind) (next : Bool → Rule β) :
    eat kind >>= next = eat? (· == kind) >>= fun t => next t.isSome := by
  simp only [eat, bind_assoc, pure_bind]

theorem expect_bind_of_kind {landmark : Landmark} {t : Token} {ts : List Token}
    (next : Token → Rule β) (hts : c.unread = t :: ts) (ht : t.kind = landmark.kind) :
    (expect landmark >>= next) c = next t (c.upTo ts) := by
  rw [expect, bind_assoc, eat?_bind_of_accepts _ hts (by simp [ht]), pure_bind]

/-- Where something else stands at a landmark, that is reported and nothing else is read. -/
theorem expect_bind_of_ne {landmark : Landmark} (next : Token → Rule β)
    (h : nextKind c.unread ≠ landmark.kind) :
    (expect landmark >>= next) c = ⟨none, c, [.diagnosed ⟨.expected landmark, c.toPlace⟩]⟩ := by
  rw [expect, bind_assoc,
    eat?_bind_of_not_accepts _ ((forall_kind_ne_iff landmark.kind_ne_eof).2 h)]
  rfl

end Rule

end LoxSyntax
