import LoxSyntax.Parsing.Rule

/-!
# Runs that succeed

A run of a rule that succeeds is described by what it reads, the cursor it leaves and the events on
the way.  What a rule made of smaller ones can read is known from what the smaller ones can read, in
both directions: each statement here is an equivalence, so that the runs of a rule of the grammar
are taken apart and put together by the same rewriting.

* `Rule.Gives` — a run that succeeds.
* **`Rule.gives_bind`** — a sequence succeeds when its first rule does and the second one does from
  where the first one stopped.
* `Rule.gives_eat_bind`, `Rule.gives_expect_bind`, `Rule.gives_nested`, `Rule.gives_recovered` —
  tokens, levels of nesting and recovery.
* `Rule.Follows` — a rule whose successful runs are all described by a relation.
-/

namespace LoxSyntax

/-! ## Positions -/

/-- The kind of the first of some tokens, or of the end of the text. -/
def nextKind : List Token → TokenKind
  | [] => .eof
  | t :: _ => t.kind

@[simp] theorem nextKind_nil : nextKind [] = .eof := rfl

@[simp] theorem nextKind_cons (t : Token) (ts : List Token) : nextKind (t :: ts) = t.kind := rfl

theorem Place.kind_eq_nextKind (p : Place) : p.kind = nextKind p.unread := by
  rcases p with ⟨_ | _, _⟩ <;> rfl

/-- The same cursor with other tokens unread. -/
def Cursor.upTo (c : Cursor) (unread : List Token) : Cursor :=
  { c with unread }

/-- The same cursor one level of nesting deeper. -/
def Cursor.deeper (c : Cursor) : Cursor :=
  { c with depth := c.depth + 1 }

namespace Cursor

variable (c : Cursor) (ts us : List Token)

@[simp] theorem upTo_unread : (c.upTo ts).unread = ts := rfl

@[simp] theorem upTo_endLine : (c.upTo ts).endLine = c.endLine := rfl

@[simp] theorem upTo_depth : (c.upTo ts).depth = c.depth := rfl

@[simp] theorem upTo_ceiling : (c.upTo ts).ceiling = c.ceiling := rfl

@[simp] theorem upTo_room : (c.upTo ts).room = c.room := rfl

@[simp] theorem upTo_self : c.upTo c.unread = c := rfl

@[simp] theorem upTo_upTo : (c.upTo ts).upTo us = c.upTo us := rfl

@[simp] theorem deeper_unread : c.deeper.unread = c.unread := rfl

@[simp] theorem deeper_endLine : c.deeper.endLine = c.endLine := rfl

theorem toPlace_eq : c.toPlace = ⟨c.unread, c.endLine⟩ := rfl

theorem kind_eq_nextKind : c.kind = nextKind c.unread :=
  c.toPlace.kind_eq_nextKind

theorem deeper_room {m : Nat} (h : c.room = m + 1) : c.deeper.room = m := by
  simp only [room, deeper] at h ⊢
  omega

theorem depth_lt_ceiling {m : Nat} (h : c.room = m + 1) : c.depth < c.ceiling := by
  unfold room at h
  omega

end Cursor

namespace Rule

variable {α β : Type} {c c' : Cursor} {a : α} {b : β} {events : List Event}

/-! ## Sequence -/

/-- Sequences of rules may be grouped either way, and reading nothing adds nothing. -/
instance : LawfulMonad Rule := LawfulMonad.mk' Rule
  (fun rule => by
    funext c
    simp only [Functor.map, Rule.map, Option.map_id, id_eq])
  (fun a next => by
    funext c
    simp only [Bind.bind, Rule.bind, Pure.pure, Rule.pure, List.nil_append])
  (fun rule next after => by
    funext c
    rcases hrule : rule c with ⟨_ | a, c₁, ev₁⟩
    · simp only [Bind.bind, Rule.bind, hrule]
    · rcases hnext : next a c₁ with ⟨_ | b, c₂, ev₂⟩
      · simp only [Bind.bind, Rule.bind, hrule, hnext]
      · simp only [Bind.bind, Rule.bind, hrule, hnext, List.append_assoc])
  (fun _ _ => rfl) (fun _ _ => rfl) (fun _ _ => rfl)
  (fun f rule => by
    funext c
    rcases hrule : rule c with ⟨_ | a, c₁, ev₁⟩
    · simp only [Bind.bind, Rule.bind, Functor.map, Rule.map, hrule, Option.map_none]
    · simp only [Bind.bind, Rule.bind, Pure.pure, Rule.pure, Functor.map, Rule.map, hrule,
        Option.map_some, List.append_nil])

/-- From `c` the rule reads `a` and leaves `c'`, with `events` on the way. -/
def Gives (rule : Rule α) (c : Cursor) (a : α) (c' : Cursor) (events : List Event) : Prop :=
  rule c = ⟨some a, c', events⟩

@[simp] theorem gives_pure {x : α} :
    Gives (pure x) c a c' events ↔ a = x ∧ c' = c ∧ events = [] := by
  simp only [Gives, Pure.pure, Rule.pure, Reply.mk.injEq, Option.some.injEq]
  exact ⟨fun ⟨h, h', h''⟩ => ⟨h.symm, h'.symm, h''.symm⟩,
    fun ⟨h, h', h''⟩ => ⟨h.symm, h'.symm, h''.symm⟩⟩

/-- A sequence succeeds when its first rule does and the second one does from where the first one
stopped. -/
@[simp] theorem gives_bind {rule : Rule α} {next : α → Rule β} :
    Gives (rule >>= next) c b c' events ↔
      ∃ a c₁ ev₁ ev₂, rule.Gives c a c₁ ev₁ ∧ (next a).Gives c₁ b c' ev₂ ∧
        events = ev₁ ++ ev₂ := by
  constructor
  · intro h
    rcases hrule : rule c with ⟨_ | a, c₁, ev₁⟩
    · rw [Gives, bind_of_none hrule] at h
      simp at h
    · rw [Gives, bind_of_some hrule] at h
      simp only [Reply.mk.injEq] at h
      obtain ⟨hresult, hcursor, hevents⟩ := h
      refine ⟨a, c₁, ev₁, (next a c₁).events, hrule, ?_, hevents.symm⟩
      rw [Gives, ← hresult, ← hcursor]
  · rintro ⟨a, c₁, ev₁, ev₂, hrule, hnext, rfl⟩
    rw [Gives, bind_of_some hrule, hnext]

@[simp] theorem gives_map {f : α → β} {rule : Rule α} :
    Gives (f <$> rule) c b c' events ↔ ∃ a, rule.Gives c a c' events ∧ b = f a := by
  simp only [Gives, Functor.map, Rule.map]
  rcases rule c with ⟨_ | a, c₁, ev₁⟩
  · simp
  · simp only [Option.map_some, Reply.mk.injEq, Option.some.injEq]
    constructor
    · rintro ⟨rfl, rfl, rfl⟩
      exact ⟨a, ⟨rfl, rfl, rfl⟩, rfl⟩
    · rintro ⟨a', ⟨rfl, rfl, rfl⟩, rfl⟩
      exact ⟨rfl, rfl, rfl⟩

/-- A rule whose value only goes into something larger. -/
theorem gives_bind_pure {f : α → β} {rule : Rule α} :
    (rule >>= fun a => pure (f a)).Gives c b c' events ↔
      ∃ a, rule.Gives c a c' events ∧ b = f a := by
  rw [bind_pure_comp]
  exact gives_map

/-! ## Problems -/

@[simp] theorem gives_note {event : Event} {u : Unit} :
    (note event).Gives c u c' events ↔ c' = c ∧ events = [event] := by
  simp only [Gives, note, Reply.mk.injEq, true_and]
  exact ⟨fun ⟨h, h'⟩ => ⟨h.symm, h'.symm⟩, fun ⟨h, h'⟩ => ⟨h.symm, h'.symm⟩⟩

@[simp] theorem gives_report {problem : Problem} {p : Place} {u : Unit} :
    (report problem p).Gives c u c' events ↔
      c' = c ∧ events = [.diagnosed ⟨problem, p⟩] :=
  gives_note

@[simp] theorem not_gives_failAt {problem : Problem} {p : Place} :
    ¬ (failAt problem p : Rule α).Gives c a c' events := by
  simp [Gives, failAt]

@[simp] theorem not_gives_fail {problem : Problem} :
    ¬ (fail problem : Rule α).Gives c a c' events :=
  not_gives_failAt

theorem gives_report_bind {problem : Problem} {p : Place} {next : Unit → Rule β} :
    (report problem p >>= next).Gives c b c' events ↔
      ∃ ev, (next ()).Gives c b c' ev ∧ events = .diagnosed ⟨problem, p⟩ :: ev := by
  simp only [gives_bind, gives_report]
  constructor
  · rintro ⟨_, c₁, ev₁, ev₂, ⟨rfl, rfl⟩, h, rfl⟩
    exact ⟨ev₂, h, rfl⟩
  · rintro ⟨ev, h, rfl⟩
    exact ⟨(), c, _, ev, ⟨rfl, rfl⟩, h, rfl⟩

/-! ## Tokens

Each of these is stated for what comes behind the token. -/

theorem gives_place_bind {next : Place → Rule β} :
    (place >>= next).Gives c b c' events ↔ (next c.toPlace).Gives c b c' events := by
  rw [Gives, @bind_of_some _ _ place _ _ _ _ _ rfl]
  rfl

theorem gives_next?_bind {next : Option Token → Rule β} :
    (next? >>= next).Gives c b c' events ↔ (next c.unread.head?).Gives c b c' events := by
  rw [Gives, @bind_of_some _ _ next? _ _ _ _ _ rfl]
  rfl

theorem gives_skip_bind {next : Unit → Rule β} :
    (skip >>= next).Gives c b c' events ↔
      (next ()).Gives (c.upTo c.unread.tail) b c' events := by
  rw [Gives, @bind_of_some _ _ skip _ _ _ _ _ rfl]
  rfl

theorem eat?_of_accepts {accepts : TokenKind → Bool} {t : Token} {ts : List Token}
    (hts : c.unread = t :: ts) (ht : accepts t.kind) :
    eat? accepts c = ⟨some (some t), c.upTo ts, []⟩ := by
  simp only [eat?, hts, ht, ↓reduceIte]
  rfl

theorem eat?_of_not_accepts {accepts : TokenKind → Bool}
    (h : ∀ t ts, c.unread = t :: ts → accepts t.kind = false) :
    eat? accepts c = ⟨some none, c, []⟩ := by
  rcases hts : c.unread with _ | ⟨t, ts⟩
  · simp only [eat?, hts]
  · simp only [eat?, hts, h t ts hts, Bool.false_eq_true, ↓reduceIte]

theorem gives_eat?_bind {accepts : TokenKind → Bool} {next : Option Token → Rule β} :
    (eat? accepts >>= next).Gives c b c' events ↔
      (∃ t ts, c.unread = t :: ts ∧ accepts t.kind ∧
        (next (some t)).Gives (c.upTo ts) b c' events) ∨
      ((∀ t ts, c.unread = t :: ts → accepts t.kind = false) ∧
        (next none).Gives c b c' events) := by
  by_cases h : ∃ t ts, c.unread = t :: ts ∧ accepts t.kind
  · obtain ⟨t, ts, hts, ht⟩ := h
    rw [Gives, bind_of_some (eat?_of_accepts hts ht)]
    constructor
    · intro hnext
      exact .inl ⟨t, ts, hts, ht, hnext⟩
    · rintro (⟨t', ts', hts', -, hnext⟩ | ⟨hnone, -⟩)
      · cases hts.symm.trans hts'
        exact hnext
      · simp [hnone t ts hts] at ht
  · have hnone : ∀ t ts, c.unread = t :: ts → accepts t.kind = false :=
      fun t ts hts => Bool.eq_false_iff.2 fun ht => h ⟨t, ts, hts, ht⟩
    rw [Gives, bind_of_some (eat?_of_not_accepts hnone)]
    constructor
    · intro hnext
      exact .inr ⟨hnone, hnext⟩
    · rintro (⟨t, ts, hts, ht, -⟩ | ⟨-, hnext⟩)
      · exact absurd ⟨t, ts, hts, ht⟩ h
      · exact hnext

/-- Nothing but the end of the text has the kind of the end. -/
theorem forall_kind_ne_iff {kind : TokenKind} (hkind : kind ≠ .eof) {us : List Token} :
    (∀ t ts, us = t :: ts → (t.kind == kind) = false) ↔ nextKind us ≠ kind := by
  rcases us with _ | ⟨u, us⟩
  · simp [hkind.symm]
  · simp

theorem gives_eat_bind {kind : TokenKind} (hkind : kind ≠ .eof) {next : Bool → Rule β} :
    (eat kind >>= next).Gives c b c' events ↔
      (∃ t ts, c.unread = t :: ts ∧ t.kind = kind ∧
        (next true).Gives (c.upTo ts) b c' events) ∨
      (nextKind c.unread ≠ kind ∧ (next false).Gives c b c' events) := by
  have heat : eat kind >>= next = eat? (· == kind) >>= fun t => next t.isSome := by
    simp only [eat, bind_assoc, pure_bind]
  rw [heat, gives_eat?_bind, forall_kind_ne_iff hkind]
  simp

/-- What a landmark demands is read, or the run does not succeed. -/
theorem gives_expect_bind {landmark : Landmark} {next : Token → Rule β} :
    (expect landmark >>= next).Gives c b c' events ↔
      ∃ t ts, c.unread = t :: ts ∧ t.kind = landmark.kind ∧
        (next t).Gives (c.upTo ts) b c' events := by
  rw [expect, bind_assoc, gives_eat?_bind]
  constructor
  · rintro (⟨t, ts, hts, ht, hnext⟩ | ⟨-, hfail⟩)
    · exact ⟨t, ts, hts, by simpa using ht, by simpa using hnext⟩
    · obtain ⟨a, c₁, ev₁, ev₂, h, -⟩ := gives_bind.1 hfail
      exact absurd h not_gives_fail
  · rintro ⟨t, ts, hts, ht, hnext⟩
    exact .inl ⟨t, ts, hts, by simpa using ht, by simpa using hnext⟩

/-! ## Nesting -/

/-- Below the ceiling a rule is run one level deeper, and the level is closed behind it. -/
theorem gives_nested {rule : Rule α} {m : Nat} (hroom : c.room = m + 1) :
    (nested rule).Gives c a c' events ↔
      ∃ c₁, rule.Gives c.deeper a c₁ events ∧ c' = { c₁ with depth := c₁.depth - 1 } := by
  have hlt := c.depth_lt_ceiling hroom
  simp only [Gives, nested, hlt, ↓reduceIte, Cursor.deeper]
  rcases rule { c with depth := c.depth + 1 } with ⟨result, c₁, ev⟩
  constructor
  · rintro ⟨⟩
    exact ⟨c₁, rfl, rfl⟩
  · rintro ⟨_, ⟨⟩, rfl⟩
    rfl

/-- A rule that recovers always succeeds: with what the rule reads, or behind its failure. -/
theorem gives_recovered {rule : Rule α} {o : Option α} :
    (recovered rule).Gives c o c' events ↔
      (∃ a, o = some a ∧ rule.Gives c a c' events) ∨
      (o = none ∧ ∃ c₁ ev₁, rule c = ⟨none, c₁, ev₁⟩ ∧
        c' = { c₁ with toPlace := c₁.toPlace.resume } ∧
        events = ev₁ ++ [.recovering c₁.toPlace]) := by
  rw [Gives, recovered]
  rcases hrule : rule c with ⟨_ | a, c₁, ev₁⟩
  · constructor
    · rintro ⟨⟩
      exact .inr ⟨rfl, c₁, ev₁, rfl, rfl, rfl⟩
    · rintro (⟨a, -, hgives⟩ | ⟨rfl, _, _, ⟨⟩, rfl, rfl⟩)
      · rw [Gives, hrule] at hgives
        cases hgives
      · rfl
  · constructor
    · rintro ⟨⟩
      exact .inl ⟨a, rfl, hrule⟩
    · rintro (⟨a', rfl, hgives⟩ | ⟨-, _, _, ⟨⟩, -⟩)
      rw [Gives, hrule] at hgives
      cases hgives
      rfl

/-! ## Rules and what they read -/

/-- With `m` levels to open, the rule succeeds exactly where `Reads` says, and leaves the levels as
they were. -/
def Follows (rule : Rule α) (m : Nat)
    (Reads : UInt32 → List Token → α → List Token → List Event → Prop) : Prop :=
  ∀ ⦃c a c' events⦄, c.room = m →
    (rule.Gives c a c' events ↔
      ∃ us, c' = c.upTo us ∧ Reads c.endLine c.unread a us events)

namespace Follows

variable {rule : Rule α} {m : Nat} {us : List Token}
  {Reads : UInt32 → List Token → α → List Token → List Event → Prop}

theorem reads (hrule : rule.Follows m Reads) (h : rule.Gives c a c' events)
    (hroom : c.room = m) :
    ∃ us, c' = c.upTo us ∧ Reads c.endLine c.unread a us events :=
  (hrule hroom).1 h

theorem gives (hrule : rule.Follows m Reads) (h : Reads c.endLine c.unread a us events)
    (hroom : c.room = m) :
    rule.Gives c a (c.upTo us) events :=
  (hrule hroom).2 ⟨us, rfl, h⟩

/-- What comes behind a rule goes on where that stops. -/
theorem gives_bind (hrule : rule.Follows m Reads) (hroom : c.room = m) {next : α → Rule β} :
    (rule >>= next).Gives c b c' events ↔
      ∃ a us ev₁ ev₂, Reads c.endLine c.unread a us ev₁ ∧
        (next a).Gives (c.upTo us) b c' ev₂ ∧ events = ev₁ ++ ev₂ := by
  rw [Rule.gives_bind]
  constructor
  · rintro ⟨a, c₁, ev₁, ev₂, ha, hnext, rfl⟩
    obtain ⟨us, rfl, hreads⟩ := hrule.reads ha hroom
    exact ⟨a, us, ev₁, ev₂, hreads, hnext, rfl⟩
  · rintro ⟨a, us, ev₁, ev₂, hreads, hnext, rfl⟩
    exact ⟨a, c.upTo us, ev₁, ev₂, hrule.gives hreads hroom, hnext, rfl⟩

theorem gives_bind_pure (hrule : rule.Follows m Reads) (hroom : c.room = m) {f : α → β} :
    (rule >>= fun a => pure (f a)).Gives c b c' events ↔
      ∃ a us, Reads c.endLine c.unread a us events ∧ b = f a ∧ c' = c.upTo us := by
  rw [Rule.gives_bind_pure]
  constructor
  · rintro ⟨a, ha, rfl⟩
    obtain ⟨us, rfl, hreads⟩ := hrule.reads ha hroom
    exact ⟨a, us, hreads, rfl, rfl⟩
  · rintro ⟨a, us, hreads, rfl, rfl⟩
    exact ⟨a, hrule.gives hreads hroom, rfl⟩

end Follows

end Rule

end LoxSyntax
