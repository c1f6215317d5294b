import LoxSyntax.Proofs.Reading.Statement
import LoxSyntax.Proofs.Rule.Reply

/-!
# Where a run breaks

A run breaks at the first token that does not fit: nothing that is diagnosed before it ends a rule,
and it is blamed by a problem that does.  A sequence breaks where its first rule does, or where the
rest of it does behind what the first rule has read.

* `Problem.isMisfit` — the problems that blame a token for standing where it does not fit.
* `Rule.Breaks` — the first of them in a run.
* **`Rule.Breaks.bind`** — in which part a sequence breaks.
* `Rule.Breaks.of_eat`, `Rule.Breaks.of_expect`, `Rule.Breaks.nested`, `Rule.Breaks.recovered` —
  what the other steps do to it.
-/

namespace LoxSyntax

/-- Whether a problem blames a token that does not fit where it stands.  Too much nesting blames a
token that would fit under a higher ceiling, and a literal without its value is blamed for what it
carries. -/
def Problem.isMisfit : Problem → Bool
  | tooMuchNesting | expectedLiteral | invalidAssignmentTarget | missingLeftOperand => false
  | _ => true

theorem Problem.isMisfit_iff {problem : Problem} : problem.isMisfit ↔
    problem.isStructural = true ∧ problem ≠ .tooMuchNesting ∧ problem ≠ .expectedLiteral := by
  cases problem <;> simp [isMisfit, isStructural]

namespace Rule

variable {α β : Type} {rule : Rule α} {next : α → Rule β} {c : Cursor} {d : Diagnostic}

/-- The first problem that ends a rule is a misfit, and that is `d`. -/
def Breaks (rule : Rule α) (c : Cursor) (d : Diagnostic) : Prop :=
  ∃ before after, (rule c).events = before ++ .diagnosed d :: after ∧ Unbroken before ∧
    d.problem.isMisfit

/-- The same events break in the same way. -/
theorem Breaks.of_eq {rule' : Rule β} {c' : Cursor} (h : rule.Breaks c d)
    (heq : (rule' c').events = (rule c).events) : rule'.Breaks c' d := by
  rw [Breaks, heq]
  exact h

/-! ## Steps that do not break -/

/-- What happens besides a misfit comes before it. -/
theorem not_breaks_of_events
    (h : ∀ d, .diagnosed d ∈ (rule c).events → d.problem.isMisfit = false) :
    ¬ rule.Breaks c d := by
  rintro ⟨before, after, hevents, -, hmisfit⟩
  rw [h d (by simp [hevents])] at hmisfit
  cases hmisfit

theorem not_breaks_pure (a : α) : ¬ (pure a : Rule α).Breaks c d :=
  not_breaks_of_events fun _ hd => absurd hd List.not_mem_nil

theorem not_breaks_failAt {problem : Problem} {p : Place} (h : problem.isMisfit = false) :
    ¬ (failAt problem p : Rule α).Breaks c d := by
  refine not_breaks_of_events fun d' hd' => ?_
  cases List.mem_singleton.1 hd'
  exact h

/-- A rule that fails at the cursor breaks there or not at all. -/
theorem Breaks.of_fail {problem : Problem} (h : (fail problem : Rule α).Breaks c d) :
    d.place = c.toPlace := by
  obtain ⟨before, after, hevents, -, -⟩ := h
  have hmem : Event.diagnosed d ∈ (fail problem c : Reply α).events := by simp [hevents]
  cases List.mem_singleton.1 hmem
  rfl

/-! ## Sequence -/

/-- A sequence breaks in its first rule, or in the rest of it behind what the first rule has
read. -/
theorem Breaks.bind (h : (rule >>= next).Breaks c d) :
    rule.Breaks c d ∨
      ∃ a c₁ ev, rule.Gives c a c₁ ev ∧ Unbroken ev ∧ (next a).Breaks c₁ d := by
  rcases hrule : rule c with ⟨_ | a, c₁, ev⟩
  · refine .inl (h.of_eq ?_)
    rw [bind_of_none hrule, hrule]
  · obtain ⟨before, after, hevents, hbefore, hmisfit⟩ := h
    rw [bind_of_some hrule] at hevents
    rcases List.append_eq_append_iff.1 hevents with ⟨more, rfl, hmore⟩ | ⟨more, rfl, hmore⟩
    · rw [unbroken_append] at hbefore
      exact .inr ⟨a, c₁, ev, hrule, hbefore.1, more, after, hmore, hbefore.2, hmisfit⟩
    · rcases more with _ | ⟨event, more⟩
      · rw [List.append_nil] at hrule
        exact .inr ⟨a, c₁, before, hrule, hbefore, [], after, hmore.symm, by simp,
          hmisfit⟩
      · obtain ⟨rfl, -⟩ := List.cons.inj hmore
        exact .inl ⟨before, more, by rw [hrule], hbefore, hmisfit⟩

/-- A rule with derivations breaks itself, or the rest breaks behind a derivation. -/
theorem Follows.breaks_bind {m : Nat}
    {Reads : UInt32 → List Token → α → List Token → List Event → Prop}
    (hrule : rule.Follows m Reads) (hroom : c.room = m) (h : (rule >>= next).Breaks c d) :
    rule.Breaks c d ∨ ∃ a us ev, Reads c.endLine c.unread a us ev ∧ Unbroken ev ∧
      (next a).Breaks (c.upTo us) d := by
  rcases h.bind with h | ⟨a, c₁, ev, hgives, hev, h⟩
  · exact .inl h
  · obtain ⟨us, rfl, hreads⟩ := hrule.reads hgives hroom
    exact .inr ⟨a, us, ev, hreads, hev, h⟩

/-- A rule whose value only goes into something larger breaks by itself. -/
theorem Breaks.bind_pure {f : α → β} (h : (rule >>= fun a => pure (f a)).Breaks c d) :
    rule.Breaks c d := by
  rcases h.bind with h | ⟨a, c₁, ev, -, -, h⟩
  · exact h
  · exact absurd h (not_breaks_pure _)

theorem Breaks.map {f : α → β} (h : (f <$> rule).Breaks c d) : rule.Breaks c d :=
  h

/-- Behind an event that is no misfit. -/
theorem Breaks.of_note {event : Event} {next : Unit → Rule β}
    (h : (note event >>= next).Breaks c d)
    (hevent : ∀ d, event = .diagnosed d → d.problem.isMisfit = false) : (next ()).Breaks c d := by
  rcases h.bind with hnote | ⟨_, c₁, ev, hgives, -, hnext⟩
  · refine absurd hnote (not_breaks_of_events fun d' hd' => hevent d' ?_)
    exact (List.mem_singleton.1 hd').symm
  · obtain ⟨rfl, -⟩ := gives_note.1 hgives
    exact hnext

/-! ## Tokens -/

theorem breaks_place_bind {next : Place → Rule β} :
    (place >>= next).Breaks c d ↔ (next c.toPlace).Breaks c d := by
  rw [Breaks, place_bind, Breaks]

theorem breaks_next?_bind {next : Option Token → Rule β} :
    (next? >>= next).Breaks c d ↔ (next c.unread.head?).Breaks c d := by
  rw [Breaks, next?_bind, Breaks]

theorem breaks_skip_bind {next : Unit → Rule β} :
    (skip >>= next).Breaks c d ↔ (next ()).Breaks (c.upTo c.unread.tail) d := by
  rw [Breaks, skip_bind, Breaks]

theorem Breaks.of_eat? {accepts : TokenKind → Bool} {next : Option Token → Rule β}
    (h : (eat? accepts >>= next).Breaks c d) :
    (∃ t ts, c.unread = t :: ts ∧ accepts t.kind ∧ (next (some t)).Breaks (c.upTo ts) d) ∨
      ((∀ t ts, c.unread = t :: ts → accepts t.kind = false) ∧ (next none).Breaks c d) := by
  by_cases hnext : ∃ t ts, c.unread = t :: ts ∧ accepts t.kind
  · obtain ⟨t, ts, hts, ht⟩ := hnext
    rw [Breaks, eat?_bind_of_accepts next hts ht] at h
    exact .inl ⟨t, ts, hts, ht, h⟩
  · have hnone : ∀ t ts, c.unread = t :: ts → accepts t.kind = false := by
      intro t ts hts
      simpa using fun ht => hnext ⟨t, ts, hts, ht⟩
    rw [Breaks, eat?_bind_of_not_accepts next hnone] at h
    exact .inr ⟨hnone, h⟩

theorem Breaks.of_eat {kind : TokenKind} (hkind : kind ≠ .eof) {next : Bool → Rule β}
    (h : (eat kind >>= next).Breaks c d) :
    (∃ t ts, c.unread = t :: ts ∧ t.kind = kind ∧ (next true).Breaks (c.upTo ts) d) ∨
      (nextKind c.unread ≠ kind ∧ (next false).Breaks c d) := by
  rw [eat_bind] at h
  rcases h.of_eat? with ⟨t, ts, hts, ht, h⟩ | ⟨hnone, h⟩
  · exact .inl ⟨t, ts, hts, by simpa using ht, h⟩
  · exact .inr ⟨(forall_kind_ne_iff hkind).1 hnone, h⟩

/-- A sequence breaks at a landmark, or behind the token that it demands. -/
theorem Breaks.of_expect {landmark : Landmark} {next : Token → Rule β}
    (h : (expect landmark >>= next).Breaks c d) :
    (d.place = c.toPlace ∧ nextKind c.unread ≠ landmark.kind) ∨
      ∃ t ts, c.unread = t :: ts ∧ t.kind = landmark.kind ∧ (next t).Breaks (c.upTo ts) d := by
  rw [expect, bind_assoc] at h
  rcases h.of_eat? with ⟨t, ts, hts, ht, hnext⟩ | ⟨hnone, hfail⟩
  · rw [pure_bind] at hnext
    exact .inr ⟨t, ts, hts, by simpa using ht, hnext⟩
  · rcases hfail.bind with hbreak | ⟨_, c₁, ev, hgives, -⟩
    · exact .inl ⟨hbreak.of_fail, (forall_kind_ne_iff landmark.kind_ne_eof).1 hnone⟩
    · exact absurd hgives not_gives_fail

/-! ## Nesting and recovery -/

theorem Breaks.nested {m : Nat} (hroom : c.room = m + 1) (h : (nested rule).Breaks c d) :
    rule.Breaks c.deeper d := by
  refine h.of_eq ?_
  rw [nested_of_lt rule (c.depth_lt_ceiling hroom)]
  rfl

/-- Recovery is behind the misfit. -/
theorem Breaks.recovered (h : (recovered rule).Breaks c d) : rule.Breaks c d := by
  obtain ⟨before, after, hevents, hbefore, hmisfit⟩ := h
  rw [recovered_reply] at hevents
  split at hevents
  · exact ⟨before, after, hevents, hbefore, hmisfit⟩
  · rcases List.eq_nil_or_concat after with rfl | ⟨after, event, rfl⟩
    · cases (List.append_inj' hevents rfl).2
    · rw [List.concat_eq_append, ← List.cons_append, ← List.append_assoc] at hevents
      exact ⟨before, after, (List.append_inj' hevents rfl).1, hbefore, hmisfit⟩

end Rule

end LoxSyntax
