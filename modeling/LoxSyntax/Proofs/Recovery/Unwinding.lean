import LoxSyntax.Proofs.Rule.Widening

/-!
# Failures and recoveries

A rule that fails has reported one problem that ends it, as the last thing it did, and whoever
called it passes the failure on without a word, up to the rule that recovers.  So each problem that
ends a rule is met by one recovery, or is the reason why the whole rule failed.

* `Event.isStructural`, `Event.isRecovery` — what ends a rule, and what meets it.
* **`Rule.Widens.countP_isStructural`** — each problem that ends a rule is met once.
-/

namespace LoxSyntax

namespace Event

/-- Whether an event is a problem that ends a rule. -/
def isStructural : Event → Bool
  | diagnosed d => d.problem.isStructural
  | declaring _ | recovering _ => false

/-- Whether an event is the beginning of a recovery. -/
def isRecovery : Event → Bool
  | recovering _ => true
  | diagnosed _ | declaring _ => false

end Event

namespace Reply

variable {α : Type} {r : Reply α}

/-- One for a failure. -/
def failures (r : Reply α) : Nat :=
  if r.result.isNone then 1 else 0

theorem failures_of_some {a : α} (h : r.result = some a) : r.failures = 0 := by
  rw [failures, h]
  rfl

theorem failures_of_none (h : r.result = none) : r.failures = 1 := by
  rw [failures, h]
  rfl

end Reply

namespace Rule

variable {α : Type} {rule rule' : Rule α}

theorem Step.countP_isStructural (h : Step rule) (c : Cursor) :
    (rule c).events.countP Event.isStructural =
      (rule c).events.countP Event.isRecovery + (rule c).failures := by
  cases h with
  | eat? accepts =>
    rcases hts : c.unread with _ | ⟨t, ts⟩
    · simp [Rule.eat?, hts, Reply.failures]
    · by_cases ht : accepts t.kind <;> simp [Rule.eat?, hts, ht, Reply.failures]
  | report hproblem p =>
    simp [Rule.report, note, Reply.failures, Event.isStructural, Event.isRecovery, hproblem]
  | fail hproblem =>
    simp [Rule.fail, Rule.failAt, Reply.failures, Event.isStructural, Event.isRecovery, hproblem]
  | _ => rfl

/-- A run reports as many problems that end a rule as it recovers from, and one more if it fails. -/
theorem Widens.countP_isStructural (h : Widens rule rule') (c : Cursor) :
    (rule c).events.countP Event.isStructural =
      (rule c).events.countP Event.isRecovery + (rule c).failures := by
  induction h generalizing c with
  | step h => exact h.countP_isStructural c
  | cut => rfl
  | @bind α β rule rule' next next' _ _ ih₁ ih₂ =>
    have hfirst := ih₁ c
    rw [bind_reply]
    split
    · next a ha =>
      rw [Reply.failures_of_some ha] at hfirst
      have hsecond := ih₂ a (rule c).cursor
      rw [List.countP_append, List.countP_append, hfirst, hsecond]
      show _ = _ + (next a (rule c).cursor).failures
      omega
    · next hnone =>
      rw [Reply.failures_of_none hnone] at hfirst
      exact hfirst
  | @nested α rule rule' _ ih =>
    by_cases hlt : c.depth < c.ceiling
    · rw [nested_of_lt rule hlt]
      exact ih c.deeper
    · rw [nested_of_not_lt rule hlt]
      rfl
  | @recovered α rule rule' _ ih =>
    have hinner := ih c
    rw [recovered_reply]
    split
    · next a ha =>
      rw [Reply.failures_of_some ha] at hinner
      exact hinner
    · next hnone =>
      rw [Reply.failures_of_none hnone] at hinner
      rw [List.countP_append, List.countP_append, hinner]
      rfl

end Rule

end LoxSyntax
