import LoxSyntax.Proofs.Rule.Reply
import LoxSyntax.Proofs.Rule.Widening

/-!
# What expressions read

An expression is made of operands and operators, parentheses, and the marks of a choice.  No other
token is ever read on its way, whether it can be read or fails, and nothing recovers inside of it.
So an expression never gets past a semicolon or a brace.

* `TokenKind.isInner` — the kinds that can stand in an expression.
* `Reply.Stays`, `Rule.Confined` — runs and rules that read tokens of some kinds only.
* **`Grammar.atRoom_confined`** — expressions read what can stand in them.
-/

namespace LoxSyntax

/-- Whether a kind can stand in an expression. -/
def TokenKind.isInner : TokenKind → Bool
  | leftParen | rightParen | comma | question | colon | minus | plus | slash | star
  | bang | bangEqual | equal | equalEqual | greater | greaterEqual | less | lessEqual
  | identifier | string | number | andWord | orWord | falseWord | trueWord | nilWord => true
  | _ => false

variable {α β : Type} {kinds : TokenKind → Bool}

/-! ## Runs that read some kinds only -/

/-- Of the tokens from `c` on, tokens of some kinds have been read, and nothing recovered on the
way. -/
structure Reply.Stays (kinds : TokenKind → Bool) (c : Cursor) (r : Reply α) : Prop where
  exists_used : ∃ used us, c.unread = used ++ us ∧ r.cursor = c.upTo us ∧ ∀ t ∈ used, kinds t.kind
  calm : ∀ p, .recovering p ∉ r.events

namespace Reply.Stays

variable {c : Cursor}

/-- A run that reads nothing. -/
theorem of_still {r : Reply α} (hcursor : r.cursor = c) (hcalm : ∀ p, .recovering p ∉ r.events) :
    r.Stays kinds c :=
  ⟨⟨[], c.unread, rfl, hcursor, by simp⟩, hcalm⟩

/-- A token more in front. -/
theorem cons {r : Reply α} {t : Token} {ts : List Token} (h : r.Stays kinds (c.upTo ts))
    (hts : c.unread = t :: ts) (ht : kinds t.kind) : r.Stays kinds c := by
  obtain ⟨⟨used, us, hused, hcursor, hkinds⟩, hcalm⟩ := h
  refine ⟨⟨t :: used, us, ?_, hcursor, by simpa [ht] using hkinds⟩, hcalm⟩
  rw [hts, List.cons_append, ← hused, Cursor.upTo_unread]

theorem bind {rule : Rule α} {next : α → Rule β} (h : (rule c).Stays kinds c)
    (hnext : ∀ a, (next a (rule c).cursor).Stays kinds (rule c).cursor) :
    ((rule >>= next) c).Stays kinds c := by
  obtain ⟨⟨used, us, hused, hcursor, hkinds⟩, hcalm⟩ := h
  rw [Rule.bind_reply]
  split
  · next a _ =>
    obtain ⟨⟨used', us', hused', hcursor', hkinds'⟩, hcalm'⟩ := hnext a
    refine ⟨⟨used ++ used', us', ?_, ?_, ?_⟩, ?_⟩
    · rw [hused, List.append_assoc, ← hused', hcursor, Cursor.upTo_unread]
    · rw [hcursor', hcursor, Cursor.upTo_upTo]
    · simpa [or_imp, forall_and] using ⟨hkinds, hkinds'⟩
    · simpa using fun p => ⟨hcalm p, hcalm' p⟩
  · exact ⟨⟨used, us, hused, hcursor, hkinds⟩, hcalm⟩

end Reply.Stays

namespace Rule

/-- From `c` the rule reads tokens of some kinds only. -/
def StaysAt (kinds : TokenKind → Bool) (rule : Rule α) (c : Cursor) : Prop :=
  (rule c).Stays kinds c

/-- The rule does so wherever it begins. -/
def Confined (kinds : TokenKind → Bool) (rule : Rule α) : Prop :=
  ∀ c, rule.StaysAt kinds c

theorem staysAt_place_bind {next : Place → Rule β} {c : Cursor} :
    (place >>= next).StaysAt kinds c ↔ (next c.toPlace).StaysAt kinds c := by
  rw [StaysAt, place_bind, StaysAt]

theorem staysAt_next?_bind {next : Option Token → Rule β} {c : Cursor} :
    (next? >>= next).StaysAt kinds c ↔ (next c.unread.head?).StaysAt kinds c := by
  rw [StaysAt, next?_bind, StaysAt]

/-- Behind a token of one of the kinds. -/
theorem staysAt_skip_bind {next : Unit → Rule β} {c : Cursor} {t : Token} {ts : List Token}
    (hts : c.unread = t :: ts) (ht : kinds t.kind) (h : (next ()).Confined kinds) :
    (skip >>= next).StaysAt kinds c := by
  rw [StaysAt, skip_bind, hts, List.tail_cons]
  exact (h (c.upTo ts)).cons hts ht

namespace Confined

variable {rule : Rule α}

theorem mono {kinds' : TokenKind → Bool} (h : rule.Confined kinds)
    (hkinds : ∀ k, kinds k → kinds' k) : rule.Confined kinds' := by
  intro c
  obtain ⟨⟨used, us, hused, hcursor, hread⟩, hcalm⟩ := h c
  exact ⟨⟨used, us, hused, hcursor, fun t ht => hkinds _ (hread t ht)⟩, hcalm⟩

theorem pure (a : α) : (Pure.pure a : Rule α).Confined kinds :=
  fun _ => .of_still rfl (by simp [Pure.pure, Rule.pure])

theorem place : Rule.place.Confined kinds :=
  fun _ => .of_still rfl (by simp [Rule.place])

theorem report (problem : Problem) (p : Place) : (Rule.report problem p).Confined kinds :=
  fun _ => .of_still rfl (by simp [Rule.report, note])

theorem failAt (problem : Problem) (p : Place) :
    (Rule.failAt problem p : Rule α).Confined kinds :=
  fun _ => .of_still rfl (by simp [Rule.failAt])

theorem fail (problem : Problem) : (Rule.fail problem : Rule α).Confined kinds :=
  fun c => failAt problem c.toPlace c

theorem bind {next : α → Rule β} (h : rule.Confined kinds) (hnext : ∀ a, (next a).Confined kinds) :
    (rule >>= next).Confined kinds :=
  fun c => (h c).bind fun a => hnext a _

theorem eat? {accepts : TokenKind → Bool} (h : ∀ k, accepts k → kinds k) :
    (Rule.eat? accepts).Confined kinds := by
  intro c
  rcases hts : c.unread with _ | ⟨t, ts⟩
  · exact .of_still (by simp [Rule.eat?, hts]) (by simp [Rule.eat?, hts])
  · by_cases ht : accepts t.kind
    · rw [StaysAt, eat?_of_accepts hts ht]
      exact ⟨⟨[t], ts, hts, rfl, by simpa using h t.kind ht⟩, by simp⟩
    · exact .of_still (by simp [Rule.eat?, hts, ht]) (by simp [Rule.eat?, hts, ht])

theorem eat {kind : TokenKind} (h : kinds kind) : (Rule.eat kind).Confined kinds :=
  (eat? (by simpa using h)).bind fun _ => .pure _

theorem expect {landmark : Landmark} (h : kinds landmark.kind) :
    (Rule.expect landmark).Confined kinds :=
  (eat? (by simpa using h)).bind fun
    | some t => .pure t
    | none => .fail _

/-- A choice by a token. -/
theorem ite_eat {kind : TokenKind} (h : kinds kind) {yes no : Rule α} (hyes : yes.Confined kinds)
    (hno : no.Confined kinds) : (do if ← Rule.eat kind then yes else no : Rule α).Confined kinds :=
  (eat h).bind fun
    | true => hyes
    | false => hno

theorem nested (h : rule.Confined kinds) : (Rule.nested rule).Confined kinds := by
  intro c
  by_cases hlt : c.depth < c.ceiling
  · rw [StaysAt, nested_of_lt rule hlt]
    obtain ⟨⟨used, us, hused, hcursor, hkinds⟩, hcalm⟩ := h c.deeper
    refine ⟨⟨used, us, hused, ?_, hkinds⟩, hcalm⟩
    rw [Reply.shallower, hcursor]
    rfl
  · rw [StaysAt, nested_of_not_lt rule hlt]
    exact fail _ c

theorem chain {p : Precedence} {operand : Rule Expr} (h : operand.Confined kinds)
    (hp : ∀ k : TokenKind, k.precedence? = some p → kinds k) (rounds : List Token) :
    ∀ lhs, (Rule.chain p operand rounds lhs).Confined kinds := by
  induction rounds with
  | nil => exact fun lhs => .pure lhs
  | cons _ rounds ih =>
    exact fun lhs => (eat? (by simpa using hp)).bind fun
      | none => .pure lhs
      | some op => h.bind fun rhs => ih (p.join lhs op rhs)

theorem leftAssociative {p : Precedence} {operand : Rule Expr} (h : operand.Confined kinds)
    (hp : ∀ k : TokenKind, k.precedence? = some p → kinds k) :
    (Rule.leftAssociative p operand).Confined kinds :=
  h.bind fun lhs => place.bind fun start => .chain h hp start.unread lhs

end Confined

end Rule

/-! ## Expressions -/

namespace TokenKind

theorem isInner_of_precedence? {k : TokenKind} {p : Precedence} (h : k.precedence? = some p) :
    k.isInner := by
  cases k <;> first | rfl | cases h

theorem isInner_of_isUnary {k : TokenKind} (h : k.isUnary) : k.isInner := by
  cases k <;> first | rfl | cases h

end TokenKind

namespace Grammar

open Rule TokenKind

section Expressions

variable {deeper : Opening → Rule Expr} (h : ∀ o, (deeper o).Confined isInner)

include h

theorem product_confined : (product deeper).Confined isInner :=
  (h .unary).leftAssociative fun _ => isInner_of_precedence?

theorem sum_confined : (sum deeper).Confined isInner :=
  (product_confined h).leftAssociative fun _ => isInner_of_precedence?

theorem comparison_confined : (comparison deeper).Confined isInner :=
  (sum_confined h).leftAssociative fun _ => isInner_of_precedence?

theorem equality_confined : (equality deeper).Confined isInner :=
  (comparison_confined h).leftAssociative fun _ => isInner_of_precedence?

theorem conjunction_confined : (conjunction deeper).Confined isInner :=
  (equality_confined h).leftAssociative fun _ => isInner_of_precedence?

theorem disjunction_confined : (disjunction deeper).Confined isInner :=
  (conjunction_confined h).leftAssociative fun _ => isInner_of_precedence?

theorem conditional_confined : (conditional deeper).Confined isInner :=
  (disjunction_confined h).bind fun _ => .ite_eat rfl
    ((h .expression).bind fun _ => (Confined.expect rfl).bind fun _ =>
      (h .expression).bind fun _ => .pure _)
    (.pure _)

theorem assignment_confined : (assignment deeper).Confined isInner := by
  refine (conditional_confined h).bind fun target => Confined.place.bind fun equals =>
    .ite_eat rfl ((h .assignment).bind fun value => ?_) (.pure _)
  split
  · exact .pure _
  · exact (Confined.report _ equals).bind fun _ => .pure _

theorem comma_confined : (comma deeper).Confined isInner :=
  (assignment_confined h).leftAssociative fun _ => isInner_of_precedence?

omit h in
theorem literal_stays {c : Cursor} {t : Token} {ts : List Token} (hts : c.unread = t :: ts)
    (ht : t.kind.isInner) : (literal t).StaysAt isInner c := by
  refine staysAt_place_bind.2 (staysAt_skip_bind hts ht ?_)
  split
  · exact .pure _
  · exact .pure _
  · exact .failAt _ _

omit h in
theorem missingOperand_stays {operand : Rule Expr} (h : operand.Confined isInner) {c : Cursor}
    {t : Token} {ts : List Token} (hts : c.unread = t :: ts) (ht : t.kind.isInner) :
    (missingOperand operand).StaysAt isInner c :=
  staysAt_place_bind.2 <| (Confined.report _ _ c).bind fun _ =>
    staysAt_skip_bind hts ht (h.bind fun _ => .pure _)

theorem primary_confined : (primary deeper).Confined isInner := by
  intro c
  rw [primary, staysAt_next?_bind]
  cases hts : c.unread with
  | nil => exact Confined.fail _ c
  | cons t ts =>
    rw [List.head?_cons]
    dsimp only
    have hbehind : ∀ {next : Unit → Rule Expr}, t.kind.isInner → (next ()).Confined isInner →
        (Rule.skip >>= next).StaysAt isInner c :=
      fun ht hnext => staysAt_skip_bind hts ht hnext
    split
    · next hkind => exact hbehind (by rw [hkind]; rfl) (.pure _)
    · next hkind => exact hbehind (by rw [hkind]; rfl) (.pure _)
    · next hkind => exact hbehind (by rw [hkind]; rfl) (.pure _)
    · next hkind => exact literal_stays hts (by rw [hkind]; rfl)
    · next hkind => exact literal_stays hts (by rw [hkind]; rfl)
    · next hkind =>
      exact hbehind (by rw [hkind]; rfl) ((h .expression).bind fun _ =>
        (Confined.expect rfl).bind fun _ => .pure _)
    · next hkind => exact hbehind (by rw [hkind]; rfl) (.pure _)
    · split
      · next hp => exact missingOperand_stays (equality_confined h) hts (isInner_of_precedence? hp)
      · next hp =>
        exact missingOperand_stays (comparison_confined h) hts (isInner_of_precedence? hp)
      · next hp => exact missingOperand_stays (sum_confined h) hts (isInner_of_precedence? hp)
      · next hp => exact missingOperand_stays (product_confined h) hts (isInner_of_precedence? hp)
      · exact Confined.fail _ c

theorem unary_confined : (unary deeper).Confined isInner :=
  (Confined.eat? fun _ => isInner_of_isUnary).bind fun
    | some _ => (h .unary).bind fun _ => .pure _
    | none => primary_confined h

theorem opened_confined : ∀ o, (opened deeper o).Confined isInner
  | .expression => comma_confined h
  | .assignment => assignment_confined h
  | .unary => unary_confined h

end Expressions

/-- Whatever is read for an expression can stand in one. -/
theorem atRoom_confined (m : Nat) : ∀ o, (atRoom m o).Confined isInner := by
  induction m with
  | zero => exact fun _ => .fail _
  | succ m ih => exact fun o => (opened_confined ih o).nested

end Grammar

end LoxSyntax
