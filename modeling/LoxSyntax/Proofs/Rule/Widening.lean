import LoxSyntax.Grammar.Statement
import LoxSyntax.Proofs.Rule.Success

/-!
# Rules with room for more levels

All rules of the grammar are made of a few steps by sequence, nesting and recovery.  Two rules that
are made in the same way can differ in how many levels they may open: where one gives up because the
nesting is too deep, the other goes on.

* `Rule.Step` — the steps.
* `Rule.Widens` — two rules made in the same way, the second one with room for more levels.
* `Grammar.atRoom_widens`, `Grammar.statementAt_widens` — the rules of the grammar are related to
  themselves with more room, and so to themselves.
* **`Rule.Widens.exists_upTo`** — a rule closes the levels it opened and never reads backwards.
* **`Rule.Widens.exists_concat`** — a rule that fails has reported why, as the last thing it did.
* **`Rule.Widens.tracks`** — a rule with more room does the same, up to the first complaint about
  nesting.
-/

namespace LoxSyntax

namespace Rule

variable {α β : Type}

/-! ## Rules made of steps -/

/-- What rules are made of. -/
inductive Step : {α : Type} → Rule α → Prop
  | pure {α : Type} (a : α) : Step (Pure.pure a : Rule α)
  | place : Step place
  | next? : Step next?
  | skip : Step skip
  | eat? (accepts : TokenKind → Bool) : Step (eat? accepts)
  | declaring (p : Place) : Step (note (.declaring p))
  | report {problem : Problem} (h : problem.isStructural = false) (p : Place) :
      Step (report problem p)
  /-- Only a literal is blamed from behind it. -/
  | failAt {α : Type} (p : Place) : Step (failAt .expectedLiteral p : Rule α)
  | fail {α : Type} {problem : Problem} (h : problem.isStructural = true) :
      Step (fail problem : Rule α)

/-- The rules are made in the same way, but where the first one complains about nesting the second
one may do anything. -/
inductive Widens : {α : Type} → Rule α → Rule α → Prop
  | step {α : Type} {rule : Rule α} (h : Step rule) : Widens rule rule
  | bind {α β : Type} {rule rule' : Rule α} {next next' : α → Rule β}
      (hrule : Widens rule rule') (hnext : ∀ a, Widens (next a) (next' a)) :
      Widens (rule >>= next) (rule' >>= next')
  | nested {α : Type} {rule rule' : Rule α} (h : Widens rule rule') :
      Widens (nested rule) (nested rule')
  | recovered {α : Type} {rule rule' : Rule α} (h : Widens rule rule') :
      Widens (recovered rule) (recovered rule')
  | cut {α : Type} (rule : Rule α) : Widens (fail .tooMuchNesting) rule

namespace Widens

theorem pure (a : α) : Widens (Pure.pure a : Rule α) (Pure.pure a) :=
  .step (.pure a)

theorem map {rule rule' : Rule α} (f : α → β) (h : Widens rule rule') :
    Widens (f <$> rule) (f <$> rule') := by
  rw [map_eq_pure_bind, map_eq_pure_bind]
  exact .bind h fun a => .pure (f a)

theorem eat (kind : TokenKind) : Widens (eat kind) (eat kind) :=
  .bind (.step (.eat? _)) fun _ => .pure _

theorem expect (landmark : Landmark) : Widens (expect landmark) (expect landmark) :=
  .bind (.step (.eat? _)) fun
    | some t => .pure t
    | none => .step (.fail rfl)

/-- A choice by a token. -/
theorem ite_eat (kind : TokenKind) {yes yes' no no' : Rule α} (hyes : Widens yes yes')
    (hno : Widens no no') :
    Widens (do if ← Rule.eat kind then yes else no) (do if ← Rule.eat kind then yes' else no') :=
  .bind (.eat kind) fun
    | true => hyes
    | false => hno

theorem chain (p : Precedence) {operand operand' : Rule Expr} (h : Widens operand operand')
    (rounds : List Token) :
    ∀ lhs, Widens (chain p operand rounds lhs) (chain p operand' rounds lhs) := by
  induction rounds with
  | nil => exact fun lhs => .pure lhs
  | cons _ rounds ih =>
    exact fun lhs => .bind (.step (.eat? _)) fun
      | none => .pure lhs
      | some op => .bind h fun rhs => ih (p.join lhs op rhs)

theorem leftAssociative (p : Precedence) {operand operand' : Rule Expr}
    (h : Widens operand operand') :
    Widens (leftAssociative p operand) (leftAssociative p operand') :=
  .bind h fun lhs => .bind (.step .place) fun start => .chain p h start.unread lhs

end Widens

end Rule

/-! ## The grammar -/

namespace Grammar

open Rule

section Expressions

variable {deeper deeper' : Opening → Rule Expr} (h : ∀ o, Widens (deeper o) (deeper' o))

include h

theorem product_widens : Widens (product deeper) (product deeper') :=
  .leftAssociative _ (h .unary)

theorem sum_widens : Widens (sum deeper) (sum deeper') :=
  .leftAssociative _ (product_widens h)

theorem comparison_widens : Widens (comparison deeper) (comparison deeper') :=
  .leftAssociative _ (sum_widens h)

theorem equality_widens : Widens (equality deeper) (equality deeper') :=
  .leftAssociative _ (comparison_widens h)

theorem conjunction_widens : Widens (conjunction deeper) (conjunction deeper') :=
  .leftAssociative _ (equality_widens h)

theorem disjunction_widens : Widens (disjunction deeper) (disjunction deeper') :=
  .leftAssociative _ (conjunction_widens h)

theorem conditional_widens : Widens (conditional deeper) (conditional deeper') :=
  .bind (disjunction_widens h) fun _ => .ite_eat .question
    (.bind (h .expression) fun _ => .bind (.expect _) fun _ => .bind (h .expression) fun _ =>
      .pure _)
    (.pure _)

theorem assignment_widens : Widens (assignment deeper) (assignment deeper') :=
  .bind (conditional_widens h) fun target => .bind (.step .place) fun equals => .ite_eat .equal
    (.bind (h .assignment) fun value => by
      split
      · exact .pure _
      · exact .bind (.step (.report rfl _)) fun _ => .pure _)
    (.pure _)

theorem comma_widens : Widens (comma deeper) (comma deeper') :=
  .leftAssociative _ (assignment_widens h)

omit h in
theorem literal_widens (t : Token) : Widens (literal t) (literal t) :=
  .bind (.step .place) fun start => .bind (.step .skip) fun _ => by
    split
    · exact .pure _
    · exact .pure _
    · exact .step (.failAt _)

omit h in
theorem missingOperand_widens {operand operand' : Rule Expr} (h : Widens operand operand') :
    Widens (missingOperand operand) (missingOperand operand') :=
  .bind (.step .place) fun _ => .bind (.step (.report rfl _)) fun _ =>
    .bind (.step .skip) fun _ => .bind h fun _ => .pure _

theorem primary_widens : Widens (primary deeper) (primary deeper') :=
  .bind (.step .next?) fun
    | none => .step (.fail rfl)
    | some t => by
      dsimp only
      split
      · exact .bind (.step .skip) fun _ => .pure _
      · exact .bind (.step .skip) fun _ => .pure _
      · exact .bind (.step .skip) fun _ => .pure _
      · exact literal_widens t
      · exact literal_widens t
      · exact .bind (.step .skip) fun _ => .bind (h .expression) fun _ =>
          .bind (.expect _) fun _ => .pure _
      · exact .bind (.step .skip) fun _ => .pure _
      · split
        · exact missingOperand_widens (equality_widens h)
        · exact missingOperand_widens (comparison_widens h)
        · exact missingOperand_widens (sum_widens h)
        · exact missingOperand_widens (product_widens h)
        · exact .step (.fail rfl)

theorem unary_widens : Widens (unary deeper) (unary deeper') :=
  .bind (.step (.eat? _)) fun
    | some _ => .bind (h .unary) fun _ => .pure _
    | none => primary_widens h

theorem opened_widens : ∀ o, Widens (opened deeper o) (opened deeper' o)
  | .expression => comma_widens h
  | .assignment => assignment_widens h
  | .unary => unary_widens h

end Expressions

/-- With more room the rules for expressions are made in the same way. -/
theorem atRoom_widens {m n : Nat} (hmn : m ≤ n) (o : Opening) :
    Widens (atRoom m o) (atRoom n o) := by
  induction m generalizing n o with
  | zero => exact .cut _
  | succ m ih =>
    obtain ⟨n, rfl⟩ := Nat.exists_eq_add_of_le' hmn
    exact .nested (opened_widens (ih (Nat.le_add_left m n)) o)

section Statements

variable {expr expr' : Rule Expr} {stmt stmt' : Rule Stmt} (he : Widens expr expr')
  (hs : Widens stmt stmt')

include he

theorem terminated_widens : Widens (terminated expr) (terminated expr') :=
  .bind he fun _ => .bind (.expect _) fun _ => .pure _

theorem variableDeclaration_widens :
    Widens (variableDeclaration expr) (variableDeclaration expr') :=
  .bind (.expect _) fun _ => .ite_eat .equal
    (.bind he fun _ => .bind (.expect _) fun _ => .pure _)
    (.bind (.expect _) fun _ => .pure _)

theorem unlessNext_widens (kind : TokenKind) :
    Widens (unlessNext expr kind) (unlessNext expr' kind) :=
  .bind (.step .place) fun _ => by
    split
    · exact .pure _
    · exact .bind he fun _ => .pure _

theorem forInitial_widens : Widens (forInitial expr) (forInitial expr') :=
  .ite_eat .semicolon (.pure _) <| .ite_eat .varWord
    (.bind (variableDeclaration_widens he) fun _ => .pure _)
    (.bind (terminated_widens he) fun _ => .pure _)

include hs

theorem declarationOf_widens : Widens (declarationOf expr stmt) (declarationOf expr' stmt') :=
  .bind (.step .place) fun _ => .bind (.step (.declaring _)) fun _ =>
    .recovered (.ite_eat .varWord (variableDeclaration_widens he) hs)

omit he hs in
theorem declarationsOf_widens {declaration declaration' : Rule (Option Stmt)}
    (h : Widens declaration declaration') (last : TokenKind) (rounds : List Token) :
    Widens (declarationsOf declaration last rounds) (declarationsOf declaration' last rounds) := by
  induction rounds with
  | nil => exact .pure _
  | cons _ rounds ih =>
    exact .bind (.step .place) fun _ => by
      dsimp only
      split
      · exact .pure _
      · exact .bind h fun _ => .map _ ih

theorem block_widens : Widens (block expr stmt) (block expr' stmt') :=
  .bind (.step .place) fun start =>
    .bind (declarationsOf_widens (declarationOf_widens he hs) .rightBrace start.unread) fun _ =>
      .bind (.expect _) fun _ => .pure _

theorem conditionalStatement_widens :
    Widens (conditionalStatement expr stmt) (conditionalStatement expr' stmt') :=
  .bind (.expect _) fun _ => .bind he fun _ => .bind (.expect _) fun _ => .bind hs fun _ =>
    .ite_eat .elseWord (.bind hs fun _ => .pure _) (.pure _)

theorem whileLoop_widens : Widens (whileLoop expr stmt) (whileLoop expr' stmt') :=
  .bind (.expect _) fun _ => .bind he fun _ => .bind (.expect _) fun _ => .bind hs fun _ => .pure _

theorem forLoop_widens : Widens (forLoop expr stmt) (forLoop expr' stmt') :=
  .bind (.expect _) fun _ => .bind (forInitial_widens he) fun _ =>
    .bind (unlessNext_widens he _) fun _ => .bind (.expect _) fun _ =>
      .bind (unlessNext_widens he _) fun _ => .bind (.expect _) fun _ => .bind hs fun _ => .pure _

theorem statementBody_widens : Widens (statementBody expr stmt) (statementBody expr' stmt') :=
  .bind (.step .place) fun _ => by
    split
    · exact .bind (.step .skip) fun _ => .bind (terminated_widens he) fun _ => .pure _
    · exact .bind (.step .skip) fun _ => block_widens he hs
    · exact .bind (.step .skip) fun _ => conditionalStatement_widens he hs
    · exact .bind (.step .skip) fun _ => whileLoop_widens he hs
    · exact .bind (.step .skip) fun _ => forLoop_widens he hs
    · exact .bind (terminated_widens he) fun _ => .pure _

end Statements

/-- With more room the rule for statements is made in the same way. -/
theorem statementAt_widens {m n : Nat} (hmn : m ≤ n) :
    Widens (statementAt m) (statementAt n) := by
  induction m generalizing n with
  | zero => exact .cut _
  | succ m ih =>
    obtain ⟨n, rfl⟩ := Nat.exists_eq_add_of_le' hmn
    have hmn : m ≤ n + m := Nat.le_add_left m n
    exact .nested (statementBody_widens (atRoom_widens hmn .expression) (ih hmn))

end Grammar

/-! ## Where a rule stops -/

namespace Place

theorem skipToStatement_suffix (skipped : Token) (ts : List Token) :
    skipToStatement skipped ts <:+ ts := by
  induction ts generalizing skipped with
  | nil => exact List.suffix_refl _
  | cons t ts ih =>
    rw [skipToStatement]
    split
    · exact List.suffix_refl _
    · exact (ih t).trans (List.suffix_cons t ts)

/-- Recovery goes on, and in front of the end of the text it skips at least one token. -/
theorem resume_unread_suffix (p : Place) : p.resume.unread <:+ p.unread.tail := by
  rcases p with ⟨_ | ⟨t, ts⟩, endLine⟩
  · exact List.suffix_refl _
  · exact skipToStatement_suffix t ts

theorem resume_eq (p : Place) : p.resume = ⟨p.resume.unread, p.endLine⟩ := by
  rcases p with ⟨_ | ⟨t, ts⟩, endLine⟩ <;> rfl

end Place

/-- The reply with the level closed that was opened for it. -/
def Reply.shallower {α : Type} (r : Reply α) : Reply α :=
  { r with cursor := { r.cursor with depth := r.cursor.depth - 1 } }

namespace Rule

variable {α β : Type}

/-- What a sequence replies continues what its first rule replied. -/
theorem bind_reply (rule : Rule α) (next : α → Rule β) (c : Cursor) :
    (rule >>= next) c = match (rule c).result with
      | some a => { next a (rule c).cursor with
          events := (rule c).events ++ (next a (rule c).cursor).events }
      | none => ⟨none, (rule c).cursor, (rule c).events⟩ := by
  rcases hrule : rule c with ⟨_ | a, c₁, ev₁⟩
  · exact bind_of_none hrule
  · exact bind_of_some hrule

theorem nested_of_lt (rule : Rule α) {c : Cursor} (h : c.depth < c.ceiling) :
    nested rule c = (rule c.deeper).shallower :=
  if_pos h

theorem nested_of_not_lt (rule : Rule α) {c : Cursor} (h : ¬ c.depth < c.ceiling) :
    nested rule c = fail .tooMuchNesting c :=
  if_neg h

theorem recovered_reply (rule : Rule α) (c : Cursor) :
    recovered rule c = match (rule c).result with
      | some a => { rule c with result := some (some a) }
      | none =>
        ⟨some none, { (rule c).cursor with toPlace := (rule c).cursor.toPlace.resume },
          (rule c).events ++ [.recovering (rule c).cursor.toPlace]⟩ := by
  rw [recovered]
  rcases rule c with ⟨_ | a, c₁, ev₁⟩ <;> rfl

namespace Step

variable {rule : Rule α}

theorem exists_upTo (h : Step rule) (c : Cursor) :
    ∃ us, us <:+ c.unread ∧ (rule c).cursor = c.upTo us := by
  cases h with
  | skip => exact ⟨c.unread.tail, List.tail_suffix _, rfl⟩
  | eat? accepts =>
    rcases hts : c.unread with _ | ⟨t, ts⟩
    · exact ⟨[], List.suffix_refl _, by simp only [Rule.eat?, hts]; rw [← hts]; rfl⟩
    · by_cases ht : accepts t.kind
      · refine ⟨ts, List.suffix_cons t ts, ?_⟩
        simp only [eat?_of_accepts hts ht]
      · refine ⟨t :: ts, List.suffix_refl _, ?_⟩
        rw [← hts, Cursor.upTo_self, eat?_of_not_accepts]
        rintro u us hus
        cases hts.symm.trans hus
        simpa using ht
  | _ => exact ⟨c.unread, List.suffix_refl _, rfl⟩

theorem exists_concat (h : Step rule) (c : Cursor) (hfail : (rule c).result = none) :
    ∃ before d, (rule c).events = before ++ [.diagnosed d] ∧ d.problem.isStructural = true := by
  cases h with
  | failAt p => exact ⟨[], _, rfl, rfl⟩
  | fail hproblem => exact ⟨[], _, rfl, hproblem⟩
  | eat? accepts =>
    rcases hts : c.unread with _ | ⟨t, ts⟩
    · simp [Rule.eat?, hts] at hfail
    · by_cases ht : accepts t.kind <;> simp [Rule.eat?, hts, ht] at hfail
  | _ => cases hfail

end Step

namespace Widens

variable {rule rule' : Rule α}

/-- A rule closes the levels it opened, and never reads backwards. -/
theorem exists_upTo (h : Widens rule rule') (c : Cursor) :
    ∃ us, us <:+ c.unread ∧ (rule c).cursor = c.upTo us := by
  induction h generalizing c with
  | step h => exact h.exists_upTo c
  | cut => exact ⟨c.unread, List.suffix_refl _, rfl⟩
  | @bind α β rule rule' next next' _ _ ih₁ ih₂ =>
    obtain ⟨us, hus, hcursor⟩ := ih₁ c
    rw [bind_reply]
    split
    · next a _ =>
      obtain ⟨vs, hvs, hcursor'⟩ := ih₂ a (rule c).cursor
      refine ⟨vs, ?_, hcursor'.trans (by rw [hcursor]; rfl)⟩
      rw [hcursor] at hvs
      exact hvs.trans hus
    · exact ⟨us, hus, hcursor⟩
  | @nested α rule rule' _ ih =>
    by_cases hlt : c.depth < c.ceiling
    · obtain ⟨us, hus, hcursor⟩ := ih c.deeper
      rw [nested_of_lt rule hlt, Reply.shallower, hcursor]
      exact ⟨us, hus, rfl⟩
    · rw [nested_of_not_lt rule hlt]
      exact ⟨c.unread, List.suffix_refl _, rfl⟩
  | @recovered α rule rule' _ ih =>
    obtain ⟨us, hus, hcursor⟩ := ih c
    rw [recovered_reply]
    split
    · exact ⟨us, hus, hcursor⟩
    · refine ⟨(c.upTo us).toPlace.resume.unread, ?_, ?_⟩
      · exact (Place.resume_unread_suffix _).trans ((List.tail_suffix us).trans hus)
      · rw [hcursor, Place.resume_eq]
        rfl

/-- The last thing that a rule does which fails is to report why. -/
theorem exists_concat (h : Widens rule rule') (c : Cursor) (hfail : (rule c).result = none) :
    ∃ before d, (rule c).events = before ++ [.diagnosed d] ∧ d.problem.isStructural = true := by
  induction h generalizing c with
  | step h => exact h.exists_concat c hfail
  | cut => exact ⟨[], _, rfl, rfl⟩
  | @bind α β rule rule' next next' _ _ ih₁ ih₂ =>
    rw [bind_reply] at hfail ⊢
    split at hfail
    · next a _ =>
      obtain ⟨before, d, hevents, hd⟩ := ih₂ a (rule c).cursor hfail
      exact ⟨(rule c).events ++ before, d, by simp only [hevents, List.append_assoc], hd⟩
    · next hnone => exact ih₁ c hnone
  | @nested α rule rule' _ ih =>
    by_cases hlt : c.depth < c.ceiling
    · rw [nested_of_lt rule hlt] at hfail ⊢
      exact ih c.deeper hfail
    · rw [nested_of_not_lt rule hlt]
      exact ⟨[], _, rfl, rfl⟩
  | @recovered α rule rule' _ ih =>
    rw [recovered_reply] at hfail
    split at hfail <;> cases hfail

/-- A rule that fails has reported why. -/
theorem exists_structural (h : Widens rule rule') (c : Cursor)
    (hfail : (rule c).result = none) :
    ∃ d, d.problem.isStructural = true ∧ .diagnosed d ∈ (rule c).events := by
  obtain ⟨before, d, hevents, hd⟩ := h.exists_concat c hfail
  exact ⟨d, hd, by simp [hevents]⟩

end Widens

end Rule

/-! ## The same with more room -/

/-- Whether an event complains about too much nesting. -/
def Event.isNesting : Event → Bool
  | .diagnosed d => d.problem == .tooMuchNesting
  | _ => false

/-- The same cursor under another ceiling. -/
def Cursor.withCeiling (c : Cursor) (ceiling : Nat) : Cursor :=
  { c with ceiling }

namespace Reply

variable {α β : Type}

/-- The first reply complains about nesting, and the second one agrees with it up to there. -/
def CutOff (cut : Reply α) (full : Reply α) : Prop :=
  ∃ before complaint after, cut.events = before ++ complaint :: after ∧
    complaint.isNesting = true ∧ (∀ ev ∈ before, ev.isNesting = false) ∧ before <+: full.events

/-- The first reply does not complain about nesting, and the second one is the same under
`ceiling`; or the second one agrees with it up to its first complaint. -/
def Tracks (ceiling : Nat) (cut full : Reply α) : Prop :=
  ((∀ ev ∈ cut.events, ev.isNesting = false) ∧
    full = { cut with cursor := cut.cursor.withCeiling ceiling }) ∨
  cut.CutOff full

/-- Whatever happens behind the complaint makes no difference. -/
theorem CutOff.mono {cut full : Reply α} {cut' full' : Reply β} (h : cut.CutOff full)
    (hcut : cut.events <+: cut'.events) (hfull : full.events <+: full'.events) :
    cut'.CutOff full' := by
  obtain ⟨before, complaint, after, hev, hnest, hbefore, hpre⟩ := h
  obtain ⟨more, hmore⟩ := hcut
  refine ⟨before, complaint, after ++ more, ?_, hnest, hbefore, hpre.trans hfull⟩
  rw [← hmore, hev, List.append_assoc, List.cons_append]

end Reply

namespace Rule

variable {α β : Type}

theorem events_prefix_bind (rule : Rule α) (next : α → Rule β) (c : Cursor) :
    (rule c).events <+: ((rule >>= next) c).events := by
  rw [bind_reply]
  split
  · exact List.prefix_append _ _
  · exact List.prefix_rfl

theorem events_prefix_recovered (rule : Rule α) (c : Cursor) :
    (rule c).events <+: (recovered rule c).events := by
  rw [recovered_reply]
  split
  · exact List.prefix_rfl
  · exact List.prefix_append _ _

theorem failAt_tracks (problem : Problem) (p : Place) (c : Cursor) (ceiling : Nat) :
    (failAt problem p c : Reply α).Tracks ceiling (failAt problem p (c.withCeiling ceiling)) := by
  by_cases h : problem = .tooMuchNesting
  · subst h
    exact .inr ⟨[], _, [], rfl, rfl, by simp, List.nil_prefix⟩
  · exact .inl ⟨by simpa [failAt, Event.isNesting] using h, rfl⟩

theorem Step.tracks {rule : Rule α} (h : Step rule) (c : Cursor) (ceiling : Nat) :
    (rule c).Tracks ceiling (rule (c.withCeiling ceiling)) := by
  cases h with
  | failAt p => exact failAt_tracks _ p c ceiling
  | fail _ => exact failAt_tracks _ c.toPlace c ceiling
  | @report problem h p =>
    refine .inl ⟨?_, rfl⟩
    cases problem <;> simp_all [Rule.report, note, Event.isNesting, Problem.isStructural]
  | eat? accepts =>
    rcases hts : c.unread with _ | ⟨t, ts⟩
    · exact .inl ⟨by simp [Rule.eat?, hts], by simp [Rule.eat?, hts, Cursor.withCeiling]⟩
    · by_cases ht : accepts t.kind
      · exact .inl ⟨by simp [Rule.eat?, hts, ht], by simp [Rule.eat?, hts, ht, Cursor.withCeiling]⟩
      · exact .inl ⟨by simp [Rule.eat?, hts, ht], by simp [Rule.eat?, hts, ht, Cursor.withCeiling]⟩
  | declaring p => exact .inl ⟨by simp [note, Event.isNesting], rfl⟩
  | pure a => exact .inl ⟨by simp [Pure.pure, Rule.pure], rfl⟩
  | place => exact .inl ⟨by simp [Rule.place], rfl⟩
  | next? => exact .inl ⟨by simp [Rule.next?], rfl⟩
  | skip => exact .inl ⟨by simp [Rule.skip], rfl⟩

/-- A rule with more room does the same, up to the first complaint about nesting. -/
theorem Widens.tracks {rule rule' : Rule α} (h : Widens rule rule') (c : Cursor) {ceiling : Nat}
    (hceiling : c.ceiling ≤ ceiling) :
    (rule c).Tracks ceiling (rule' (c.withCeiling ceiling)) := by
  induction h generalizing c with
  | step h => exact h.tracks c ceiling
  | cut => exact .inr ⟨[], _, [], rfl, rfl, by simp, List.nil_prefix⟩
  | @bind α β rule rule' next next' hrule _ ih₁ ih₂ =>
    rcases ih₁ c hceiling with ⟨hnone, hfull⟩ | hcut
    · rw [bind_reply, bind_reply, hfull]
      split
      · next a ha =>
        simp only [ha]
        have hc : (rule c).cursor.ceiling ≤ ceiling := by
          obtain ⟨us, -, hus⟩ := hrule.exists_upTo c
          rw [hus]
          exact hceiling
        rcases ih₂ a (rule c).cursor hc with
          ⟨hnone', hfull'⟩ | ⟨before, complaint, after, hev, hnest, hbefore, hpre⟩
        · refine .inl ⟨?_, by rw [hfull']⟩
          simpa [or_imp, forall_and] using ⟨hnone, hnone'⟩
        · refine .inr ⟨(rule c).events ++ before, complaint, after, ?_, hnest, ?_, ?_⟩
          · simp only [hev, List.append_assoc]
          · simpa [or_imp, forall_and] using ⟨hnone, hbefore⟩
          · exact (List.prefix_append_right_inj _).2 hpre
      · next ha => exact .inl ⟨hnone, by simp only [ha]⟩
    · exact .inr (hcut.mono (events_prefix_bind ..) (events_prefix_bind ..))
  | @nested α rule rule' _ ih =>
    by_cases hlt : c.depth < c.ceiling
    · rw [nested_of_lt rule hlt,
        nested_of_lt rule' (c := c.withCeiling ceiling) (Nat.lt_of_lt_of_le hlt hceiling)]
      rcases ih c.deeper hceiling with ⟨hnone, hfull⟩ | hcut
      · exact .inl ⟨hnone, congrArg Reply.shallower hfull⟩
      · exact .inr (hcut.mono List.prefix_rfl List.prefix_rfl)
    · rw [nested_of_not_lt rule hlt]
      exact .inr ⟨[], _, [], rfl, rfl, by simp, List.nil_prefix⟩
  | @recovered α rule rule' _ ih =>
    rcases ih c hceiling with ⟨hnone, hfull⟩ | hcut
    · rw [recovered_reply, recovered_reply, hfull]
      cases (rule c).result with
      | some a => exact .inl ⟨hnone, rfl⟩
      | none => exact .inl ⟨by simpa [or_imp, forall_and, Event.isNesting] using hnone, rfl⟩
    · exact .inr (hcut.mono (events_prefix_recovered ..) (events_prefix_recovered ..))

end Rule

end LoxSyntax
