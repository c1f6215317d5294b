import LoxSyntax.Proofs.Rule.Passage
import LoxSyntax.Proofs.Rule.Reply

/-!
# What a run costs

Between two tokens that it reads a rule takes only a few steps, however many levels it may open: a
chain of rules, from the loosest to the tightest, stands in front of each operand, and it ends with
a token or with a failure.  So each token pays for the steps up to it, with some left over, and what
a whole run costs is told by the tokens that it reads.

* `Rule.CostsAt`, `Rule.Costs` — the steps of a run beyond 40 for each token that it reads.
* `Rule.CostsAt.bind`, `Rule.Costs.eat?_bind`, `Rule.Costs.nested` — how rules are put together.
* `Rule.CostsAt.recovered` — recovery pays for itself, unless it begins at the end of the text.
* **`Grammar.statementAt_costs`** — a statement.
* **`Grammar.declarationsOf_costs`** — several declarations.
-/

namespace LoxSyntax

/-! ## Recovery -/

namespace Cursor

theorem length_skips (c : Cursor) (skipped : Token) (ts : List Token) :
    (c.skips skipped ts).length + (Place.skipToStatement skipped ts).length = ts.length := by
  induction ts generalizing skipped with
  | nil => rfl
  | cons t ts ih =>
    rw [skips, Place.skipToStatement]
    split
    · simp
    · have hrest := ih t
      simp only [List.length_cons]
      omega

/-- Recovery passes a cursor for each token that it skips. -/
theorem length_resumption (c : Cursor) :
    c.resumption.length + c.toPlace.resume.unread.length = c.unread.length := by
  unfold resumption Place.resume
  cases hc : c.unread with
  | nil => simp [hc]
  | cons t ts =>
    have hskips := c.length_skips t ts
    simp only [List.length_cons]
    omega

end Cursor

namespace Rule

variable {α β : Type} {c : Cursor} {s f s' f' : Int}

/-! ## Costs -/

/-- A run of the rule passes 40 cursors for each token that it reads, and at most `s` more if it
succeeds and `f` more if it fails. -/
def CostsAt (rule : Rule α) (c : Cursor) (s f : Int) : Prop :=
  ∃ ds, rule.Passes c ds ∧ (ds.length : Int) + 40 * (rule c).cursor.unread.length ≤
    40 * c.unread.length + if (rule c).result.isSome then s else f

/-- No run of the rule costs more. -/
def Costs (rule : Rule α) (s f : Int) : Prop :=
  ∀ c, rule.CostsAt c s f

namespace CostsAt

variable {rule : Rule α} {next : α → Rule β}

theorem mono (h : rule.CostsAt c s f) (hs : s ≤ s') (hf : f ≤ f') : rule.CostsAt c s' f' := by
  obtain ⟨ds, hds, hcost⟩ := h
  refine ⟨ds, hds, ?_⟩
  cases hresult : (rule c).result <;> simp [hresult] at hcost ⊢ <;> omega

/-- A step that reads nothing. -/
theorem step (h : Step rule) (hcursor : (rule c).cursor = c) : rule.CostsAt c 1 1 := by
  refine ⟨_, .step h c, ?_⟩
  rw [hcursor, ite_self]
  simp
  omega

/-- A step that reads a token. -/
theorem step_read (h : Step rule) {t : Token} {ts : List Token} (hts : c.unread = t :: ts)
    (hcursor : (rule c).cursor = c.upTo ts) : rule.CostsAt c (-39) (-39) := by
  refine ⟨_, .step h c, ?_⟩
  rw [hcursor, hts, ite_self]
  simp
  omega

theorem bind_of_some {a : α} (h : rule.CostsAt c s f) (hsome : (rule c).result = some a)
    (hnext : (next a).CostsAt (rule c).cursor s' f') :
    (rule >>= next).CostsAt c (s + s') (s + f') := by
  obtain ⟨ds, hds, hcost⟩ := h
  obtain ⟨es, hes, hcost'⟩ := hnext
  refine ⟨ds ++ es, .bind hds hsome hes, ?_⟩
  rw [bind_reply, hsome]
  cases hresult : (next a (rule c).cursor).result <;>
    simp [hsome, hresult] at hcost hcost' ⊢ <;> omega

/-- A sequence costs what its rules cost, up to the first failure. -/
theorem bind (h : rule.CostsAt c s f) (hnext : ∀ a, (next a).CostsAt (rule c).cursor s' f') :
    (rule >>= next).CostsAt c (s + s') (max f (s + f')) := by
  cases hresult : (rule c).result with
  | none =>
    obtain ⟨ds, hds, hcost⟩ := h
    refine ⟨ds, .failed hds hresult, ?_⟩
    rw [bind_reply, hresult]
    simp [hresult] at hcost ⊢
    omega
  | some a => exact (h.bind_of_some hresult (hnext a)).mono (Int.le_refl _) (Int.le_max_right _ _)

theorem map (g : α → β) (h : rule.CostsAt c s f) :
    (g <$> rule).CostsAt c (s + 1) (max f (s + 1)) := by
  rw [map_eq_pure_bind]
  exact h.bind fun a => .step (.pure (g a)) rfl

theorem place_bind {next : Place → Rule β} (h : (next c.toPlace).CostsAt c s f) :
    (place >>= next).CostsAt c (1 + s) (1 + f) :=
  bind_of_some (step .place rfl) rfl h

theorem next?_bind {next : Option Token → Rule β} (h : (next c.unread.head?).CostsAt c s f) :
    (next? >>= next).CostsAt c (1 + s) (1 + f) :=
  bind_of_some (step .next? rfl) rfl h

theorem report_bind {problem : Problem} (h : problem.isStructural = false) (p : Place)
    {next : Unit → Rule β} (hnext : (next ()).CostsAt c s f) :
    (report problem p >>= next).CostsAt c (1 + s) (1 + f) :=
  bind_of_some (step (.report h p) rfl) rfl hnext

theorem declaring_bind (p : Place) {next : Unit → Rule β} (hnext : (next ()).CostsAt c s f) :
    (note (.declaring p) >>= next).CostsAt c (1 + s) (1 + f) :=
  bind_of_some (step (.declaring p) rfl) rfl hnext

theorem skip_bind {next : Unit → Rule β} {t : Token} {ts : List Token}
    (hts : c.unread = t :: ts) (h : (next ()).CostsAt (c.upTo ts) s f) :
    (skip >>= next).CostsAt c (-39 + s) (-39 + f) := by
  have hcursor : (skip c).cursor = c.upTo ts := by
    simp only [skip, hts, List.tail_cons, Cursor.upTo]
  exact bind_of_some (step_read .skip hts hcursor) rfl (hcursor ▸ h)

/-- At the ceiling nothing is nested. -/
theorem full (rule : Rule α) (h : ¬ c.depth < c.ceiling) : (nested rule).CostsAt c s 1 := by
  refine ⟨_, .full rule h, ?_⟩
  rw [nested_of_not_lt rule h]
  simp [fail, failAt]
  omega

/-- A level is opened and closed again. -/
theorem nested (h : rule.CostsAt c.deeper s f) (hlt : c.depth < c.ceiling) :
    (Rule.nested rule).CostsAt c (s + 2) (f + 2) := by
  obtain ⟨ds, hds, hcost⟩ := h
  refine ⟨_, .nested hlt hds, ?_⟩
  rw [nested_of_lt rule hlt]
  cases hresult : (rule c.deeper).result <;>
    simp [Reply.shallower, hresult] at hcost ⊢ <;> omega

/-- Where something is left to read, recovery reads a token, which pays for it. -/
theorem recovered (h : rule.CostsAt c s f) (hs : s ≤ f - 39) :
    let k := if (Rule.recovered rule c).cursor.unread = [] then f else f - 39
    (Rule.recovered rule).CostsAt c k k := by
  intro k
  obtain ⟨ds, hds, hcost⟩ := h
  cases hresult : (rule c).result with
  | some a =>
    refine ⟨ds, .succeeded hds hresult, ?_⟩
    have hk : f - 39 ≤ k := by
      simp only [k]
      split <;> omega
    rw [ite_self, recovered_reply, hresult]
    simp [hresult] at hcost ⊢
    omega
  | none =>
    refine ⟨_, .resumed hds hresult, ?_⟩
    have hlen := (rule c).cursor.length_resumption
    have hresumed := (rule c).cursor.toPlace.resume_unread_suffix.length_le
    rw [List.length_tail] at hresumed
    have hk : k = if (rule c).cursor.toPlace.resume.unread = [] then f else f - 39 := by
      simp only [k, recovered_reply, hresult]
    rw [ite_self, hk, recovered_reply, hresult]
    simp [hresult] at hcost ⊢
    split
    · omega
    · next hne =>
      have hpos := List.length_pos_iff.2 hne
      omega

end CostsAt

namespace Costs

theorem mono {rule : Rule α} (h : rule.Costs s f) (hs : s ≤ s') (hf : f ≤ f') :
    rule.Costs s' f' :=
  fun c => (h c).mono hs hf

theorem pure (a : α) : (Pure.pure a : Rule α).Costs 1 1 :=
  fun _ => .step (.pure a) rfl

theorem failAt (p : Place) : (Rule.failAt .expectedLiteral p : Rule α).Costs 1 1 :=
  fun _ => .step (.failAt p) rfl

theorem fail {problem : Problem} (h : problem.isStructural = true) :
    (Rule.fail problem : Rule α).Costs s 1 := by
  intro c
  refine ⟨_, .step (.fail h) c, ?_⟩
  simp [Rule.fail, Rule.failAt]
  omega

theorem bind {rule : Rule α} {next : α → Rule β} (h : rule.Costs s f)
    (hnext : ∀ a, (next a).Costs s' f') : (rule >>= next).Costs (s + s') (max f (s + f')) :=
  fun c => (h c).bind fun a => hnext a _

theorem bind_pure {rule : Rule α} {g : α → β} (h : rule.Costs s f) (hs : s ≤ f - 1) :
    (rule >>= fun a => Pure.pure (g a)).Costs (s + 1) f :=
  (h.bind fun a => .pure (g a)).mono (Int.le_refl _) (by omega)

theorem place_bind {next : Place → Rule β} (h : ∀ p, (next p).Costs s f) :
    (place >>= next).Costs (1 + s) (1 + f) :=
  fun c => .place_bind (h c.toPlace c)

theorem report_bind {problem : Problem} (h : problem.isStructural = false) (p : Place)
    {next : Unit → Rule β} (hnext : (next ()).Costs s f) :
    (report problem p >>= next).Costs (1 + s) (1 + f) :=
  fun c => .report_bind h p (hnext c)

/-- A token that is accepted pays for the rest. -/
theorem eat?_bind {accepts : TokenKind → Bool} {next : Option Token → Rule β}
    (hsome : ∀ t, (next (some t)).Costs s f) (hnone : (next none).Costs s' f') :
    (eat? accepts >>= next).Costs (max (s - 39) (s' + 1)) (max (f - 39) (f' + 1)) := by
  intro c
  by_cases h : ∃ t ts, c.unread = t :: ts ∧ accepts t.kind
  · obtain ⟨t, ts, hts, ht⟩ := h
    have heat := eat?_of_accepts hts ht
    have hread := CostsAt.step_read (.eat? accepts) hts (by rw [heat])
    exact (hread.bind_of_some (by rw [heat]) (hsome t _)).mono (by omega) (by omega)
  · have hnot : ∀ t ts, c.unread = t :: ts → accepts t.kind = false := by
      intro t ts hts
      simpa using fun ht => h ⟨t, ts, hts, ht⟩
    have heat := eat?_of_not_accepts hnot
    have hstay := CostsAt.step (.eat? accepts) (by rw [heat])
    exact (hstay.bind_of_some (by rw [heat]) (hnone _)).mono (by omega) (by omega)

/-- A choice by a token. -/
theorem ite_eat {kind : TokenKind} {yes no : Rule α} (hyes : yes.Costs s f)
    (hno : no.Costs s' f') :
    (do if ← Rule.eat kind then yes else no : Rule α).Costs (max (s - 39) (s' + 1))
      (max (f - 39) (f' + 1)) := by
  rw [eat_bind]
  exact eat?_bind (fun _ => hyes) hno

/-- A token that is lacking costs no more than the failure. -/
theorem expect_bind {landmark : Landmark} {next : Token → Rule β} (h : ∀ t, (next t).Costs s f) :
    (expect landmark >>= next).Costs (s - 39) (max (f - 39) 2) := by
  have hfound : ∀ t, (Pure.pure t >>= next : Rule β).Costs s f := by
    intro t
    rw [pure_bind]
    exact h t
  have hlacking : (Rule.fail (.expected landmark) >>= next : Rule β).Costs (s - 40) 1 :=
    .fail rfl
  have hchoice : (expect landmark >>= next).Costs (max (s - 39) (s - 40 + 1))
      (max (f - 39) (1 + 1)) := by
    rw [expect, bind_assoc]
    exact eat?_bind hfound hlacking
  exact hchoice.mono (by omega) (by omega)

theorem nested {rule : Rule α} (h : rule.Costs s f) (hf : -1 ≤ f) :
    (Rule.nested rule).Costs (s + 2) (f + 2) := by
  intro c
  by_cases hlt : c.depth < c.ceiling
  · exact (h c.deeper).nested hlt
  · exact (CostsAt.full rule hlt).mono (Int.le_refl _) (by omega)

/-- Every round but the last reads an operator, which pays for it. -/
theorem chain (p : Precedence) {operand : Rule Expr} (h : operand.Costs s f) (hs : s ≤ -1)
    (hf : 2 ≤ f) (rounds : List Token) : ∀ lhs, (Rule.chain p operand rounds lhs).Costs 2 f := by
  induction rounds with
  | nil => exact fun lhs => (Costs.pure lhs).mono (by omega) (by omega)
  | cons _ rounds ih =>
    intro lhs
    have hround : ∀ op, (do
        let rhs ← operand
        Rule.chain p operand rounds (p.join lhs op rhs) : Rule Expr).Costs (s + 2) f :=
      fun op => (h.bind fun rhs => ih (p.join lhs op rhs)).mono (Int.le_refl _) (by omega)
    exact (eat?_bind hround (.pure lhs)).mono (by omega) (by omega)

theorem leftAssociative (p : Precedence) {operand : Rule Expr} (h : operand.Costs s f)
    (hs : s ≤ -1) (hf : 2 ≤ f) (hs' : s + 3 ≤ s') : (Rule.leftAssociative p operand).Costs s' f :=
  (h.bind fun lhs => .place_bind fun start => .chain p h hs hf start.unread lhs).mono
    (by omega) (by omega)

end Costs

end Rule

/-! ## Expressions -/

namespace Grammar

open Rule

section Expressions

variable {deeper : Opening → Rule Expr}
  (hexpression : (deeper .expression).Costs (-3) 7)
  (hassignment : (deeper .assignment).Costs (-6) 7)
  (hunary : (deeper .unary).Costs (-33) 5)

section Chains

include hunary

theorem product_costs : (product deeper).Costs (-30) 5 :=
  .leftAssociative _ hunary (by decide) (by decide) (by decide)

theorem sum_costs : (sum deeper).Costs (-27) 5 :=
  .leftAssociative _ (product_costs hunary) (by decide) (by decide) (by decide)

theorem comparison_costs : (comparison deeper).Costs (-24) 5 :=
  .leftAssociative _ (sum_costs hunary) (by decide) (by decide) (by decide)

theorem equality_costs : (equality deeper).Costs (-21) 5 :=
  .leftAssociative _ (comparison_costs hunary) (by decide) (by decide) (by decide)

theorem conjunction_costs : (conjunction deeper).Costs (-18) 5 :=
  .leftAssociative _ (equality_costs hunary) (by decide) (by decide) (by decide)

theorem disjunction_costs : (disjunction deeper).Costs (-15) 5 :=
  .leftAssociative _ (conjunction_costs hunary) (by decide) (by decide) (by decide)

end Chains

include hexpression hunary

theorem conditional_costs : (conditional deeper).Costs (-12) 5 :=
  ((disjunction_costs hunary).bind fun _ => .ite_eat
    (hexpression.bind fun _ => .expect_bind fun _ => hexpression.bind fun _ => .pure _)
    (.pure _)).mono (by decide) (by decide)

include hassignment

theorem assignment_costs : (assignment deeper).Costs (-8) 5 := by
  refine ((conditional_costs hexpression hunary).bind fun target => .place_bind fun equals =>
    .ite_eat (hassignment.bind fun value => (?_ : Costs _ 2 2)) (.pure _)).mono
      (by decide) (by decide)
  split
  · exact (Costs.pure _).mono (by decide) (by decide)
  · have hreported : (do
        report .invalidAssignmentTarget equals
        return target : Rule Expr).Costs (1 + 1) (1 + 1) := .report_bind rfl equals (.pure target)
    exact hreported

theorem comma_costs : (comma deeper).Costs (-5) 5 :=
  .leftAssociative _ (assignment_costs hexpression hassignment hunary) (by decide) (by decide)
    (by decide)

omit hexpression hassignment hunary in
theorem literal_costs (t : Token) {c : Cursor} {u : Token} {us : List Token}
    (hus : c.unread = u :: us) : (literal t).CostsAt c (-37) (-37) := by
  refine (CostsAt.place_bind (.skip_bind hus (?_ : CostsAt _ _ 1 1))).mono (by decide) (by decide)
  split
  · exact Costs.pure _ _
  · exact Costs.pure _ _
  · exact Costs.failAt _ _

omit hexpression hassignment hunary in
theorem missingOperand_costs {operand : Rule Expr} {s f : Int} (h : operand.Costs s f)
    (hs : s ≤ f - 1) {c : Cursor} {t : Token} {ts : List Token} (hts : c.unread = t :: ts) :
    (missingOperand operand).CostsAt c (s - 36) (f - 37) := by
  refine (CostsAt.place_bind (CostsAt.report_bind (?_ : Problem.isStructural _ = false) c.toPlace
    (.skip_bind hts (h.bind_pure hs _)))).mono (by omega) (by omega)
  rfl

omit hassignment in
theorem primary_costs : (primary deeper).Costs (-36) 2 := by
  intro c
  refine (CostsAt.next?_bind (?_ : CostsAt _ _ (-37) 1)).mono (by decide) (by decide)
  cases hts : c.unread with
  | nil => exact Costs.fail rfl c
  | cons t ts =>
    -- whatever the first token is, it is read, unless no expression begins with it
    have hbehind : ∀ {next : Unit → Rule Expr}, (next ()).Costs 2 7 →
        (Rule.skip >>= next).CostsAt c (-37) 1 :=
      fun hnext => (CostsAt.skip_bind hts (hnext _)).mono (by decide) (by decide)
    have hmissing : ∀ {operand : Rule Expr}, operand.Costs (-21) 5 →
        (missingOperand operand).CostsAt c (-37) 1 :=
      fun h => (missingOperand_costs h (by decide) hts).mono (by decide) (by decide)
    rw [List.head?_cons]
    dsimp only
    split
    · exact hbehind ((Costs.pure _).mono (by decide) (by decide))
    · exact hbehind ((Costs.pure _).mono (by decide) (by decide))
    · exact hbehind ((Costs.pure _).mono (by decide) (by decide))
    · exact (literal_costs t hts).mono (by decide) (by decide)
    · exact (literal_costs t hts).mono (by decide) (by decide)
    · exact hbehind ((hexpression.bind fun _ => .expect_bind fun _ => .pure _).mono
        (by decide) (by decide))
    · exact hbehind ((Costs.pure _).mono (by decide) (by decide))
    · split
      · exact hmissing (equality_costs hunary)
      · exact hmissing ((comparison_costs hunary).mono (by decide) (by decide))
      · exact hmissing ((sum_costs hunary).mono (by decide) (by decide))
      · exact hmissing ((product_costs hunary).mono (by decide) (by decide))
      · exact Costs.fail rfl c

omit hassignment in
theorem unary_costs : (unary deeper).Costs (-35) 3 :=
  (Costs.eat?_bind (fun _ => hunary.bind fun _ => .pure _) (primary_costs hexpression hunary)).mono
    (by decide) (by decide)

end Expressions

/-- What an opening leaves over of the tokens that it reads, and what it costs if it fails. -/
theorem atRoom_costs (m : Nat) :
    (atRoom m .expression).Costs (-3) 7 ∧ (atRoom m .assignment).Costs (-6) 7 ∧
      (atRoom m .unary).Costs (-33) 5 := by
  induction m with
  | zero =>
    have hfail : ∀ {s f : Int}, 1 ≤ f → ∀ o, (atRoom 0 o).Costs s f :=
      fun hf _ => (Costs.fail rfl).mono (Int.le_refl _) hf
    exact ⟨hfail (by decide) _, hfail (by decide) _, hfail (by decide) _⟩
  | succ m ih =>
    obtain ⟨hexpression, hassignment, hunary⟩ := ih
    exact ⟨(comma_costs hexpression hassignment hunary).nested (by decide),
      ((assignment_costs hexpression hassignment hunary).nested (by decide)),
      (unary_costs hexpression hunary).nested (by decide)⟩

/-! ## Statements

`expr` and `stmt` are the rules for expressions and statements at this level. -/

section Statements

variable {expr : Rule Expr} {stmt : Rule Stmt} (he : expr.Costs (-3) 7) (hs : stmt.Costs (-36) 10)

include he

theorem terminated_costs : (terminated expr).Costs (-41) 7 :=
  (he.bind fun _ => .expect_bind fun _ => .pure _).mono (by decide) (by decide)

theorem variableDeclaration_costs : (variableDeclaration expr).Costs (-76) 2 :=
  (Costs.expect_bind fun _ => .ite_eat
    (he.bind fun _ => .expect_bind fun _ => .pure _)
    (.expect_bind fun _ => .pure _)).mono (by decide) (by decide)

theorem unlessNext_costs (kind : TokenKind) : (unlessNext expr kind).Costs 2 8 := by
  refine (Costs.place_bind fun p => (?_ : Costs _ 1 7)).mono (by decide) (by decide)
  split
  · exact (Costs.pure _).mono (by decide) (by decide)
  · exact (he.bind fun _ => .pure _).mono (by decide) (by decide)

theorem forInitial_costs : (forInitial expr).Costs (-38) 9 :=
  (Costs.ite_eat (.pure _) <| .ite_eat
    ((variableDeclaration_costs he).bind fun _ => .pure _)
    ((terminated_costs he).bind fun _ => .pure _)).mono (by decide) (by decide)

include hs

/-- A declaration is paid for by its tokens, unless it fails at the end of the text. -/
theorem declarationOf_costs (c : Cursor) :
    let k := if (declarationOf expr stmt c).cursor.unread = [] then 13 else -26
    (declarationOf expr stmt).CostsAt c k k := by
  have hrule : (do if ← eat .varWord then variableDeclaration expr else stmt : Rule Stmt).Costs
      (-35) 11 :=
    (Costs.ite_eat (variableDeclaration_costs he) hs).mono (by decide) (by decide)
  have hrecovered := (hrule c).recovered (by decide)
  have hdeclaration : (declarationOf expr stmt).CostsAt c _ _ :=
    .place_bind (.declaring_bind c.toPlace hrecovered)
  have hcursor : (declarationOf expr stmt c).cursor = (Rule.recovered (do
      if ← eat .varWord then variableDeclaration expr else stmt) c).cursor := by
    rw [declarationOf, Rule.place_bind, note_bind]
  intro k
  refine CostsAt.mono hdeclaration ?_ ?_ <;> simp only [k, hcursor] <;> split <;> decide

omit he hs in
/-- Whatever is declared is paid for by the tokens, up to the end of the text. -/
theorem declarationsOf_costs {declaration : Rule (Option Stmt)}
    (h : ∀ c, let k := if (declaration c).cursor.unread = [] then 13 else -26
      declaration.CostsAt c k k) (last : TokenKind) (rounds : List Token) :
    ∀ c, let k := if c.unread = [] then 2 else 17
      (declarationsOf declaration last rounds).CostsAt c k k := by
  induction rounds with
  | nil =>
    intro c k
    refine (Costs.pure _ c).mono ?_ ?_ <;> simp only [k] <;> split <;> decide
  | cons _ rounds ih =>
    intro c k
    have hk : 2 ≤ k := by
      simp only [k]
      split <;> decide
    refine (CostsAt.place_bind (?_ : CostsAt _ c (k - 1) (k - 1))).mono (by omega) (by omega)
    dsimp only
    split
    · exact (Costs.pure _ c).mono (by omega) (by omega)
    · next hgo =>
      have hne : c.unread ≠ [] := by
        intro hnil
        exact hgo (.inl (by rw [c.kind_eq_nextKind, hnil, nextKind_nil]))
      have hk : k = 17 := if_neg hne
      refine ((h c).bind fun first => (ih _).map _).mono ?_ ?_ <;> rw [hk] <;> split <;> decide

/-- The opening brace pays for what fails at the end of the text. -/
theorem block_costs : (block expr stmt).Costs (-17) 23 := by
  have hbody : ∀ rounds,
      (declarationsOf (declarationOf expr stmt) .rightBrace rounds).Costs 17 17 := by
    intro rounds c
    refine (declarationsOf_costs (declarationOf_costs he hs) .rightBrace rounds c).mono ?_ ?_ <;>
      split <;> decide
  exact (Costs.place_bind fun start => (hbody start.unread).bind fun _ => .expect_bind fun _ =>
    .pure _).mono (by decide) (by decide)

theorem conditionalStatement_costs : (conditionalStatement expr stmt).Costs (-40) 2 :=
  (Costs.expect_bind fun _ => he.bind fun _ => .expect_bind fun _ => hs.bind fun _ =>
    .ite_eat (hs.bind fun _ => .pure _) (.pure _)).mono (by decide) (by decide)

theorem whileLoop_costs : (whileLoop expr stmt).Costs (-40) 2 :=
  (Costs.expect_bind fun _ => he.bind fun _ => .expect_bind fun _ => hs.bind fun _ =>
    .pure _).mono (by decide) (by decide)

theorem forLoop_costs : (forLoop expr stmt).Costs (-40) 2 :=
  (Costs.expect_bind fun _ => (forInitial_costs he).bind fun _ =>
    (unlessNext_costs he _).bind fun _ => .expect_bind fun _ =>
      (unlessNext_costs he _).bind fun _ => .expect_bind fun _ => hs.bind fun _ =>
        .pure _).mono (by decide) (by decide)

theorem statementBody_costs : (statementBody expr stmt).Costs (-38) 8 := by
  intro c
  refine (CostsAt.place_bind (?_ : CostsAt _ c (-39) 7)).mono (by decide) (by decide)
  have hsimple : (do return .expression (← terminated expr) : Rule Stmt).Costs (-40) 7 :=
    ((terminated_costs he).bind fun _ => .pure _).mono (by decide) (by decide)
  rw [c.kind_eq_nextKind]
  cases hts : c.unread with
  | nil => exact (hsimple c).mono (by decide) (by decide)
  | cons t ts =>
    have hbehind : ∀ {next : Unit → Rule Stmt}, (next ()).Costs (-17) 23 →
        (Rule.skip >>= next).CostsAt c (-39) 7 :=
      fun hnext => (CostsAt.skip_bind hts (hnext _)).mono (by decide) (by decide)
    rw [nextKind_cons]
    split
    · exact hbehind (((terminated_costs he).bind fun _ => .pure _).mono (by decide) (by decide))
    · exact hbehind (block_costs he hs)
    · exact hbehind ((conditionalStatement_costs he hs).mono (by decide) (by decide))
    · exact hbehind ((whileLoop_costs he hs).mono (by decide) (by decide))
    · exact hbehind ((forLoop_costs he hs).mono (by decide) (by decide))
    · exact (hsimple c).mono (by decide) (by decide)

end Statements

/-- A statement leaves something over of its tokens, and costs little more than them if it fails. -/
theorem statementAt_costs (m : Nat) : (statementAt m).Costs (-36) 10 := by
  induction m with
  | zero => exact Costs.mono (.fail rfl) (Int.le_refl _) (by decide)
  | succ m ih => exact (statementBody_costs (atRoom_costs m).1 ih).nested (by decide)

end Grammar

end LoxSyntax
