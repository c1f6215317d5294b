import LoxSyntax.Proofs.Canonical.Expression
import LoxSyntax.Proofs.Misfit.Completion

/-!
# Expressions that break off

Where the rule of an expression breaks at a token that does not fit, the tokens before that one are
the beginning of an expression all the same.

* `Expr.Reads.exists_used` — what has been read, in front of other tokens.
* `Grammar.Viable` — a rule whose breaks can all be completed.
* **`Grammar.atRoom_viable`** — expressions that break off can be completed.
-/

namespace LoxSyntax

/-! ## Expressions -/

namespace Expr.Reads

variable {endLine : UInt32} {m : Nat} {scope : Scope} {ts us : List Token} {e : Expr}
  {ev : List Event}

/-- What is read is read without a problem that ends a rule. -/
theorem completes (h : Expr.Reads endLine m scope ts e us ev) :
    ∃ e ev, Unbroken ev ∧ Expr.Reads endLine m scope ts e us ev :=
  ⟨e, ev, h.unbroken, h⟩

/-- What has been read is read in the same way in front of all that does not go on with it. -/
theorem exists_used (h : Expr.Reads endLine m scope ts e us ev) :
    ∃ used, ts = used ++ us ∧ ∀ endLine' ⦃m'⦄ us', m + 3 ≤ m' →
      (nextKind us').EndsLike (nextKind us) →
      ∃ ev', Expr.Reads endLine' m' scope (used ++ us') e us' ev' := by
  obtain ⟨used, rfl⟩ := h.suffix
  refine ⟨used, rfl, fun endLine' m' us' hm hus => ?_⟩
  obtain ⟨used', ev', -, hused, -, hreads⟩ :=
    h.retail endLine' (Nat.le_of_add_right_le hm) us' hus
  obtain rfl := List.append_cancel_right hused
  exact ⟨ev', hreads⟩

/-- In front of what closes it an expression can always stand. -/
theorem retails {kind : TokenKind} (hkind : kind.closes) :
    Retails kind (fun endLine m => Expr.Reads endLine m scope) m := by
  intro endLine ts e us ev h _
  have hlt := h.length_lt
  obtain ⟨used, rfl, hused⟩ := h.exists_used
  refine ⟨used, rfl, ?_, fun endLine' m' us' hm hus => ?_⟩
  · rintro rfl
    simp at hlt
  · obtain ⟨ev', hreads⟩ := hused endLine' us' hm (TokenKind.endsLike_of_closes (hus ▸ hkind) _)
    exact ⟨ev', hreads.unbroken, hreads⟩

/-- A name is an expression. -/
theorem sample (endLine : UInt32) {m : Nat} (hm : 2 ≤ m) (us : List Token)
    (hus : (nextKind us).continuation? = none) :
    Expr.Reads endLine m (.opened .expression) (Token.sample .identifier :: us)
      (.variable (.sample .identifier)) us [] :=
  @Expr.Found.whole endLine _ (found_variable rfl) m hm [.sample .identifier] us rfl hus

end Expr.Reads

namespace Grammar

open Rule

/-- Wherever the rule of a scope breaks, what it has read can be completed. -/
def Viable (rule : Rule Expr) (m : Nat) (scope : Scope) : Prop :=
  ∀ ⦃c d⦄, c.room = m → rule.Breaks c d →
    Completable (fun endLine m => Expr.Reads endLine m scope) (fun k => k.closes) m c.unread
      d.place.unread

/-! ## Chains -/

section Chains

variable {p : Precedence} {operand : Rule Expr} {m : Nat} (hp : p.isChain)
  (hoperand : Follows operand m p.operands) (hviable : Viable operand m p.operands)

include hp hoperand hviable

/-- A chain that breaks off has read `lhs` and perhaps more, and breaks in an operand. -/
theorem chain_viable (rounds : List Token) :
    ∀ {c d lhs ts ev}, c.room = m → Expr.Reads c.endLine m (.chain p) ts lhs c.unread ev →
      (chain p operand rounds lhs).Breaks c d →
      Completable (fun endLine m => Expr.Reads endLine m (.level p)) (fun k => k.closes) m ts
        d.place.unread := by
  induction rounds with
  | nil => exact fun _ _ h => absurd h (not_breaks_pure _)
  | cons _ rounds ih =>
    intro c d lhs ts ev hroom hlhs h
    rcases Breaks.of_eat? h with ⟨op, us, hus, hop, hrest⟩ | ⟨-, hrest⟩
    · rw [hus] at hlhs
      replace hop : op.kind.precedence? = some p := by simpa using hop
      rcases hoperand.breaks_bind (c := c.upTo us) hroom hrest with
        hbreak | ⟨rhs, vs, ev', hrhs, -, hmore⟩
      · obtain ⟨used, rfl, hused⟩ := hlhs.exists_used
        refine (hviable (c := c.upTo us) hroom hbreak).behind (used ++ [op]) (by simp)
          (fun _ => id) ?_
        intro endLine m' us' vs rhs ev' hm hvs _ _ hrhs
        obtain ⟨_, hlhs⟩ := hused endLine (op :: us') hm (.inl rfl)
        have hall := Expr.Reads.close hp (hlhs.join hop hrhs)
          (by simp [TokenKind.precedence?_of_closes hvs])
        simpa using hall.completes
      · exact ih (c := c.upTo vs) hroom (hlhs.join hop hrhs) hmore
    · exact absurd hrest (not_breaks_pure _)

theorem leftAssociative_viable : Viable (leftAssociative p operand) m (.level p) := by
  intro c d hroom h
  rcases hoperand.breaks_bind hroom h with hbreak | ⟨lhs, us, ev, hlhs, -, hrest⟩
  · refine (hviable hroom hbreak).mono (fun _ => id) ?_
    intro endLine m' us' vs lhs ev hm hvs _ _ hlhs
    have hall := Expr.Reads.close hp (.operand hp hlhs)
      (by simp [TokenKind.precedence?_of_closes hvs])
    exact hall.completes
  · exact chain_viable hp hoperand hviable us (c := c.upTo us) hroom (.operand hp hlhs)
      (breaks_place_bind.1 hrest)

end Chains

/-! ## The levels -/

section Levels

variable {deeper : Opening → Rule Expr} {m : Nat} (h : ∀ o, Follows (deeper o) m (.opened o))
  (hv : ∀ o, Viable (deeper o) m (.opened o))

include h hv

theorem product_viable : Viable (product deeper) m (.level .product) :=
  leftAssociative_viable rfl (h .unary) (hv .unary)

theorem sum_viable : Viable (sum deeper) m (.level .sum) :=
  leftAssociative_viable rfl (product_follows h) (product_viable h hv)

theorem comparison_viable : Viable (comparison deeper) m (.level .comparison) :=
  leftAssociative_viable rfl (sum_follows h) (sum_viable h hv)

theorem equality_viable : Viable (equality deeper) m (.level .equality) :=
  leftAssociative_viable rfl (comparison_follows h) (comparison_viable h hv)

theorem conjunction_viable : Viable (conjunction deeper) m (.level .conjunction) :=
  leftAssociative_viable rfl (equality_follows h) (equality_viable h hv)

theorem disjunction_viable : Viable (disjunction deeper) m (.level .disjunction) :=
  leftAssociative_viable rfl (conjunction_follows h) (conjunction_viable h hv)

/-- A conditional breaks off in its condition, in a branch, or where a colon is lacking. -/
theorem conditional_viable : Viable (conditional deeper) m (.level .conditional) := by
  intro c d hroom hbreaks
  rcases (disjunction_follows h).breaks_bind hroom hbreaks with
    hbreak | ⟨condition, us, _, hcondition, -, hrest⟩
  · refine (disjunction_viable h hv hroom hbreak).mono (fun _ => id) ?_
    intro endLine m' us' vs condition ev hm hvs _ _ hcondition
    exact (hcondition.unbranched (TokenKind.ne_of_closes hvs rfl)).completes
  rcases Breaks.of_eat (by decide) hrest with ⟨question, vs, hvs, hquestion, hbranch⟩ | ⟨-, hpure⟩
  case inr.inr => exact absurd hpure (not_breaks_pure _)
  obtain rfl : us = question :: vs := hvs
  obtain ⟨used₁, hts, hused₁⟩ := hcondition.exists_used
  rcases demanded_completable .branchSeparator (h .expression) (hv .expression hroom)
      (Expr.Reads.retails rfl) rfl (c := c.upTo vs) hroom hbranch with
    hbreak | ⟨yes, colon, ws, _, hyes, -, hcolon, hbranch'⟩
  · refine hbreak.within (used₁ ++ [question]) [.identifier] (by simp [hts]) (by decide)
      (fun _ _ => trivial) ?_
    intro endLine m' us' xs yes _ hm hxs _ _ hyes
    obtain ⟨colon, hyes, hcolon⟩ := hyes
    obtain ⟨_, hcondition⟩ := hused₁ endLine (question :: us') hm (.inl rfl)
    have hno := Expr.Reads.sample endLine (m := m') (by omega) xs
      (TokenKind.continuation?_of_closes hxs)
    have hall := hcondition.conditional hquestion hyes hcolon hno
    simpa using hall.completes
  · obtain ⟨used₂, hvs, hused₂⟩ := hyes.exists_used
    obtain rfl : vs = used₂ ++ colon :: ws := hvs
    refine (hv .expression (c := c.upTo ws) hroom hbranch'.bind_pure).behind
      (used₁ ++ question :: used₂ ++ [colon]) (by simp [hts]) (fun _ => id) ?_
    intro endLine m' us' xs no _ hm hxs _ _ hno
    obtain ⟨_, hyes⟩ := hused₂ endLine (colon :: us') hm (.inl rfl)
    obtain ⟨_, hcondition⟩ := hused₁ endLine (question :: (used₂ ++ colon :: us')) hm (.inl rfl)
    have hall := hcondition.conditional hquestion hyes hcolon hno
    simpa using hall.completes

omit h hv in
/-- Whatever stands before an equals sign, the value behind it can be read. -/
theorem exists_assigned {endLine : UInt32} {ts us vs : List Token} {equals : Token}
    {target value : Expr} {ev ev' : List Event}
    (htarget : Expr.Reads endLine m (.level .conditional) ts target (equals :: us) ev)
    (hequals : equals.kind = .equal)
    (hvalue : Expr.Reads endLine m (.opened .assignment) us value vs ev') :
    ∃ e ev, Unbroken ev ∧ Expr.Reads endLine m (.level .assignment) ts e vs ev := by
  by_cases hname : ∃ x, target = .variable x
  · obtain ⟨x, rfl⟩ := hname
    exact (htarget.assign hequals hvalue).completes
  · exact (htarget.invalidTarget hequals (fun x hx => hname ⟨x, hx⟩) hvalue).completes

/-- An assignment breaks off in its target or in its value. -/
theorem assignment_viable : Viable (assignment deeper) m (.level .assignment) := by
  intro c d hroom hbreaks
  rcases (conditional_follows h).breaks_bind hroom hbreaks with
    hbreak | ⟨target, us, _, htarget, -, hrest⟩
  · refine (conditional_viable h hv hroom hbreak).mono (fun _ => id) ?_
    intro endLine m' us' vs target ev hm hvs _ _ htarget
    exact (htarget.unassigned (TokenKind.ne_of_closes hvs rfl)).completes
  rcases Breaks.of_eat (by decide) (breaks_place_bind.1 hrest) with
    ⟨equals, vs, hvs, hequals, hassign⟩ | ⟨-, hpure⟩
  case inr.inr => exact absurd hpure (not_breaks_pure _)
  obtain rfl : us = equals :: vs := hvs
  obtain ⟨used, hts, hused⟩ := htarget.exists_used
  rcases (h .assignment).breaks_bind (c := c.upTo vs) hroom hassign with
    hbreak | ⟨value, ws, _, -, -, hdropped⟩
  · refine (hv .assignment (c := c.upTo vs) hroom hbreak).behind (used ++ [equals])
      (by simp [hts]) (fun _ => id) ?_
    intro endLine m' us' xs value _ hm hxs _ _ hvalue
    obtain ⟨_, htarget⟩ := hused endLine (equals :: us') hm (.inl rfl)
    simpa using exists_assigned htarget hequals hvalue
  · split at hdropped
    · exact absurd hdropped (not_breaks_pure _)
    · refine absurd (hdropped.of_note ?_) (not_breaks_pure _)
      rintro _ ⟨rfl⟩
      rfl

theorem comma_viable : Viable (comma deeper) m (.level .comma) :=
  leftAssociative_viable rfl (assignment_follows h) (assignment_viable h hv)

omit h hv in
theorem not_breaks_literal (t : Token) {c : Cursor} {d : Diagnostic} :
    ¬ (literal t).Breaks c d := by
  intro hbreaks
  have hvalue := breaks_skip_bind.1 (breaks_place_bind.1 hbreaks)
  split at hvalue
  · exact not_breaks_pure _ hvalue
  · exact not_breaks_pure _ hvalue
  · exact not_breaks_failAt rfl hvalue

omit h hv in
/-- Behind an operator without its left operand the right one breaks off. -/
theorem missingOperand_viable {operand : Rule Expr} {p : Precedence} {c : Cursor} {d : Diagnostic}
    {op : Token} {ts : List Token} (hoperand : Viable operand m (.level p)) (hroom : c.room = m)
    (hts : c.unread = op :: ts) (hop : op.kind.precedence? = some p) (hp : .equality ≤ p)
    (hbreaks : (missingOperand operand).Breaks c d) :
    Completable (fun endLine m => Expr.Reads endLine m (.level .primary)) (fun k => k.closes) m
      (op :: ts) d.place.unread := by
  have hskip := (breaks_place_bind.1 hbreaks).of_note (by
    rintro _ ⟨rfl⟩
    rfl)
  have hbreak := (breaks_skip_bind.1 hskip).bind_pure
  rw [hts, List.tail_cons] at hbreak
  refine (hoperand (c := c.upTo ts) hroom hbreak).behind [op] rfl (fun _ => id) ?_
  intro endLine m' us' vs dropped ev hm hvs _ _ hdropped
  exact (Expr.Reads.missing hop hp hdropped).completes

/-- A group breaks off inside or where its parenthesis is lacking, and a name stands in for what is
no operand at all. -/
theorem primary_viable : Viable (primary deeper) m (.level .primary) := by
  intro c d hroom hbreaks
  have hblank : d.place = c.toPlace →
      Completable (fun endLine m => Expr.Reads endLine m (.level .primary)) (fun k => k.closes) m
        c.unread d.place.unread := by
    intro hplace
    refine ⟨[], [.identifier], by rw [hplace]; rfl, by decide, fun _ => rfl, ?_⟩
    intro endLine m' vs _ _
    exact (Expr.Reads.name (x := .sample .identifier) rfl).completes
  rw [primary, breaks_next?_bind] at hbreaks
  cases hts : c.unread with
  | nil =>
    rw [hts] at hbreaks hblank
    exact hblank hbreaks.of_fail
  | cons t ts =>
    rw [hts] at hblank
    rw [hts, List.head?_cons] at hbreaks
    dsimp only at hbreaks
    split at hbreaks
    · exact absurd (breaks_skip_bind.1 hbreaks) (not_breaks_pure _)
    · exact absurd (breaks_skip_bind.1 hbreaks) (not_breaks_pure _)
    · exact absurd (breaks_skip_bind.1 hbreaks) (not_breaks_pure _)
    · exact absurd hbreaks (not_breaks_literal t)
    · exact absurd hbreaks (not_breaks_literal t)
    · next hleft =>
      have hgroup := breaks_skip_bind.1 hbreaks
      rw [hts, List.tail_cons] at hgroup
      rcases demanded_completable .groupEnd (h .expression) (hv .expression hroom)
          (Expr.Reads.retails rfl) rfl (c := c.upTo ts) hroom hgroup with
        hbreak | ⟨_, _, _, _, -, -, -, hpure⟩
      · refine hbreak.behind [t] rfl (fun _ _ => trivial) ?_
        rintro endLine m' us' vs inner _ hm hvs _ _ ⟨right, hinner, hright⟩
        exact (hinner.group hleft hright).completes
      · exact absurd hpure (not_breaks_pure _)
    · exact absurd (breaks_skip_bind.1 hbreaks) (not_breaks_pure _)
    · split at hbreaks
      · next hop =>
        exact missingOperand_viable (equality_viable h hv) hroom hts hop (by decide) hbreaks
      · next hop =>
        exact missingOperand_viable (comparison_viable h hv) hroom hts hop (by decide) hbreaks
      · next hop =>
        exact missingOperand_viable (sum_viable h hv) hroom hts hop (by decide) hbreaks
      · next hop =>
        exact missingOperand_viable (product_viable h hv) hroom hts hop (by decide) hbreaks
      · exact hblank hbreaks.of_fail

theorem unary_viable : Viable (unary deeper) m (.level .unary) := by
  intro c d hroom hbreaks
  rcases hbreaks.of_eat? with ⟨op, ts, hts, hop, hrest⟩ | ⟨hnone, hbreak⟩
  · refine (hv .unary (c := c.upTo ts) hroom hrest.bind_pure).behind [op] hts
      (fun _ => id) ?_
    intro endLine m' us' vs arg ev hm hvs _ _ harg
    exact (Expr.Reads.unary hop harg).completes
  · have hstart : (nextKind c.unread).isUnary = false := by
      cases hts : c.unread with
      | nil => rfl
      | cons t ts => exact hnone t ts hts
    refine (primary_viable h hv hroom hbreak).mono (fun _ => id) ?_
    intro endLine m' us' vs e ev hm hvs hhead _ hatom
    refine (Expr.Reads.bare ?_ hatom).completes
    rcases hhead with hsame | hname
    · rwa [hsame]
    · rw [hname]
      rfl

theorem opened_viable : ∀ o, Viable (opened deeper o) m (.level o.level)
  | .expression => comma_viable h hv
  | .assignment => assignment_viable h hv
  | .unary => unary_viable h hv

end Levels

/-! ## The knot -/

/-- Expressions that break off can be completed. -/
theorem atRoom_viable (m : Nat) : ∀ o, Viable (atRoom m o) m (.opened o) := by
  induction m with
  | zero => exact fun o c d _ hbreaks => absurd hbreaks (not_breaks_failAt rfl)
  | succ m ih =>
    intro o c d hroom hbreaks
    have hopened := opened_viable (atRoom_follows m) ih o (c.deeper_room hroom)
      (Breaks.nested hroom hbreaks)
    exact hopened.opened fun _ _ _ _ e _ he => ⟨e, .opened he⟩

end Grammar

end LoxSyntax
