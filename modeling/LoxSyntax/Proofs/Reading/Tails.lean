import LoxSyntax.Proofs.Reading.Stops

/-!
# What stands behind

A derivation depends on the tokens it reads and on the kind of the one behind them.  Whatever else
stands behind makes no difference, and neither does that kind, as long as it does not go on with
what was read; nor do more levels to open than were there.  Only the places of the events change.

* `problemsOf` — the problems that some events tell of.
* **`Expr.Reads.retail`** — an expression in front of other tokens.
* **`Stmt.Reads.retail`** — statements in front of other tokens.
* **`Stmt.Reads.append`** — declarations in front of further ones.
-/

namespace LoxSyntax

/-! ## Problems -/

/-- The problem that an event tells of. -/
def Event.problem? : Event → Option Problem
  | diagnosed d => some d.problem
  | declaring _ | recovering _ => none

/-- The problems that some events tell of, in order. -/
def problemsOf (ev : List Event) : List Problem :=
  ev.filterMap Event.problem?

section Problems

variable {ev ev' : List Event}

@[simp] theorem problemsOf_nil : problemsOf [] = [] := rfl

@[simp] theorem problemsOf_append : problemsOf (ev ++ ev') = problemsOf ev ++ problemsOf ev' :=
  List.filterMap_append

@[simp] theorem problemsOf_diagnosed (d : Diagnostic) :
    problemsOf (.diagnosed d :: ev) = d.problem :: problemsOf ev := rfl

@[simp] theorem problemsOf_declaring (p : Place) :
    problemsOf (.declaring p :: ev) = problemsOf ev := rfl

theorem mem_problemsOf {problem : Problem} :
    problem ∈ problemsOf ev ↔ ∃ d, .diagnosed d ∈ ev ∧ d.problem = problem := by
  simp only [problemsOf, List.mem_filterMap]
  constructor
  · rintro ⟨event, hevent, hproblem⟩
    cases event with
    | diagnosed d => exact ⟨d, hevent, Option.some.inj hproblem⟩
    | _ => cases hproblem
  · rintro ⟨d, hd, rfl⟩
    exact ⟨_, hd, rfl⟩

theorem problemsOf_eq_nil : problemsOf ev = [] ↔ ∀ d, .diagnosed d ∉ ev := by
  rw [List.eq_nil_iff_forall_not_mem]
  constructor
  · exact fun h d hd => h d.problem (mem_problemsOf.2 ⟨d, hd, rfl⟩)
  · intro h problem hproblem
    obtain ⟨d, hd, -⟩ := mem_problemsOf.1 hproblem
    exact h d hd

theorem unbroken_iff : Unbroken ev ↔ ∀ problem ∈ problemsOf ev, problem.isStructural = false := by
  constructor
  · intro h problem hproblem
    obtain ⟨d, hd, rfl⟩ := mem_problemsOf.1 hproblem
    exact h d hd
  · exact fun h d hd => h d.problem (mem_problemsOf.2 ⟨d, hd, rfl⟩)

/-- Whether a rule is ended is told by the problems alone. -/
theorem Unbroken.of_problemsOf (h : Unbroken ev) (heq : problemsOf ev' = problemsOf ev) :
    Unbroken ev' := by
  rw [unbroken_iff, heq]
  exact unbroken_iff.1 h

end Problems

/-! ## Expressions -/

theorem nextKind_append {used : List Token} (h : used ≠ []) (us vs : List Token) :
    nextKind (used ++ us) = nextKind (used ++ vs) := by
  cases used with
  | nil => exact absurd rfl h
  | cons t ts => rfl

namespace TokenKind

/-- A kind that goes on with an expression just as another one does, or not at all. -/
def EndsLike (k l : TokenKind) : Prop :=
  k = l ∨ k.continuation? = none

variable {k l : TokenKind} (h : k.EndsLike l)

include h

theorem EndsLike.precedence?_ne {p : Precedence} (hl : l.precedence? ≠ some p) :
    k.precedence? ≠ some p := by
  rcases h with rfl | hnone
  · exact hl
  · intro hp
    rw [continuation?_of_precedence? hp] at hnone
    cases hnone

theorem EndsLike.ne {k' : TokenKind} (hk' : k'.continuation? ≠ none) (hl : l ≠ k') : k ≠ k' := by
  rcases h with rfl | hnone
  · exact hl
  · rintro rfl
    exact hk' hnone

end TokenKind

namespace Expr.Reads

variable {endLine : UInt32} {m : Nat} {scope : Scope} {ts us : List Token} {e : Expr}
  {ev : List Event}

/-- An expression is read in the same way in front of other tokens, if the first of these does not
go on with it, and where more levels may be opened. -/
theorem retail (h : Expr.Reads endLine m scope ts e us ev) (endLine' : UInt32) {m' : Nat}
    (hm : m ≤ m') (us' : List Token) (hus : (nextKind us').EndsLike (nextKind us)) :
    ∃ used ev', used ≠ [] ∧ ts = used ++ us ∧ problemsOf ev' = problemsOf ev ∧
      Expr.Reads endLine' m' scope (used ++ us') e us' ev' := by
  induction h generalizing m' us' with
  | operand hp _ ih =>
    obtain ⟨used, ev', hne, hts, hev, hreads⟩ := ih hm us' hus
    exact ⟨used, ev', hne, hts, hev, .operand hp hreads⟩
  | @join m p ts lhs op us rhs vs ev₁ ev₂ _ hop _ ih ih' =>
    obtain ⟨used₂, ev₂', -, rfl, hev₂, hright⟩ := ih' hm us' hus
    obtain ⟨used₁, ev₁', hne, rfl, hev₁, hleft⟩ :=
      ih hm (op :: (used₂ ++ us')) (.inl rfl)
    refine ⟨used₁ ++ op :: used₂, ev₁' ++ ev₂', by simp, by simp, by simp [hev₁, hev₂], ?_⟩
    simpa using hleft.join hop hright
  | close hp _ stop ih =>
    obtain ⟨used, ev', hne, hts, hev, hreads⟩ := ih hm us' hus
    exact ⟨used, ev', hne, hts, hev, .close hp hreads (hus.precedence?_ne stop)⟩
  | unassigned _ stop ih =>
    obtain ⟨used, ev', hne, hts, hev, hreads⟩ := ih hm us' hus
    exact ⟨used, ev', hne, hts, hev, .unassigned hreads (hus.ne (by decide) stop)⟩
  | @assign m ts x equals us v vs ev₁ ev₂ _ hequals _ ih ih' =>
    obtain ⟨used₂, ev₂', -, rfl, hev₂, hvalue⟩ := ih' hm us' hus
    obtain ⟨used₁, ev₁', hne, rfl, hev₁, htarget⟩ :=
      ih hm (equals :: (used₂ ++ us')) (.inl rfl)
    refine ⟨used₁ ++ equals :: used₂, ev₁' ++ ev₂', by simp, by simp, by simp [hev₁, hev₂], ?_⟩
    simpa using htarget.assign hequals hvalue
  | @invalidTarget m ts e equals us v vs ev₁ ev₂ _ hequals hne' _ ih ih' =>
    obtain ⟨used₂, ev₂', -, rfl, hev₂, hvalue⟩ := ih' hm us' hus
    obtain ⟨used₁, ev₁', hne, rfl, hev₁, htarget⟩ :=
      ih hm (equals :: (used₂ ++ us')) (.inl rfl)
    refine ⟨used₁ ++ equals :: used₂, ev₁' ++ (ev₂' ++ [.diagnosed
      ⟨.invalidAssignmentTarget, ⟨equals :: (used₂ ++ us'), endLine'⟩⟩]), by simp, by simp,
      by simp [hev₁, hev₂], ?_⟩
    simpa using htarget.invalidTarget hequals hne' hvalue
  | unbranched _ stop ih =>
    obtain ⟨used, ev', hne, hts, hev, hreads⟩ := ih hm us' hus
    exact ⟨used, ev', hne, hts, hev, .unbranched hreads (hus.ne (by decide) stop)⟩
  | @conditional m ts c question us y colon vs n ws ev₁ ev₂ ev₃ _ hquestion _ hcolon _ ih ih'
      ih'' =>
    obtain ⟨used₃, ev₃', -, rfl, hev₃, hno⟩ := ih'' hm us' hus
    obtain ⟨used₂, ev₂', -, rfl, hev₂, hyes⟩ :=
      ih' hm (colon :: (used₃ ++ us')) (.inl rfl)
    obtain ⟨used₁, ev₁', hne, rfl, hev₁, hcondition⟩ :=
      ih hm (question :: (used₂ ++ colon :: (used₃ ++ us'))) (.inl rfl)
    refine ⟨used₁ ++ question :: used₂ ++ colon :: used₃, ev₁' ++ (ev₂' ++ ev₃'), by simp, by simp,
      by simp [hev₁, hev₂, hev₃], ?_⟩
    simpa using hcondition.conditional hquestion hyes hcolon hno
  | @unary m op ts e us ev hop _ ih =>
    obtain ⟨used, ev', -, rfl, hev, harg⟩ := ih hm us' hus
    exact ⟨op :: used, ev', by simp, rfl, hev, .unary hop harg⟩
  | bare hnext _ ih =>
    obtain ⟨used, ev', hne, rfl, hev, hatom⟩ := ih hm us' hus
    refine ⟨used, ev', hne, rfl, hev, .bare ?_ hatom⟩
    rwa [nextKind_append hne _ _]
  | @no m t ts ht => exact ⟨[t], [], by simp, rfl, rfl, .no ht⟩
  | @yes m t ts ht => exact ⟨[t], [], by simp, rfl, rfl, .yes ht⟩
  | @nil m t ts ht => exact ⟨[t], [], by simp, rfl, rfl, .nil ht⟩
  | @number m t ts value ht hvalue => exact ⟨[t], [], by simp, rfl, rfl, .number ht hvalue⟩
  | @string m t ts text ht htext => exact ⟨[t], [], by simp, rfl, rfl, .string ht htext⟩
  | @group m left ts e right us ev hleft _ hright ih =>
    obtain ⟨used, ev', -, rfl, hev, hinner⟩ := ih hm (right :: us') (.inl rfl)
    refine ⟨left :: used ++ [right], ev', by simp, by simp, hev, ?_⟩
    simpa using Expr.Reads.group hleft hinner hright
  | @name m x ts hx => exact ⟨[x], [], by simp, rfl, rfl, .name hx⟩
  | @missing m op p ts e us ev hop hp _ ih =>
    obtain ⟨used, ev', -, rfl, hev, hoperand⟩ := ih hm us' hus
    exact ⟨op :: used, _, by simp, rfl, by simp [hev], .missing hop hp hoperand⟩
  | @opened m o ts e us ev _ ih =>
    obtain ⟨m', rfl⟩ := Nat.exists_eq_add_of_le' (Nat.le_trans (Nat.le_add_left 1 m) hm)
    obtain ⟨used, ev', hne, hts, hev, hinner⟩ := ih (Nat.le_of_succ_le_succ hm) us' hus
    exact ⟨used, ev', hne, hts, hev, .opened hinner⟩

/-- An expression was read without a problem that ends a rule. -/
theorem unbroken (h : Expr.Reads endLine m scope ts e us ev) : Unbroken ev := by
  induction h with
  | operand _ _ ih | close _ _ _ ih | unassigned _ _ ih | unbranched _ _ ih | bare _ _ ih
  | opened _ ih | unary _ _ ih | group _ _ _ ih => exact ih
  | join _ _ _ ih ih' | assign _ _ _ ih ih' | invalidTarget _ _ _ _ ih ih' =>
    simp only [unbroken_append]
    refine ⟨ih, ?_⟩
    first | exact ih' | exact ⟨ih', by simp [unbroken_iff, Problem.isStructural]⟩
  | conditional _ _ _ _ _ ih ih' ih'' =>
    simp only [unbroken_append]
    exact ⟨ih, ih', ih''⟩
  | no | yes | nil | number | string | name => simp [unbroken_iff]
  | missing _ _ _ ih => simpa [unbroken_iff, Problem.isStructural] using ih

end Expr.Reads

/-! ## Statements -/

section Parts

variable {endLine : UInt32} {m : Nat} {ts us : List Token} {ev : List Event}

/-- An expression and its semicolon, in front of any other tokens. -/
theorem Expr.ReadsEnded.retail {e : Expr} (h : Expr.ReadsEnded endLine m ts e us ev)
    (endLine' : UInt32) {m' : Nat} (hm : m ≤ m') (us' : List Token) :
    ∃ used ev', used ≠ [] ∧ ts = used ++ us ∧ problemsOf ev' = problemsOf ev ∧
      Expr.ReadsEnded endLine' m' (used ++ us') e us' ev' := by
  obtain ⟨semicolon, hreads, hsemicolon⟩ := h
  obtain ⟨used, ev', -, rfl, hev, hreads'⟩ :=
    hreads.retail endLine' hm (semicolon :: us') (.inl rfl)
  refine ⟨used ++ [semicolon], ev', by simp, by simp, hev, semicolon, ?_, hsemicolon⟩
  simpa using hreads'

/-- An optional expression in front of a token of the same kind. -/
theorem Expr.ReadsOptional.retail {kind : TokenKind} {o : Option Expr}
    (h : Expr.ReadsOptional endLine m kind ts o us ev) (endLine' : UInt32) {m' : Nat}
    (hm : m ≤ m') (us' : List Token) (hus : nextKind us' = nextKind us) :
    ∃ used ev', ts = used ++ us ∧ problemsOf ev' = problemsOf ev ∧
      Expr.ReadsOptional endLine' m' kind (used ++ us') o us' ev' := by
  cases h with
  | none stop => exact ⟨[], [], rfl, rfl, .none (hus.trans stop)⟩
  | some start value =>
    obtain ⟨used, ev', hne, rfl, hev, hvalue⟩ := value.retail endLine' hm us' (.inl hus)
    refine ⟨used, ev', rfl, hev, .some ?_ hvalue⟩
    rwa [nextKind_append hne us' us]

theorem Stmt.ReadsVariable.retail {s : Stmt} (h : Stmt.ReadsVariable endLine m ts s us ev)
    (endLine' : UInt32) {m' : Nat} (hm : m ≤ m') (us' : List Token) :
    ∃ used ev', used ≠ [] ∧ ts = used ++ us ∧ problemsOf ev' = problemsOf ev ∧
      Stmt.ReadsVariable endLine' m' (used ++ us') s us' ev' := by
  cases h with
  | @bare name semicolon _ hname hsemicolon =>
    exact ⟨[name, semicolon], [], by simp, rfl, rfl, .bare hname hsemicolon⟩
  | @valued name equals _ _ _ _ hname hequals value =>
    obtain ⟨used, ev', -, rfl, hev, hvalue⟩ := value.retail endLine' hm us'
    exact ⟨name :: equals :: used, ev', by simp, rfl, hev, .valued hname hequals hvalue⟩

theorem Stmt.ReadsInitial.retail {o : Option Stmt}
    (h : Stmt.ReadsInitial endLine m ts o us ev) (endLine' : UInt32) {m' : Nat} (hm : m ≤ m')
    (us' : List Token) :
    ∃ used ev', used ≠ [] ∧ ts = used ++ us ∧ problemsOf ev' = problemsOf ev ∧
      Stmt.ReadsInitial endLine' m' (used ++ us') o us' ev' := by
  cases h with
  | @none semicolon _ hsemicolon => exact ⟨[semicolon], [], by simp, rfl, rfl, .none hsemicolon⟩
  | @declared word _ _ _ _ hword declaration =>
    obtain ⟨used, ev', -, rfl, hev, hdeclaration⟩ := declaration.retail endLine' hm us'
    exact ⟨word :: used, ev', by simp, rfl, hev, .declared hword hdeclaration⟩
  | stated hsemicolon hword value =>
    obtain ⟨used, ev', hne, rfl, hev, hvalue⟩ := value.retail endLine' hm us'
    rw [nextKind_append hne us us'] at hsemicolon hword
    exact ⟨used, ev', hne, rfl, hev, .stated hsemicolon hword hvalue⟩

end Parts

/-- Whether a derivation that stops in front of `us` can stop in front of `us'` as well. -/
def Stmt.Scope.EndsLike (scope : Stmt.Scope) (us' us : List Token) : Prop :=
  match scope with
  | declarations last =>
    (nextKind us' = .eof ∨ nextKind us' = last) ∧ nextKind us' ≠ .elseWord
  | _ => nextKind us' = nextKind us ∨ nextKind us' ≠ .elseWord

namespace Stmt.Reads

variable {endLine : UInt32} {m : Nat} {scope : Stmt.Scope} {ts us : List Token} {ss : List Stmt}
  {ev : List Event}

/-- Statements are read in the same way in front of other tokens, if the first of these does not go
on with them, and where more levels may be opened. -/
theorem retail (h : Stmt.Reads endLine m scope ts ss us ev) (hev : Unbroken ev)
    (endLine' : UInt32) {m' : Nat} (hm : m ≤ m') (us' : List Token)
    (hus : scope.EndsLike us' us) :
    ∃ used ev', ts = used ++ us ∧ problemsOf ev' = problemsOf ev ∧
      Stmt.Reads endLine' m' scope (used ++ us') ss us' ev' := by
  induction h generalizing m' us' with
  | @opened m ts ss us ev _ ih =>
    obtain ⟨m', rfl⟩ := Nat.exists_eq_add_of_le' (Nat.le_trans (Nat.le_add_left 1 m) hm)
    obtain ⟨used, ev', hts, hev', hinner⟩ := ih hev (Nat.le_of_succ_le_succ hm) us' hus
    exact ⟨used, ev', hts, hev', .opened hinner⟩
  | @print m word ts e us ev hword value =>
    obtain ⟨used, ev', -, rfl, hev', hvalue⟩ := value.retail endLine' hm us'
    exact ⟨word :: used, ev', rfl, hev', .print hword hvalue⟩
  | expression hnext value =>
    obtain ⟨used, ev', hne, rfl, hev', hvalue⟩ := value.retail endLine' hm us'
    rw [nextKind_append hne _ us'] at hnext
    exact ⟨used, ev', rfl, hev', .expression hnext hvalue⟩
  | @block m left ts ss right us ev hleft _ hright ih =>
    obtain ⟨used, ev', rfl, hev', hinner⟩ :=
      ih hev hm (right :: us') ⟨.inr hright, by simp [hright]⟩
    refine ⟨left :: used ++ [right], ev', by simp, hev', ?_⟩
    simpa using Stmt.Reads.block hleft hinner hright
  | @ifThen m word left ts c right us s vs ev ev' hword hleft condition hright _ stop ih =>
    rw [unbroken_append] at hev
    obtain ⟨used₂, ev₂, rfl, hev₂, hyes⟩ := ih hev.2 hm us' hus
    obtain ⟨used₁, ev₁, -, rfl, hev₁, hcondition⟩ :=
      condition.retail endLine' hm (right :: (used₂ ++ us')) (.inl rfl)
    refine ⟨word :: left :: used₁ ++ right :: used₂, ev₁ ++ ev₂, by simp, by simp [hev₁, hev₂], ?_⟩
    have hstop : nextKind us' ≠ .elseWord := by
      rcases hus with hsame | hne
      · rwa [hsame]
      · exact hne
    simpa using Stmt.Reads.ifThen hword hleft hcondition hright hyes hstop
  | @ifElse m word left ts c right us s other vs s' ws ev ev' ev'' hword hleft condition hright _
      hother _ ih ih' =>
    rw [unbroken_append, unbroken_append] at hev
    obtain ⟨used₃, ev₃, rfl, hev₃, hno⟩ := ih' hev.2.2 hm us' hus
    obtain ⟨used₂, ev₂, rfl, hev₂, hyes⟩ :=
      ih hev.2.1 hm (other :: (used₃ ++ us')) (.inl rfl)
    obtain ⟨used₁, ev₁, -, rfl, hev₁, hcondition⟩ := condition.retail endLine' hm
      (right :: (used₂ ++ other :: (used₃ ++ us'))) (.inl rfl)
    refine ⟨word :: left :: used₁ ++ right :: used₂ ++ other :: used₃, ev₁ ++ (ev₂ ++ ev₃),
      by simp, by simp [hev₁, hev₂, hev₃], ?_⟩
    simpa using Stmt.Reads.ifElse hword hleft hcondition hright hyes hother hno
  | @loop m word left ts c right us s vs ev ev' hword hleft condition hright _ ih =>
    rw [unbroken_append] at hev
    obtain ⟨used₂, ev₂, rfl, hev₂, hbody⟩ := ih hev.2 hm us' hus
    obtain ⟨used₁, ev₁, -, rfl, hev₁, hcondition⟩ :=
      condition.retail endLine' hm (right :: (used₂ ++ us')) (.inl rfl)
    refine ⟨word :: left :: used₁ ++ right :: used₂, ev₁ ++ ev₂, by simp, by simp [hev₁, hev₂], ?_⟩
    simpa using Stmt.Reads.loop hword hleft hcondition hright hbody
  | @forLoop m word left ts i us c semicolon vs n right ws s xs ev ev' ev'' ev''' hword hleft
      initial condition hsemicolon increment hright _ ih =>
    rw [unbroken_append, unbroken_append, unbroken_append] at hev
    obtain ⟨used₄, ev₄, rfl, hev₄, hbody⟩ := ih hev.2.2.2 hm us' hus
    obtain ⟨used₃, ev₃, rfl, hev₃, hincrement⟩ :=
      increment.retail endLine' hm (right :: (used₄ ++ us')) rfl
    obtain ⟨used₂, ev₂, rfl, hev₂, hcondition⟩ := condition.retail endLine' hm
      (semicolon :: (used₃ ++ right :: (used₄ ++ us'))) rfl
    obtain ⟨used₁, ev₁, -, rfl, hev₁, hinitial⟩ := initial.retail endLine' hm
      (used₂ ++ semicolon :: (used₃ ++ right :: (used₄ ++ us')))
    refine ⟨word :: left :: used₁ ++ used₂ ++ semicolon :: used₃ ++ right :: used₄,
      ev₁ ++ (ev₂ ++ (ev₃ ++ ev₄)), by simp, by simp [hev₁, hev₂, hev₃, hev₄], ?_⟩
    simpa using
      Stmt.Reads.forLoop hword hleft hinitial hcondition hsemicolon hincrement hright hbody
  | @declared m word ts s us ev hword inner =>
    obtain ⟨used, ev', -, rfl, hev', hinner⟩ := inner.retail endLine' hm us'
    exact ⟨word :: used, .declaring ⟨word :: (used ++ us'), endLine'⟩ :: ev', rfl, hev',
      .declared hword hinner⟩
  | stated hnext inner ih =>
    obtain ⟨used, ev', rfl, hev', hinner⟩ := ih hev.tail hm us' hus
    have hne : used ≠ [] := by
      rintro rfl
      exact absurd inner.length_le (by simp [Scope.reading])
    rw [nextKind_append hne _ us'] at hnext
    exact ⟨used, .declaring ⟨used ++ us', endLine'⟩ :: ev', rfl, hev', .stated hnext hinner⟩
  | skipped _ _ reported =>
    obtain ⟨d, hd, hmem⟩ := reported
    rw [hev d hmem] at hd
    cases hd
  | done => exact ⟨[], [], rfl, rfl, .done hus.1⟩
  | @next m last ts ss us ss' vs ev ev' start first _ ih ih' =>
    rw [unbroken_append] at hev
    obtain ⟨used₂, ev₂, rfl, hev₂, hrest⟩ := ih' hev.2 hm us' hus
    have hseam : Stmt.Scope.declaration.EndsLike (used₂ ++ us') (used₂ ++ vs) := by
      cases used₂ with
      | nil => exact .inr hus.2
      | cons t used₂ => exact .inl rfl
    obtain ⟨used₁, ev₁, rfl, hev₁, hfirst⟩ := ih hev.1 hm _ hseam
    have hne : used₁ ≠ [] := by
      rintro rfl
      exact absurd first.length_le (by simp [Scope.reading])
    rw [nextKind_append hne _ (used₂ ++ us')] at start
    refine ⟨used₁ ++ used₂, ev₁ ++ ev₂, by simp, by simp [hev₁, hev₂], ?_⟩
    simpa using Stmt.Reads.next start hfirst hrest

/-- What stands behind declarations that were read to the end is read as further declarations. -/
theorem append (h : Stmt.Reads endLine m (.declarations .eof) ts ss [] ev) (hev : Unbroken ev)
    {endLine' : UInt32} {m' : Nat} (hm : m ≤ m') {us vs : List Token} {ss' : List Stmt}
    {ev' : List Event} (hrest : Stmt.Reads endLine' m' (.declarations .eof) us ss' vs ev')
    (hus : nextKind us ≠ .elseWord) :
    ∃ ev₁, problemsOf ev₁ = problemsOf ev ∧
      Stmt.Reads endLine' m' (.declarations .eof) (ts ++ us) (ss ++ ss') vs (ev₁ ++ ev') := by
  generalize hscope : Stmt.Scope.declarations .eof = scope at h
  generalize hnil : ([] : List Token) = xs at h
  induction h with
  | done =>
    cases hscope
    subst hnil
    exact ⟨[], rfl, hrest⟩
  | @next m last ts ss ws ss₂ xs ev ev₂ start first _ _ ih =>
    cases hscope
    rw [unbroken_append] at hev
    obtain ⟨ev₃, hev₃, hmore⟩ := ih hev.2 hm rfl hnil
    have hseam : Stmt.Scope.declaration.EndsLike (ws ++ us) ws := by
      cases ws with
      | nil => exact .inr hus
      | cons t ws => exact .inl rfl
    obtain ⟨used, ev₁, rfl, hev₁, hfirst⟩ := first.retail hev.1 endLine' hm _ hseam
    have hne : used ≠ [] := by
      rintro rfl
      exact absurd first.length_le (by simp [Scope.reading])
    rw [nextKind_append hne _ (ws ++ us)] at start
    refine ⟨ev₁ ++ ev₃, by simp [hev₁, hev₃], ?_⟩
    simpa using Stmt.Reads.next start hfirst hmore
  | _ => cases hscope

end Stmt.Reads

end LoxSyntax
