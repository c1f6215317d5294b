import LoxSyntax.Proofs.Reading.Stops

/-!
# What was read is normal

Every tree that a rule gives is in normal form, with errors or without, and an operand is missing in
it only where that was reported.

* `Event.isMissing` — the report of a missing operand.
* **`Expr.Reads.isNormal`**, **`Stmt.Reads.isNormal`** — normal form.
* `Stmt.Reads.endsInIf_eq_false` — in front of `else` no `if` is left without one.
* **`Expr.Reads.missingCount_le`**, **`Stmt.Reads.missingCount_le`** — missing operands were
  reported.
-/

namespace LoxSyntax

/-- Whether an event reports a missing operand. -/
def Event.isMissing : Event → Bool
  | .diagnosed d => d.problem == .missingLeftOperand
  | _ => false

/-- Where nothing is reported, no missing operand is. -/
theorem countP_isMissing_eq_zero {ev : List Event} (hclean : ∀ d, .diagnosed d ∉ ev) :
    ev.countP Event.isMissing = 0 := by
  refine List.countP_eq_zero.2 fun event hevent => ?_
  cases event with
  | diagnosed d => exact absurd hevent (hclean d)
  | _ => simp [Event.isMissing]

/-! ## Expressions -/

namespace Expr.Reads

variable {endLine : UInt32} {m : Nat} {scope : Scope} {ts us : List Token} {e : Expr}
  {ev : List Event}

/-- What was read is at least as tight as the rule that read it. -/
theorem loosest_le (h : Expr.Reads endLine m scope ts e us ev) :
    scope.loosest ≤ e.precedence := by
  induction h with
  | @operand m p ts e us ev hp _ ih =>
    have hrank := Scope.loosest_operands hp
    show p.rank ≤ e.precedence.rank
    have : p.operands.loosest.rank ≤ e.precedence.rank := ih
    omega
  | join _ hop => exact Nat.le_of_eq (congrArg Precedence.rank (precedence_join hop _ _).symm)
  | close _ _ _ ih | opened _ ih => exact ih
  | unassigned _ _ ih | invalidTarget _ _ _ _ ih _ | unbranched _ _ ih | bare _ _ ih =>
    exact Precedence.le_trans (by decide) ih
  | _ => exact Nat.le_refl _

/-- What was read is normal. -/
theorem isNormal (h : Expr.Reads endLine m scope ts e us ev) : e.isNormal := by
  induction h with
  | operand _ _ ih | close _ _ _ ih | unassigned _ _ ih | unbranched _ _ ih | bare _ _ ih
  | opened _ ih => exact ih
  | @join m p ts lhs op us rhs vs ev ev' left hop right ih ih' =>
    have hrank := Scope.loosest_operands (TokenKind.isChain_of_precedence? hop)
    have hlhs : p ≤ lhs.precedence := left.loosest_le
    have hrhs : p < rhs.precedence := by
      have := right.loosest_le
      show p.rank < rhs.precedence.rank
      have : p.operands.loosest.rank ≤ rhs.precedence.rank := this
      omega
    rw [isNormal_join hop]
    simp [fitBeside, ih, ih', hlhs, hrhs, left.endsInConditional_eq_false hop]
  | @assign m ts x equals us v vs ev ev' _ _ value ih ih' =>
    have hlevel : .assignment ≤ v.precedence := value.loosest_le
    simp only [Expr.isNormal] at ih
    simp [Expr.isNormal, ih, ih', hlevel]
  | invalidTarget _ _ _ _ ih _ => exact ih
  | @conditional m ts c question us yes colon vs no ws ev ev' ev'' hcondition _ _ _ _ ih ih' ih'' =>
    have hlevel : .disjunction ≤ c.precedence := hcondition.loosest_le
    simp [Expr.isNormal, ih, ih', ih'', hlevel]
  | @unary m op ts e us ev hop arg ih =>
    have hlevel : .unary ≤ e.precedence := arg.loosest_le
    simp [Expr.isNormal, ih, hop, hlevel]
  | name hx => simp [Expr.isNormal, hx]
  | group _ _ _ ih => exact ih
  | no | yes | nil | number | string | missing => rfl

/-- Every missing operand was reported. -/
theorem missingCount_le (h : Expr.Reads endLine m scope ts e us ev) :
    e.missingCount ≤ ev.countP Event.isMissing := by
  induction h with
  | operand _ _ ih | close _ _ _ ih | unassigned _ _ ih | unbranched _ _ ih | bare _ _ ih
  | unary _ _ ih | group _ _ _ ih | opened _ ih => exact ih
  | join _ _ _ ih ih' =>
    rw [missingCount_join, List.countP_append]
    exact Nat.add_le_add ih ih'
  | assign _ _ _ _ ih' =>
    rw [List.countP_append]
    exact Nat.le_trans ih' (Nat.le_add_left _ _)
  | invalidTarget _ _ _ _ ih _ =>
    rw [List.countP_append]
    exact Nat.le_trans ih (Nat.le_add_right _ _)
  | conditional _ _ _ _ _ ih ih' ih'' =>
    simp only [missingCount, List.countP_append]
    omega
  | missing =>
    rw [List.countP_cons_of_pos (by rfl)]
    exact Nat.le_add_left _ _
  | no | yes | nil | number | string | name => exact Nat.zero_le _

end Expr.Reads

/-! ## Parts of statements -/

section Parts

variable {endLine : UInt32} {m : Nat} {ts us : List Token} {ev : List Event}

theorem Expr.ReadsEnded.isNormal {e : Expr} (h : Expr.ReadsEnded endLine m ts e us ev) :
    e.isNormal := by
  obtain ⟨_, hreads, -⟩ := h
  exact hreads.isNormal

theorem Expr.ReadsEnded.missingCount_le {e : Expr}
    (h : Expr.ReadsEnded endLine m ts e us ev) :
    e.missingCount ≤ ev.countP Event.isMissing := by
  obtain ⟨_, hreads, -⟩ := h
  exact hreads.missingCount_le

theorem Expr.ReadsOptional.isNormal {kind : TokenKind} {o : Option Expr}
    (h : Expr.ReadsOptional endLine m kind ts o us ev) : ∀ e ∈ o, e.isNormal := by
  cases h with
  | none => exact fun e he => nomatch he
  | some _ value =>
    rintro e ⟨⟩
    exact value.isNormal

theorem Expr.ReadsOptional.missingCount_le {kind : TokenKind} {o : Option Expr}
    (h : Expr.ReadsOptional endLine m kind ts o us ev) :
    (o.map Expr.missingCount).getD 0 ≤ ev.countP Event.isMissing := by
  cases h with
  | none => exact Nat.le_refl _
  | some _ value => exact value.missingCount_le

theorem Stmt.ReadsVariable.isNormal {s : Stmt} (h : Stmt.ReadsVariable endLine m ts s us ev) :
    s.isNormal := by
  cases h with
  | bare hname => simp [Stmt.isNormal, hname]
  | valued hname _ value => simp [Stmt.isNormal, hname, value.isNormal]

theorem Stmt.ReadsVariable.missingCount_le {s : Stmt}
    (h : Stmt.ReadsVariable endLine m ts s us ev) :
    s.missingCount ≤ ev.countP Event.isMissing := by
  cases h with
  | bare => exact Nat.zero_le _
  | valued _ _ value => exact value.missingCount_le

theorem Stmt.ReadsInitial.isNormal {o : Option Stmt}
    (h : Stmt.ReadsInitial endLine m ts o us ev) : ∀ s ∈ o, s.isNormal := by
  cases h with
  | none => exact fun s hs => nomatch hs
  | declared _ declaration =>
    rintro s ⟨⟩
    exact declaration.isNormal
  | stated _ _ value =>
    rintro s ⟨⟩
    exact value.isNormal

theorem Stmt.ReadsInitial.missingCount_le {o : Option Stmt}
    (h : Stmt.ReadsInitial endLine m ts o us ev) :
    (o.map Stmt.missingCount).getD 0 ≤ ev.countP Event.isMissing := by
  cases h with
  | none => exact Nat.le_refl _
  | declared _ declaration => exact declaration.missingCount_le
  | stated _ _ value => exact value.missingCount_le

end Parts

/-! ## What a `for` loop stands for -/

namespace Stmt

variable {i : Option Stmt} {c n : Option Expr} {s : Stmt}

theorem isDeclaration_ofFor : (ofFor i c n s).isDeclaration = false := by
  cases i <;> rfl

theorem endsInIf_ofFor (hs : s.endsInIf = false) : (ofFor i c n s).endsInIf = false := by
  cases i with
  | none =>
    cases n with
    | none => exact hs
    | some e => rfl
  | some s' => rfl

theorem isNormal_ofFor (hi : ∀ s' ∈ i, s'.isNormal) (hc : ∀ e ∈ c, e.isNormal)
    (hn : ∀ e ∈ n, e.isNormal) (hs : s.isNormal) (hdeclaration : s.isDeclaration = false) :
    (ofFor i c n s).isNormal := by
  have hcondition : (c.getD (.bool true)).isNormal := by
    cases c with
    | none => rfl
    | some e => exact hc e rfl
  cases i <;> cases n <;>
    simp_all [ofFor, isNormal, Program.isNormal, isDeclaration]

theorem missingCount_ofFor :
    (ofFor i c n s).missingCount = (i.map Stmt.missingCount).getD 0 +
      (c.map Expr.missingCount).getD 0 + (n.map Expr.missingCount).getD 0 + s.missingCount := by
  have hcondition : (c.getD (.bool true)).missingCount = (c.map Expr.missingCount).getD 0 := by
    cases c <;> rfl
  cases i <;> cases n <;>
    simp only [ofFor, missingCount, Program.missingCount, hcondition, Option.map_some,
      Option.map_none, Option.getD_some, Option.getD_none] <;> omega

/-- Whether a derivation is of one statement that is no declaration. -/
def Scope.isStatement : Scope → Bool
  | statement | body => true
  | declaration | declarations _ => false

end Stmt

/-! ## Statements -/

namespace Stmt.Reads

variable {endLine : UInt32} {m : Nat} {scope : Stmt.Scope} {ts us : List Token}
  {ss : List Stmt} {ev : List Event}

/-- Where a statement is read, no variable is declared. -/
theorem isDeclaration_eq_false (h : Stmt.Reads endLine m scope ts ss us ev)
    (hscope : scope.isStatement) : ∀ s ∈ ss, s.isDeclaration = false := by
  induction h with
  | opened _ ih => exact ih rfl
  | forLoop =>
    rintro s hs
    obtain rfl := List.mem_singleton.1 hs
    exact isDeclaration_ofFor
  | print | expression | block | ifThen | ifElse | loop =>
    rintro s hs
    obtain rfl := List.mem_singleton.1 hs
    rfl
  | declared | stated | skipped | done | next => cases hscope

/-- In front of `else` no `if` is left without one. -/
theorem endsInIf_eq_false (h : Stmt.Reads endLine m scope ts ss us ev)
    (hscope : scope.isStatement) (helse : nextKind us = .elseWord) :
    ∀ s ∈ ss, s.endsInIf = false := by
  induction h with
  | opened _ ih => exact ih rfl helse
  | ifThen _ _ _ _ _ stop => exact absurd helse stop
  | ifElse _ _ _ _ _ _ _ _ ih =>
    have hlast := ih rfl helse _ (List.mem_singleton.2 rfl)
    rintro s hs
    obtain rfl := List.mem_singleton.1 hs
    exact hlast
  | loop _ _ _ _ _ ih =>
    have hlast := ih rfl helse _ (List.mem_singleton.2 rfl)
    rintro s hs
    obtain rfl := List.mem_singleton.1 hs
    exact hlast
  | forLoop _ _ _ _ _ _ _ _ ih =>
    rintro s hs
    obtain rfl := List.mem_singleton.1 hs
    exact endsInIf_ofFor (ih rfl helse _ (List.mem_singleton.2 rfl))
  | print | expression | block =>
    rintro s hs
    obtain rfl := List.mem_singleton.1 hs
    rfl
  | declared | stated | skipped | done | next => cases hscope

/-- What was read is normal. -/
theorem isNormal (h : Stmt.Reads endLine m scope ts ss us ev) : Program.isNormal ss := by
  induction h with
  | opened _ ih | stated _ _ ih => exact ih
  | print _ value | expression _ value =>
    simp [Program.isNormal, Stmt.isNormal, value.isNormal]
  | block _ _ _ ih => simpa [Program.isNormal, Stmt.isNormal] using ih
  | ifThen _ _ condition _ yes _ ih | loop _ _ condition _ yes ih =>
    have hdeclaration := yes.isDeclaration_eq_false rfl _ (List.mem_singleton.2 rfl)
    simp only [Program.isNormal, Bool.and_true] at ih
    simp [Program.isNormal, Stmt.isNormal, condition.isNormal, ih, hdeclaration]
  | ifElse _ _ condition _ yes hother no ih ih' =>
    have hyes := yes.isDeclaration_eq_false rfl _ (List.mem_singleton.2 rfl)
    have hno := no.isDeclaration_eq_false rfl _ (List.mem_singleton.2 rfl)
    have hend := yes.endsInIf_eq_false rfl hother _ (List.mem_singleton.2 rfl)
    simp only [Program.isNormal, Bool.and_true] at ih ih'
    simp [Program.isNormal, Stmt.isNormal, condition.isNormal, ih, ih', hyes, hno, hend]
  | forLoop _ _ initial condition _ increment _ body ih =>
    have hdeclaration := body.isDeclaration_eq_false rfl _ (List.mem_singleton.2 rfl)
    simp only [Program.isNormal, Bool.and_true] at ih ⊢
    exact isNormal_ofFor initial.isNormal condition.isNormal increment.isNormal ih hdeclaration
  | declared _ inner => simp [Program.isNormal, inner.isNormal]
  | skipped | done => rfl
  | next _ _ _ ih ih' => rw [Program.isNormal_append, ih, ih']; rfl

/-- Every missing operand was reported. -/
theorem missingCount_le (h : Stmt.Reads endLine m scope ts ss us ev) :
    Program.missingCount ss ≤ ev.countP Event.isMissing := by
  induction h with
  | opened _ ih => exact ih
  | print _ value | expression _ value => exact value.missingCount_le
  | block _ _ _ ih => exact ih
  | ifThen _ _ condition _ _ _ ih | loop _ _ condition _ _ ih =>
    have := condition.missingCount_le
    simp only [Program.missingCount, Stmt.missingCount, List.countP_append] at ih ⊢
    omega
  | ifElse _ _ condition _ _ _ _ ih ih' =>
    have := condition.missingCount_le
    simp only [Program.missingCount, Stmt.missingCount, List.countP_append] at ih ih' ⊢
    omega
  | forLoop _ _ initial condition _ increment _ _ ih =>
    have h₁ := initial.missingCount_le
    have h₂ := condition.missingCount_le
    have h₃ := increment.missingCount_le
    simp only [Program.missingCount, missingCount_ofFor, List.countP_append] at ih ⊢
    omega
  | declared _ inner =>
    rw [List.countP_cons_of_neg (by simp [Event.isMissing])]
    exact inner.missingCount_le
  | stated _ _ ih =>
    rw [List.countP_cons_of_neg (by simp [Event.isMissing])]
    exact ih
  | skipped | done => exact Nat.zero_le _
  | next _ _ _ ih ih' =>
    rw [Program.missingCount_append, List.countP_append]
    exact Nat.add_le_add ih ih'

end Stmt.Reads

end LoxSyntax
