import LoxSyntax.Proofs.Reading.Expression
import LoxSyntax.Proofs.Rule.Widening

/-!
# How a statement is read

A successful run of a rule for statements, as a derivation over the derivations of its expressions.
Declarations that cannot be read are left out by recovery; of them the derivation only says that
something was skipped and that the reason was reported.

* `Stmt.Scope` — what a derivation is of: a statement, a declaration, or several declarations.
* `Expr.ReadsEnded`, `Expr.ReadsOptional`, `Stmt.ReadsVariable`, `Stmt.ReadsInitial` — the parts of
  a statement that hold no statement.
* `Stmt.Reads` — the derivations.
* **`Grammar.statementAt_reads`**, **`Grammar.program_reads`** — every successful run has a
  derivation.
* **`Stmt.Reads.gives`** — a derivation without a problem that ends a rule is a successful run.
-/

namespace LoxSyntax

/-! ## What is read -/

/-- An expression and its semicolon. -/
def Expr.ReadsEnded (endLine : UInt32) (m : Nat) (ts : List Token) (e : Expr) (us : List Token)
    (ev : List Event) : Prop :=
  ∃ semicolon, Expr.Reads endLine m (.opened .expression) ts e (semicolon :: us) ev ∧
    semicolon.kind = .semicolon

/-- An expression, or nothing in front of a token of some kind. -/
inductive Expr.ReadsOptional (endLine : UInt32) (m : Nat) (kind : TokenKind) :
    List Token → Option Expr → List Token → List Event → Prop
  | none {ts} (stop : nextKind ts = kind) : ReadsOptional endLine m kind ts none ts []
  | some {ts e us ev} (start : nextKind ts ≠ kind)
      (value : Expr.Reads endLine m (.opened .expression) ts e us ev) :
      ReadsOptional endLine m kind ts (some e) us ev

namespace Stmt

/-- A declaration behind its `var`. -/
inductive ReadsVariable (endLine : UInt32) (m : Nat) :
    List Token → Stmt → List Token → List Event → Prop
  | bare {name semicolon us} (hname : name.kind = .identifier)
      (hsemicolon : semicolon.kind = .semicolon) :
      ReadsVariable endLine m (name :: semicolon :: us) (.declare name none) us []
  | valued {name equals ts e us ev} (hname : name.kind = .identifier)
      (hequals : equals.kind = .equal) (value : Expr.ReadsEnded endLine m ts e us ev) :
      ReadsVariable endLine m (name :: equals :: ts) (.declare name (some e)) us ev

/-- The first clause of a `for` loop. -/
inductive ReadsInitial (endLine : UInt32) (m : Nat) :
    List Token → Option Stmt → List Token → List Event → Prop
  | none {semicolon us} (hsemicolon : semicolon.kind = .semicolon) :
      ReadsInitial endLine m (semicolon :: us) none us []
  | declared {word ts s us ev} (hword : word.kind = .varWord)
      (declaration : ReadsVariable endLine m ts s us ev) :
      ReadsInitial endLine m (word :: ts) (some s) us ev
  | stated {ts e us ev} (hsemicolon : nextKind ts ≠ .semicolon) (hword : nextKind ts ≠ .varWord)
      (value : Expr.ReadsEnded endLine m ts e us ev) :
      ReadsInitial endLine m ts (some (.expression e)) us ev

/-- What a derivation is of. -/
inductive Scope
  /-- A statement, which opens a level of nesting. -/
  | statement
  /-- The same one level deeper. -/
  | body
  | declaration
  /-- Declarations up to a token of some kind. -/
  | declarations (last : TokenKind)

end Stmt

/-- Whether a kind tells which statement it begins. -/
def TokenKind.leadsStatement : TokenKind → Bool
  | printWord | leftBrace | ifWord | whileWord | forWord => true
  | _ => false

/-- `Reads endLine m scope ts ss us events`: where `m` levels may still be opened, `ss` are read
from `ts`, and reading stops in front of `us`.  A statement is read as a list of one. -/
inductive Stmt.Reads (endLine : UInt32) :
    Nat → Stmt.Scope → List Token → List Stmt → List Token → List Event → Prop
  | opened {m ts ss us ev} (inner : Reads endLine m .body ts ss us ev) :
      Reads endLine (m + 1) .statement ts ss us ev
  | print {m word ts e us ev} (hword : word.kind = .printWord)
      (value : Expr.ReadsEnded endLine m ts e us ev) :
      Reads endLine m .body (word :: ts) [.print e] us ev
  | expression {m ts e us ev} (hnext : (nextKind ts).leadsStatement = false)
      (value : Expr.ReadsEnded endLine m ts e us ev) :
      Reads endLine m .body ts [.expression e] us ev
  | block {m left ts ss right us ev} (hleft : left.kind = .leftBrace)
      (inner : Reads endLine m (.declarations .rightBrace) ts ss (right :: us) ev)
      (hright : right.kind = .rightBrace) :
      Reads endLine m .body (left :: ts) [.block ss] us ev
  | ifThen {m word left ts c right us s vs ev ev'} (hword : word.kind = .ifWord)
      (hleft : left.kind = .leftParen)
      (condition : Expr.Reads endLine m (.opened .expression) ts c (right :: us) ev)
      (hright : right.kind = .rightParen) (yes : Reads endLine m .statement us [s] vs ev')
      (stop : nextKind vs ≠ .elseWord) :
      Reads endLine m .body (word :: left :: ts) [.ifThen c s] vs (ev ++ ev')
  | ifElse {m word left ts c right us s other vs s' ws ev ev' ev''} (hword : word.kind = .ifWord)
      (hleft : left.kind = .leftParen)
      (condition : Expr.Reads endLine m (.opened .expression) ts c (right :: us) ev)
      (hright : right.kind = .rightParen)
      (yes : Reads endLine m .statement us [s] (other :: vs) ev')
      (hother : other.kind = .elseWord) (no : Reads endLine m .statement vs [s'] ws ev'') :
      Reads endLine m .body (word :: left :: ts) [.ifElse c s s'] ws (ev ++ (ev' ++ ev''))
  | loop {m word left ts c right us s vs ev ev'} (hword : word.kind = .whileWord)
      (hleft : left.kind = .leftParen)
      (condition : Expr.Reads endLine m (.opened .expression) ts c (right :: us) ev)
      (hright : right.kind = .rightParen) (body : Reads endLine m .statement us [s] vs ev') :
      Reads endLine m .body (word :: left :: ts) [.loop c s] vs (ev ++ ev')
  | forLoop {m word left ts i us c semicolon vs n right ws s xs ev ev' ev'' ev'''}
      (hword : word.kind = .forWord) (hleft : left.kind = .leftParen)
      (initial : ReadsInitial endLine m ts i us ev)
      (condition : Expr.ReadsOptional endLine m .semicolon us c (semicolon :: vs) ev')
      (hsemicolon : semicolon.kind = .semicolon)
      (increment : Expr.ReadsOptional endLine m .rightParen vs n (right :: ws) ev'')
      (hright : right.kind = .rightParen) (body : Reads endLine m .statement ws [s] xs ev''') :
      Reads endLine m .body (word :: left :: ts) [.ofFor i c n s] xs
        (ev ++ (ev' ++ (ev'' ++ ev''')))
  | declared {m word ts s us ev} (hword : word.kind = .varWord)
      (inner : ReadsVariable endLine m ts s us ev) :
      Reads endLine m .declaration (word :: ts) [s] us (.declaring ⟨word :: ts, endLine⟩ :: ev)
  | stated {m ts s us ev} (hnext : nextKind ts ≠ .varWord)
      (inner : Reads endLine m .statement ts [s] us ev) :
      Reads endLine m .declaration ts [s] us (.declaring ⟨ts, endLine⟩ :: ev)
  /-- A declaration that cannot be read is left out. -/
  | skipped {m ts us ev} (hsuffix : us <:+ ts) (hlt : us.length < ts.length)
      (reported : ∃ d, d.problem.isStructural = true ∧ .diagnosed d ∈ ev) :
      Reads endLine m .declaration ts [] us ev
  | done {m last ts} (stop : nextKind ts = .eof ∨ nextKind ts = last) :
      Reads endLine m (.declarations last) ts [] ts []
  | next {m last ts ss us ss' vs ev ev'} (start : ¬ (nextKind ts = .eof ∨ nextKind ts = last))
      (first : Reads endLine m .declaration ts ss us ev)
      (rest : Reads endLine m (.declarations last) us ss' vs ev') :
      Reads endLine m (.declarations last) ts (ss ++ ss') vs (ev ++ ev')

/-! ## How much is read -/

section Lengths

variable {endLine : UInt32} {m : Nat} {ts us : List Token} {ev : List Event}

theorem Expr.ReadsEnded.length_lt {e : Expr} (h : Expr.ReadsEnded endLine m ts e us ev) :
    us.length < ts.length := by
  obtain ⟨semicolon, hreads, -⟩ := h
  have := hreads.length_lt
  simp only [List.length_cons] at this
  omega

theorem Expr.ReadsOptional.length_le {kind : TokenKind} {o : Option Expr}
    (h : Expr.ReadsOptional endLine m kind ts o us ev) : us.length ≤ ts.length := by
  cases h with
  | none => exact Nat.le_refl _
  | some _ value => exact Nat.le_of_lt value.length_lt

theorem Stmt.ReadsVariable.length_lt {s : Stmt} (h : Stmt.ReadsVariable endLine m ts s us ev) :
    us.length < ts.length := by
  cases h with
  | bare =>
    simp only [List.length_cons]
    omega
  | valued _ _ value =>
    have := value.length_lt
    simp only [List.length_cons]
    omega

theorem Stmt.ReadsInitial.length_lt {o : Option Stmt}
    (h : Stmt.ReadsInitial endLine m ts o us ev) : us.length < ts.length := by
  cases h with
  | none => simp
  | declared _ declaration =>
    have := declaration.length_lt
    simp only [List.length_cons]
    omega
  | stated _ _ value => exact value.length_lt

/-- Whether a derivation reads something for certain. -/
def Stmt.Scope.reading : Stmt.Scope → Nat
  | declarations _ => 0
  | _ => 1

/-- Something is always read, except that there may be no declarations. -/
theorem Stmt.Reads.length_le {scope : Stmt.Scope} {ss : List Stmt}
    (h : Stmt.Reads endLine m scope ts ss us ev) : us.length + scope.reading ≤ ts.length := by
  induction h with
  | opened _ ih => exact ih
  | print _ value =>
    have := value.length_lt
    simp only [List.length_cons, Scope.reading]
    omega
  | expression _ value => exact value.length_lt
  | block _ _ _ ih =>
    simp only [List.length_cons, Scope.reading] at ih ⊢
    omega
  | ifThen _ _ condition _ _ _ ih | loop _ _ condition _ _ ih =>
    have := condition.length_lt
    simp only [List.length_cons, Scope.reading] at this ih ⊢
    omega
  | ifElse _ _ condition _ _ _ _ ih ih' =>
    have := condition.length_lt
    simp only [List.length_cons, Scope.reading] at this ih ih' ⊢
    omega
  | forLoop _ _ initial condition _ increment _ _ ih =>
    have h₁ := initial.length_lt
    have h₂ := condition.length_le
    have h₃ := increment.length_le
    simp only [List.length_cons, Scope.reading] at h₂ h₃ ih ⊢
    omega
  | declared _ inner =>
    have := inner.length_lt
    simp only [List.length_cons, Scope.reading]
    omega
  | stated _ _ ih => exact ih
  | skipped _ hlt => exact hlt
  | done => exact Nat.le_refl _
  | next _ _ _ ih ih' =>
    simp only [Scope.reading] at ih ih' ⊢
    omega

/-! ## Where reading stops

What is left is an end of what there was. -/

theorem Expr.Reads.suffix {scope : LoxSyntax.Scope} {e : Expr}
    (h : Expr.Reads endLine m scope ts e us ev) : us <:+ ts := by
  obtain ⟨used, -, rfl⟩ := h.exists_append
  exact List.suffix_append used us

theorem Expr.ReadsEnded.suffix {e : Expr} (h : Expr.ReadsEnded endLine m ts e us ev) :
    us <:+ ts := by
  obtain ⟨semicolon, hreads, -⟩ := h
  exact (List.suffix_cons semicolon us).trans hreads.suffix

theorem Expr.ReadsOptional.suffix {kind : TokenKind} {o : Option Expr}
    (h : Expr.ReadsOptional endLine m kind ts o us ev) : us <:+ ts := by
  cases h with
  | none => exact List.suffix_refl _
  | some _ value => exact value.suffix

theorem Stmt.ReadsVariable.suffix {s : Stmt} (h : Stmt.ReadsVariable endLine m ts s us ev) :
    us <:+ ts := by
  cases h with
  | bare => exact (List.suffix_cons _ us).trans (List.suffix_cons _ _)
  | valued _ _ value =>
    exact value.suffix.trans ((List.suffix_cons _ _).trans (List.suffix_cons _ _))

theorem Stmt.ReadsInitial.suffix {o : Option Stmt}
    (h : Stmt.ReadsInitial endLine m ts o us ev) : us <:+ ts := by
  cases h with
  | none => exact List.suffix_cons _ us
  | declared _ declaration => exact declaration.suffix.trans (List.suffix_cons _ _)
  | stated _ _ value => exact value.suffix

theorem Stmt.Reads.suffix {scope : Stmt.Scope} {ss : List Stmt}
    (h : Stmt.Reads endLine m scope ts ss us ev) : us <:+ ts := by
  induction h with
  | opened _ ih | stated _ _ ih => exact ih
  | print _ value => exact value.suffix.trans (List.suffix_cons _ _)
  | expression _ value => exact value.suffix
  | block _ _ _ ih => exact (List.suffix_cons _ _).trans (ih.trans (List.suffix_cons _ _))
  | ifThen _ _ condition _ _ _ ih | loop _ _ condition _ _ ih =>
    exact ih.trans ((List.suffix_cons _ _).trans (condition.suffix.trans
      ((List.suffix_cons _ _).trans (List.suffix_cons _ _))))
  | ifElse _ _ condition _ _ _ _ ih ih' =>
    exact ih'.trans ((List.suffix_cons _ _).trans (ih.trans ((List.suffix_cons _ _).trans
      (condition.suffix.trans ((List.suffix_cons _ _).trans (List.suffix_cons _ _))))))
  | forLoop _ _ initial condition _ increment _ _ ih =>
    have hclauses := (ih.trans (List.suffix_cons _ _)).trans (increment.suffix.trans
      ((List.suffix_cons _ _).trans (condition.suffix.trans initial.suffix)))
    exact hclauses.trans ((List.suffix_cons _ _).trans (List.suffix_cons _ _))
  | declared _ inner => exact inner.suffix.trans (List.suffix_cons _ _)
  | skipped hsuffix => exact hsuffix
  | done => exact List.suffix_refl _
  | next _ _ _ ih ih' => exact ih'.trans ih

end Lengths

/-- Declarations are read up to the token that ends them. -/
theorem Stmt.Reads.nextKind_of_declarations {endLine : UInt32} {m : Nat} {last : TokenKind}
    {ts us : List Token} {ss : List Stmt} {ev : List Event}
    (h : Stmt.Reads endLine m (.declarations last) ts ss us ev) :
    nextKind us = .eof ∨ nextKind us = last := by
  generalize hscope : Stmt.Scope.declarations last = scope at h
  induction h with
  | done stop =>
    cases hscope
    exact stop
  | next _ _ _ _ ih => exact ih hscope
  | _ => cases hscope

/-- The declarations of a program are read to the end. -/
theorem Stmt.Reads.eq_nil_of_program {endLine : UInt32} {m : Nat} {ts us : List Token}
    {ss : List Stmt} {ev : List Event}
    (h : Stmt.Reads endLine m (.declarations .eof) ts ss us ev)
    (heof : ∀ t ∈ ts, t.kind ≠ .eof) : us = [] := by
  have hnext := h.nextKind_of_declarations
  rw [or_self] at hnext
  rcases us with _ | ⟨u, us⟩
  · rfl
  · exact absurd hnext (heof u (h.suffix.subset (List.mem_cons_self ..)))

/-- A declaration is read or left out. -/
theorem Stmt.Reads.exists_toList {endLine : UInt32} {m : Nat} {ts us : List Token}
    {ss : List Stmt} {ev : List Event} (h : Stmt.Reads endLine m .declaration ts ss us ev) :
    ∃ o : Option Stmt, ss = o.toList := by
  cases h with
  | declared | stated => exact ⟨some _, rfl⟩
  | skipped => exact ⟨none, rfl⟩

/-! ## Rules and derivations -/

namespace Grammar

open Rule

/-! ## Parts that hold no statement -/

section Simple

variable {expr : Rule Expr} {m : Nat} (hexpr : Follows expr m (.opened .expression))

include hexpr

theorem terminated_follows :
    (terminated expr).Follows m fun endLine => Expr.ReadsEnded endLine m := by
  intro c e c' ev hroom
  rw [terminated, hexpr.gives_bind hroom]
  constructor
  · rintro ⟨e', us, ev₁, ev₂, hreads, hrest, rfl⟩
    obtain ⟨semicolon, vs, hvs, hsemicolon, hpure⟩ := gives_expect_bind.1 hrest
    obtain rfl : us = semicolon :: vs := hvs
    obtain ⟨rfl, rfl, rfl⟩ := gives_pure.1 hpure
    rw [List.append_nil]
    exact ⟨vs, rfl, semicolon, hreads, hsemicolon⟩
  · rintro ⟨us, rfl, semicolon, hreads, hsemicolon⟩
    refine ⟨e, semicolon :: us, ev, [], hreads, ?_, (List.append_nil ev).symm⟩
    exact gives_expect_bind.2 ⟨semicolon, us, rfl, hsemicolon, rfl⟩

theorem unlessNext_follows (kind : TokenKind) :
    (unlessNext expr kind).Follows m fun endLine => Expr.ReadsOptional endLine m kind := by
  intro c o c' ev hroom
  rw [unlessNext, gives_place_bind, c.kind_eq_nextKind]
  split
  · next hstop =>
    rw [gives_pure]
    constructor
    · rintro ⟨rfl, rfl, rfl⟩
      exact ⟨c'.unread, rfl, .none hstop⟩
    · rintro ⟨us, rfl, hreads⟩
      cases hreads with
      | none => exact ⟨rfl, rfl, rfl⟩
      | some start => exact absurd hstop start
  · next hstart =>
    rw [hexpr.gives_bind_pure hroom]
    constructor
    · rintro ⟨e, us, hreads, rfl, rfl⟩
      exact ⟨us, rfl, .some hstart hreads⟩
    · rintro ⟨us, rfl, hreads⟩
      cases hreads with
      | none hstop => exact absurd hstop hstart
      | @some e us ev _ value => exact ⟨e, us, value, rfl, rfl⟩

theorem variableDeclaration_follows :
    (variableDeclaration expr).Follows m fun endLine => Stmt.ReadsVariable endLine m := by
  intro c s c' ev hroom
  rw [variableDeclaration, gives_expect_bind]
  constructor
  · rintro ⟨name, ts, hts, hname, hrest⟩
    rw [hts]
    rcases (gives_eat_bind (by decide)).1 hrest with
      ⟨equals, us, hus, hequals, hvalue⟩ | ⟨-, hend⟩
    · obtain rfl : ts = equals :: us := hus
      obtain ⟨e, vs, ev₁, ev₂, hreads, hend, rfl⟩ :=
        (hexpr.gives_bind (c := c.upTo us) hroom).1 hvalue
      obtain ⟨semicolon, ws, hws, hsemicolon, hpure⟩ := gives_expect_bind.1 hend
      obtain rfl : vs = semicolon :: ws := hws
      obtain ⟨rfl, rfl, rfl⟩ := gives_pure.1 hpure
      rw [List.append_nil]
      exact ⟨ws, rfl, .valued hname hequals ⟨semicolon, hreads, hsemicolon⟩⟩
    · obtain ⟨semicolon, us, hus, hsemicolon, hpure⟩ := gives_expect_bind.1 hend
      obtain rfl : ts = semicolon :: us := hus
      obtain ⟨rfl, rfl, rfl⟩ := gives_pure.1 hpure
      exact ⟨us, rfl, .bare hname hsemicolon⟩
  · rintro ⟨us, rfl, hreads⟩
    generalize hts : c.unread = ts at hreads
    cases hreads with
    | @bare name semicolon us hname hsemicolon =>
      refine ⟨name, semicolon :: us, rfl, hname, ?_⟩
      refine (gives_eat_bind (by decide)).2 (.inr ⟨?_, ?_⟩)
      · show semicolon.kind ≠ .equal
        rw [hsemicolon]
        decide
      · exact gives_expect_bind.2 ⟨semicolon, us, rfl, hsemicolon, rfl⟩
    | @valued name equals vs e us ev hname hequals value =>
      obtain ⟨semicolon, hreads, hsemicolon⟩ := value
      refine ⟨name, equals :: vs, rfl, hname, ?_⟩
      refine (gives_eat_bind (by decide)).2 (.inl ⟨equals, vs, rfl, hequals, ?_⟩)
      refine (hexpr.gives_bind (c := c.upTo vs) hroom).2
        ⟨e, semicolon :: us, ev, [], hreads, ?_, (List.append_nil ev).symm⟩
      exact gives_expect_bind.2 ⟨semicolon, us, rfl, hsemicolon, rfl⟩

theorem forInitial_follows :
    (forInitial expr).Follows m fun endLine => Stmt.ReadsInitial endLine m := by
  intro c o c' ev hroom
  rw [forInitial, gives_eat_bind (by decide)]
  constructor
  · rintro (⟨semicolon, us, hus, hsemicolon, hpure⟩ | ⟨hsemicolon, hrest⟩)
    · obtain ⟨rfl, rfl, rfl⟩ := gives_pure.1 hpure
      rw [hus]
      exact ⟨us, rfl, .none hsemicolon⟩
    · rcases (gives_eat_bind (by decide)).1 hrest with
        ⟨word, us, hus, hword, hdeclared⟩ | ⟨hword, hstated⟩
      · obtain ⟨s, vs, hreads, rfl, rfl⟩ :=
          ((variableDeclaration_follows hexpr).gives_bind_pure (c := c.upTo us) hroom).1 hdeclared
        rw [hus]
        exact ⟨vs, rfl, .declared hword hreads⟩
      · obtain ⟨e, vs, hreads, rfl, rfl⟩ :=
          ((terminated_follows hexpr).gives_bind_pure hroom).1 hstated
        exact ⟨vs, rfl, .stated hsemicolon hword hreads⟩
  · rintro ⟨us, rfl, hreads⟩
    generalize hts : c.unread = ts at hreads
    cases hreads with
    | none hsemicolon => exact .inl ⟨_, us, rfl, hsemicolon, rfl⟩
    | @declared word vs s us ev hword declaration =>
      refine .inr ⟨?_, ?_⟩
      · show word.kind ≠ .semicolon
        rw [hword]
        decide
      · refine (gives_eat_bind (by decide)).2 (.inl ⟨word, vs, hts, hword, ?_⟩)
        exact ((variableDeclaration_follows hexpr).gives_bind_pure (c := c.upTo vs) hroom).2
          ⟨s, us, declaration, rfl, rfl⟩
    | @stated ts e us ev hsemicolon hword value =>
      subst hts
      refine .inr ⟨hsemicolon, (gives_eat_bind (by decide)).2 (.inr ⟨hword, ?_⟩)⟩
      exact ((terminated_follows hexpr).gives_bind_pure hroom).2 ⟨e, us, value, rfl, rfl⟩

/-- A condition between the tokens that enclose it, and what comes behind it. -/
theorem gives_condition_bind {start stop : Landmark} {β : Type} {next : Expr → Rule β}
    {c c' : Cursor} {b : β} {ev : List Event} (hroom : c.room = m) :
    (do let _ ← expect start; let e ← expr; let _ ← expect stop; next e).Gives c b c' ev ↔
      ∃ left ts e right us ev₁ ev₂, c.unread = left :: ts ∧ left.kind = start.kind ∧
        Expr.Reads c.endLine m (.opened .expression) ts e (right :: us) ev₁ ∧
        right.kind = stop.kind ∧ (next e).Gives (c.upTo us) b c' ev₂ ∧ ev = ev₁ ++ ev₂ := by
  rw [gives_expect_bind]
  constructor
  · rintro ⟨left, ts, hts, hleft, hcondition⟩
    obtain ⟨e, us, ev₁, ev₂, hreads, hend, rfl⟩ :=
      (hexpr.gives_bind (c := c.upTo ts) hroom).1 hcondition
    obtain ⟨right, vs, hvs, hright, hnext⟩ := gives_expect_bind.1 hend
    obtain rfl : us = right :: vs := hvs
    exact ⟨left, ts, e, right, vs, ev₁, ev₂, hts, hleft, hreads, hright, hnext, rfl⟩
  · rintro ⟨left, ts, e, right, us, ev₁, ev₂, hts, hleft, hreads, hright, hnext, rfl⟩
    refine ⟨left, ts, hts, hleft, ?_⟩
    refine (hexpr.gives_bind (c := c.upTo ts) hroom).2
      ⟨e, right :: us, ev₁, ev₂, hreads, ?_, rfl⟩
    exact gives_expect_bind.2 ⟨right, us, rfl, hright, hnext⟩

end Simple

/-! ## Successful runs have derivations -/

/-- Every successful run of a rule for statements has a derivation, if `m` levels may be opened. -/
def Derived (stmt : Rule Stmt) (m : Nat) (scope : Stmt.Scope) : Prop :=
  ∀ ⦃c s c' ev⦄, c.room = m → stmt.Gives c s c' ev →
    ∃ us, c' = c.upTo us ∧ Stmt.Reads c.endLine m scope c.unread [s] us ev

section Compound

variable {expr : Rule Expr} {stmt : Rule Stmt} {m : Nat}
  (hexpr : Follows expr m (.opened .expression)) (hstmt : Derived stmt m .statement)

include hstmt

omit hstmt in
theorem Derived.bind (h : Derived stmt m .statement) {β : Type} {next : Stmt → Rule β}
    {c c' : Cursor} {b : β} {ev : List Event} (hroom : c.room = m)
    (hgives : (stmt >>= next).Gives c b c' ev) :
    ∃ s us ev₁ ev₂, Stmt.Reads c.endLine m .statement c.unread [s] us ev₁ ∧
      (next s).Gives (c.upTo us) b c' ev₂ ∧ ev = ev₁ ++ ev₂ := by
  obtain ⟨s, c₁, ev₁, ev₂, hs, hnext, rfl⟩ := gives_bind.1 hgives
  obtain ⟨us, rfl, hreads⟩ := h hroom hs
  exact ⟨s, us, ev₁, ev₂, hreads, hnext, rfl⟩

omit hstmt in
theorem Derived.bind_pure (h : Derived stmt m .statement) {β : Type} {f : Stmt → β}
    {c c' : Cursor} {b : β} {ev : List Event} (hroom : c.room = m)
    (hgives : (stmt >>= fun s => pure (f s)).Gives c b c' ev) :
    ∃ s us, Stmt.Reads c.endLine m .statement c.unread [s] us ev ∧ b = f s ∧
      c' = c.upTo us := by
  obtain ⟨s, hs, rfl⟩ := gives_bind_pure.1 hgives
  obtain ⟨us, rfl, hreads⟩ := h hroom hs
  exact ⟨s, us, hreads, rfl, rfl⟩

include hexpr

/-- A declaration has a derivation, or it was left out and something was skipped. -/
theorem declarationOf_reads {expr' : Rule Expr} {stmt' : Rule Stmt} (he : Widens expr expr')
    (hs : Widens stmt stmt') {c c' : Cursor} {o : Option Stmt} {ev : List Event}
    (hroom : c.room = m) (hne : o = none → c.unread ≠ [])
    (h : (declarationOf expr stmt).Gives c o c' ev) :
    ∃ us, c' = c.upTo us ∧ Stmt.Reads c.endLine m .declaration c.unread o.toList us ev := by
  rw [declarationOf, gives_place_bind] at h
  obtain ⟨_, c₁, ev₁, ev₂, hnote, hrecovered, rfl⟩ := gives_bind.1 h
  obtain ⟨rfl, rfl⟩ := gives_note.1 hnote
  have hwidens : Widens (do if ← eat .varWord then variableDeclaration expr else stmt)
      (do if ← eat .varWord then variableDeclaration expr' else stmt') :=
    .ite_eat _ (variableDeclaration_widens he) hs
  rcases gives_recovered.1 hrecovered with
    ⟨s, rfl, hgives⟩ | ⟨rfl, c₂, ev₃, hfailed, rfl, rfl⟩
  · rcases (gives_eat_bind (by decide)).1 hgives with
      ⟨word, ts, hts, hword, hdeclared⟩ | ⟨hword, hstated⟩
    · obtain ⟨us, rfl, hreads⟩ :=
        (variableDeclaration_follows hexpr).reads (c := c₁.upTo ts) hdeclared hroom
      refine ⟨us, rfl, ?_⟩
      rw [c₁.toPlace_eq, hts]
      exact .declared hword hreads
    · obtain ⟨us, rfl, hreads⟩ := hstmt hroom hstated
      exact ⟨us, rfl, .stated hword hreads⟩
  · obtain ⟨us, hus, hcursor⟩ := hwidens.exists_upTo c₁
    obtain ⟨d, hd, hmem⟩ := hwidens.exists_structural c₁ (by rw [hfailed])
    rw [hfailed] at hcursor hmem
    obtain rfl : c₂ = c₁.upTo us := hcursor
    have hresume := (Place.resume_unread_suffix (c₁.upTo us).toPlace)
    refine ⟨(c₁.upTo us).toPlace.resume.unread, ?_, .skipped ?_ ?_ ⟨d, hd, ?_⟩⟩
    · rw [Place.resume_eq (c₁.upTo us).toPlace]
      rfl
    · exact hresume.trans ((List.tail_suffix us).trans hus)
    · have hlen := hresume.length_le
      have hle := hus.length_le
      have hpos := List.length_pos_iff.2 (hne rfl)
      simp only [Cursor.upTo_unread, List.length_tail] at hlen
      omega
    · simp [hmem]

/-- What several declarations read, if there are rounds enough. -/
theorem declarationsOf_reads {expr' : Rule Expr} {stmt' : Rule Stmt} (he : Widens expr expr')
    (hs : Widens stmt stmt') (last : TokenKind) (rounds : List Token) :
    ∀ {c c' : Cursor} {ss : List Stmt} {ev : List Event}, c.room = m →
      c.unread.length ≤ rounds.length →
      (declarationsOf (declarationOf expr stmt) last rounds).Gives c ss c' ev →
      ∃ us, c' = c.upTo us ∧
        Stmt.Reads c.endLine m (.declarations last) c.unread ss us ev := by
  induction rounds with
  | nil =>
    intro c c' ss ev _ hlen h
    obtain ⟨rfl, rfl, rfl⟩ := gives_pure.1 h
    have hnil : c'.unread = [] := List.length_eq_zero_iff.1 (Nat.le_zero.1 hlen)
    exact ⟨c'.unread, rfl, .done (.inl (by simp [hnil]))⟩
  | cons _ rounds ih =>
    intro c c' ss ev hroom hlen h
    rw [declarationsOf, gives_place_bind, c.kind_eq_nextKind] at h
    dsimp only at h
    split at h
    · next hstop =>
      obtain ⟨rfl, rfl, rfl⟩ := gives_pure.1 h
      exact ⟨c'.unread, rfl, .done hstop⟩
    · next hstart =>
      have hne : c.unread ≠ [] := by
        intro hnil
        simp [hnil] at hstart
      obtain ⟨o, c₁, ev₁, ev₂, hfirst, hrest, rfl⟩ := gives_bind.1 h
      obtain ⟨ss', hss', rfl⟩ := gives_map.1 hrest
      obtain ⟨us, rfl, hreads⟩ := declarationOf_reads hexpr hstmt he hs hroom (fun _ => hne) hfirst
      have hlt := hreads.length_le
      simp only [Stmt.Scope.reading, List.length_cons] at hlt hlen
      obtain ⟨vs, rfl, hreads'⟩ := ih (c := c.upTo us) hroom (by simp; omega) hss'
      exact ⟨vs, rfl, .next hstart hreads hreads'⟩

/-- The same for a statement behind its first token. -/
def DerivedBehind (kind : TokenKind) (rule : Rule Stmt) (m : Nat) : Prop :=
  ∀ ⦃c word s c' ev⦄, c.room = m → word.kind = kind → rule.Gives c s c' ev →
    ∃ us, c' = c.upTo us ∧ Stmt.Reads c.endLine m .body (word :: c.unread) [s] us ev

theorem block_reads {expr' : Rule Expr} {stmt' : Rule Stmt} (he : Widens expr expr')
    (hs : Widens stmt stmt') : DerivedBehind .leftBrace (block expr stmt) m := by
  intro c left s c' ev hroom hleft h
  rw [block, gives_place_bind] at h
  obtain ⟨ss, c₁, ev₁, ev₂, hinner, hend, rfl⟩ := gives_bind.1 h
  obtain ⟨us, rfl, hreads⟩ :=
    declarationsOf_reads hexpr hstmt he hs _ c.unread hroom (Nat.le_refl _) hinner
  obtain ⟨right, vs, hvs, hright, hpure⟩ := gives_expect_bind.1 hend
  obtain rfl : us = right :: vs := hvs
  obtain ⟨rfl, rfl, rfl⟩ := gives_pure.1 hpure
  rw [List.append_nil]
  exact ⟨vs, rfl, .block hleft hreads hright⟩

theorem conditionalStatement_reads :
    DerivedBehind .ifWord (conditionalStatement expr stmt) m := by
  intro c word s c' ev hroom hword h
  rw [conditionalStatement, gives_condition_bind hexpr hroom] at h
  obtain ⟨left, ts, e, right, us, ev₁, ev₂, hts, hleft, hreads, hright, hyes, rfl⟩ := h
  rw [hts]
  obtain ⟨yes, vs, ev₃, ev₄, hreadsYes, hbranch, rfl⟩ := hstmt.bind (c := c.upTo us) hroom hyes
  rcases (gives_eat_bind (by decide)).1 hbranch with
    ⟨other, ws, hws, hother, hno⟩ | ⟨hstop, hpure⟩
  · obtain rfl : vs = other :: ws := hws
    obtain ⟨no, xs, hreadsNo, rfl, rfl⟩ := hstmt.bind_pure (c := c.upTo ws) hroom hno
    exact ⟨xs, rfl, .ifElse hword hleft hreads hright hreadsYes hother hreadsNo⟩
  · obtain ⟨rfl, rfl, rfl⟩ := gives_pure.1 hpure
    rw [List.append_nil]
    exact ⟨vs, rfl, .ifThen hword hleft hreads hright hreadsYes hstop⟩

theorem whileLoop_reads : DerivedBehind .whileWord (whileLoop expr stmt) m := by
  intro c word s c' ev hroom hword h
  rw [whileLoop, gives_condition_bind hexpr hroom] at h
  obtain ⟨left, ts, e, right, us, ev₁, ev₂, hts, hleft, hreads, hright, hbody, rfl⟩ := h
  rw [hts]
  obtain ⟨body, vs, hreadsBody, rfl, rfl⟩ := hstmt.bind_pure (c := c.upTo us) hroom hbody
  exact ⟨vs, rfl, .loop hword hleft hreads hright hreadsBody⟩

theorem forLoop_reads : DerivedBehind .forWord (forLoop expr stmt) m := by
  intro c word s c' ev hroom hword h
  rw [forLoop, gives_expect_bind] at h
  obtain ⟨left, us, hus, hleft, hclauses⟩ := h
  rw [hus]
  obtain ⟨initial, vs, ev₁, ev₂, hinitial, hclauses', rfl⟩ :=
    ((forInitial_follows hexpr).gives_bind (c := c.upTo us) hroom).1 hclauses
  obtain ⟨condition, ws, ev₃, ev₄, hcondition, hend, rfl⟩ :=
    ((unlessNext_follows hexpr _).gives_bind (c := c.upTo vs) hroom).1 hclauses'
  obtain ⟨semicolon, ws', hws, hsemicolon, hclauses''⟩ := gives_expect_bind.1 hend
  obtain rfl : ws = semicolon :: ws' := hws
  obtain ⟨increment, xs, ev₅, ev₆, hincrement, hend', rfl⟩ :=
    ((unlessNext_follows hexpr _).gives_bind (c := c.upTo ws') hroom).1 hclauses''
  obtain ⟨right, xs', hxs, hright, hbody⟩ := gives_expect_bind.1 hend'
  obtain rfl : xs = right :: xs' := hxs
  obtain ⟨body, ys, hreads, rfl, rfl⟩ := hstmt.bind_pure (c := c.upTo xs') hroom hbody
  exact ⟨ys, rfl, .forLoop hword hleft hinitial hcondition hsemicolon hincrement hright hreads⟩

omit hexpr hstmt in
/-- A statement told by its first token is read behind it. -/
theorem DerivedBehind.skip {kind : TokenKind} {rule : Rule Stmt}
    (h : DerivedBehind kind rule m) (hkind : kind ≠ .eof) {c c' : Cursor} {s : Stmt}
    {ev : List Event} (hroom : c.room = m) (hnext : nextKind c.unread = kind)
    (hgives : (do Rule.skip; rule : Rule Stmt).Gives c s c' ev) :
    ∃ us, c' = c.upTo us ∧ Stmt.Reads c.endLine m .body c.unread [s] us ev := by
  rw [gives_skip_bind] at hgives
  rcases hts : c.unread with _ | ⟨t, ts⟩
  · rw [hts] at hnext
    exact absurd hnext.symm hkind
  · rw [hts] at hgives hnext
    exact h (c := c.upTo ts) hroom hnext hgives

theorem statementBody_reads {expr' : Rule Expr} {stmt' : Rule Stmt} (he : Widens expr expr')
    (hs : Widens stmt stmt') : Derived (statementBody expr stmt) m .body := by
  intro c s c' ev hroom h
  rw [statementBody, gives_place_bind, c.kind_eq_nextKind] at h
  split at h
  · next hkind =>
    refine DerivedBehind.skip ?_ (by decide) hroom hkind h
    intro c word s c' ev hroom hword h
    rw [(terminated_follows hexpr).gives_bind_pure hroom] at h
    obtain ⟨e, us, hreads, rfl, rfl⟩ := h
    exact ⟨us, rfl, .print hword hreads⟩
  · next hkind => exact (block_reads hexpr hstmt he hs).skip (by decide) hroom hkind h
  · next hkind => exact (conditionalStatement_reads hexpr hstmt).skip (by decide) hroom hkind h
  · next hkind => exact (whileLoop_reads hexpr hstmt).skip (by decide) hroom hkind h
  · next hkind => exact (forLoop_reads hexpr hstmt).skip (by decide) hroom hkind h
  · next hprint hblock hif hwhile hfor =>
    rw [(terminated_follows hexpr).gives_bind_pure hroom] at h
    obtain ⟨e, us, hreads, rfl, rfl⟩ := h
    refine ⟨us, rfl, .expression ?_ hreads⟩
    cases hkind : nextKind c.unread <;> simp_all [TokenKind.leadsStatement]

end Compound

/-- A statement that was read has a derivation. -/
theorem statementAt_reads (m : Nat) : Derived (statementAt m) m .statement := by
  induction m with
  | zero =>
    intro c s c' ev _ h
    exact absurd h not_gives_fail
  | succ m ih =>
    intro c s c' ev hroom h
    have hbody := statementBody_reads (atRoom_follows m .expression) ih
      (atRoom_widens (Nat.le_refl m) .expression) (statementAt_widens (Nat.le_refl m))
    obtain ⟨c₁, hgives, rfl⟩ := (gives_nested hroom).1 h
    obtain ⟨us, rfl, hreads⟩ := hbody (c.deeper_room hroom) hgives
    exact ⟨us, rfl, .opened hreads⟩

/-! ## Programs -/

theorem bind_congr {α β : Type} {rule rule' : Rule α} {next next' : α → Rule β} {c : Cursor}
    (hrule : rule c = rule' c)
    (hnext : ∀ a, next a (rule c).cursor = next' a (rule c).cursor) :
    (rule >>= next) c = (rule' >>= next') c := by
  rw [bind_reply, bind_reply, ← hrule]
  split
  · next a _ => rw [hnext a]
  · rfl

theorem map_congr {α β : Type} {rule rule' : Rule α} (f : α → β) {c : Cursor}
    (h : rule c = rule' c) : (f <$> rule) c = (f <$> rule') c :=
  congrArg (fun r => (⟨r.result.map f, r.cursor, r.events⟩ : Reply β)) h

/-- One round: the end, or a declaration and the rounds behind it. -/
theorem declarationsOf_cons (declaration : Rule (Option Stmt)) (last : TokenKind) (round : Token)
    (rounds : List Token) (c : Cursor) :
    declarationsOf declaration last (round :: rounds) c =
      if nextKind c.unread = .eof ∨ nextKind c.unread = last then ⟨some [], c, []⟩
      else (declaration >>= fun first =>
        (first.toList ++ ·) <$> declarationsOf declaration last rounds) c := by
  have hround : declarationsOf declaration last (round :: rounds) c =
      (if c.kind = .eof ∨ c.kind = last then return []
        else do
          let first ← declaration
          (first.toList ++ ·) <$> declarationsOf declaration last rounds : Rule (List Stmt)) c :=
    rfl
  rw [hround, c.kind_eq_nextKind]
  split <;> rfl

/-- A declaration leaves as many levels to open as it found. -/
theorem declaration_room (c : Cursor) : (declaration c).cursor.room = c.room := by
  obtain ⟨us, -, hus⟩ := (declarationOf_widens
    (atRoom_widens (Nat.le_refl c.room) .expression)
    (statementAt_widens (Nat.le_refl c.room))).exists_upTo c
  rw [declaration, hus, Cursor.upTo_room]

/-- The levels that may be opened are the same for all declarations of a program. -/
theorem declarationsOf_declaration (last : TokenKind) (rounds : List Token) (c : Cursor) :
    declarationsOf declaration last rounds c =
      declarationsOf (declarationOf (atRoom c.room .expression) (statementAt c.room)) last rounds
        c := by
  induction rounds generalizing c with
  | nil => rfl
  | cons _ rounds ih =>
    rw [declarationsOf_cons, declarationsOf_cons]
    split
    · rfl
    · refine bind_congr rfl fun o => ?_
      have hmore := ih (declaration c).cursor
      rw [declaration_room] at hmore
      exact map_congr _ hmore

/-- A program, with the levels that may be opened where it begins. -/
theorem program_eq (c : Cursor) :
    program c = declarationsOf
      (declarationOf (atRoom c.room .expression) (statementAt c.room)) .eof c.unread c :=
  declarationsOf_declaration .eof c.unread c

/-- Under a higher ceiling a program is read alike, up to the first complaint about nesting. -/
theorem program_tracks {c : Cursor} {ceiling : Nat} (h : c.ceiling ≤ ceiling) :
    (program c).Tracks ceiling (program (c.withCeiling ceiling)) := by
  have hroom : c.room ≤ (c.withCeiling ceiling).room := Nat.sub_le_sub_right h c.depth
  rw [program_eq, program_eq]
  exact (declarationsOf_widens (declarationOf_widens (atRoom_widens hroom .expression)
    (statementAt_widens hroom)) .eof c.unread).tracks c h

theorem exists_gives_recovered {α : Type} (rule : Rule α) (c : Cursor) :
    ∃ o c' ev, (recovered rule).Gives c o c' ev := by
  rcases hreply : rule c with ⟨_ | a, c₁, ev⟩
  · exact ⟨none, _, _, gives_recovered.2 (.inr ⟨rfl, c₁, ev, hreply, rfl, rfl⟩)⟩
  · exact ⟨some a, c₁, ev, gives_recovered.2 (.inl ⟨a, rfl, hreply⟩)⟩

/-- A declaration is always read, or left out. -/
theorem exists_gives_declarationOf (expr : Rule Expr) (stmt : Rule Stmt) (c : Cursor) :
    ∃ o c' ev, (declarationOf expr stmt).Gives c o c' ev := by
  obtain ⟨o, c', ev, h⟩ := exists_gives_recovered
    (do if ← eat .varWord then variableDeclaration expr else stmt) c
  refine ⟨o, c', .declaring c.toPlace :: ev, ?_⟩
  rw [declarationOf, gives_place_bind]
  exact gives_bind.2 ⟨(), c, [.declaring c.toPlace], ev, gives_note.2 ⟨rfl, rfl⟩, h, rfl⟩

/-- Several declarations are always read. -/
theorem exists_gives_declarationsOf (expr : Rule Expr) (stmt : Rule Stmt) (last : TokenKind)
    (rounds : List Token) (c : Cursor) :
    ∃ ss c' ev, (declarationsOf (declarationOf expr stmt) last rounds).Gives c ss c' ev := by
  induction rounds generalizing c with
  | nil => exact ⟨[], c, [], rfl⟩
  | cons _ rounds ih =>
    simp only [Gives, declarationsOf_cons]
    split
    · exact ⟨[], c, [], rfl⟩
    · obtain ⟨o, c₁, ev₁, hfirst⟩ := exists_gives_declarationOf expr stmt c
      obtain ⟨ss, c₂, ev₂, hmore⟩ := ih c₁
      exact ⟨o.toList ++ ss, c₂, ev₁ ++ ev₂,
        gives_bind.2 ⟨o, c₁, ev₁, ev₂, hfirst, gives_map.2 ⟨ss, hmore, rfl⟩, rfl⟩⟩

/-- A program is always read, and has a derivation. -/
theorem program_reads (c : Cursor) :
    ∃ ss us ev, program.Gives c ss (c.upTo us) ev ∧
      Stmt.Reads c.endLine c.room (.declarations .eof) c.unread ss us ev := by
  obtain ⟨ss, c', ev, hgives⟩ := exists_gives_declarationsOf
    (atRoom c.room .expression) (statementAt c.room) .eof c.unread c
  obtain ⟨us, rfl, hreads⟩ := declarationsOf_reads
    (atRoom_follows c.room .expression) (statementAt_reads c.room)
    (atRoom_widens (Nat.le_refl c.room) .expression) (statementAt_widens (Nat.le_refl c.room))
    .eof c.unread rfl (Nat.le_refl _) hgives
  exact ⟨ss, us, ev, (program_eq c).trans hgives, hreads⟩

/-! ## Derivations are successful runs -/

end Grammar

/-- Nothing that is diagnosed ends a rule. -/
def Unbroken (ev : List Event) : Prop :=
  ∀ d, .diagnosed d ∈ ev → d.problem.isStructural = false

@[simp] theorem unbroken_nil : Unbroken [] :=
  fun _ hd => absurd hd List.not_mem_nil

theorem unbroken_append {ev ev' : List Event} :
    Unbroken (ev ++ ev') ↔ Unbroken ev ∧ Unbroken ev' := by
  simp only [Unbroken, List.mem_append, or_imp, forall_and]

theorem unbroken_of_clean {ev : List Event} (h : ∀ d, .diagnosed d ∉ ev) : Unbroken ev :=
  fun d hd => absurd hd (h d)

theorem Unbroken.tail {event : Event} {ev : List Event} (h : Unbroken (event :: ev)) :
    Unbroken ev :=
  fun d hd => h d (List.mem_cons_of_mem _ hd)

namespace Grammar

open Rule

/-- The rule of a scope gives what a derivation says. -/
def Runs (endLine : UInt32) (m : Nat) (scope : Stmt.Scope) (ts : List Token) (ss : List Stmt)
    (us : List Token) (ev : List Event) : Prop :=
  ∀ c : Cursor, c.room = m → c.endLine = endLine → c.unread = ts →
    match scope with
    | .statement => ∀ s, ss = [s] → (statementAt m).Gives c s (c.upTo us) ev
    | .body => ∀ s, ss = [s] →
      (statementBody (atRoom m .expression) (statementAt m)).Gives c s (c.upTo us) ev
    | .declaration => ∀ o : Option Stmt, ss = o.toList →
      (declarationOf (atRoom m .expression) (statementAt m)).Gives c o (c.upTo us) ev
    | .declarations last => ∀ rounds : List Token, ts.length ≤ rounds.length →
      (declarationsOf (declarationOf (atRoom m .expression) (statementAt m)) last rounds).Gives c
        ss (c.upTo us) ev

end Grammar

open Grammar Rule in
/-- A derivation without a problem that ends a rule is a successful run. -/
theorem Stmt.Reads.gives {endLine : UInt32} {m : Nat} {scope : Stmt.Scope} {ts us : List Token}
    {ss : List Stmt} {ev : List Event} (h : Stmt.Reads endLine m scope ts ss us ev)
    (hev : Unbroken ev) : Runs endLine m scope ts ss us ev := by
  induction h with
  | opened _ ih =>
    intro c hroom hline hts s hs
    exact (gives_nested hroom).2
      ⟨c.deeper.upTo _, ih hev c.deeper (c.deeper_room hroom) hline hts s hs, rfl⟩
  | @print m word ts e us ev hword value =>
    rintro c hroom rfl hts _ ⟨rfl⟩
    rw [statementBody, gives_place_bind, c.kind_eq_nextKind, hts, nextKind_cons, hword]
    dsimp only
    rw [gives_skip_bind, hts, List.tail_cons]
    exact ((terminated_follows (atRoom_follows m .expression)).gives_bind_pure
      (c := c.upTo ts) hroom).2 ⟨e, us, value, rfl, rfl⟩
  | @expression m ts e us ev hnext value =>
    rintro c hroom rfl hts _ ⟨rfl⟩
    subst hts
    rw [statementBody, gives_place_bind, c.kind_eq_nextKind]
    have hrest : (do return .expression (← terminated (atRoom m .expression)) : Rule Stmt).Gives c
        (.expression e) (c.upTo us) ev :=
      ((terminated_follows (atRoom_follows m .expression)).gives_bind_pure hroom).2
        ⟨e, us, value, rfl, rfl⟩
    split <;> first | exact hrest | simp_all [TokenKind.leadsStatement]
  | @block m left ts ss right us ev hleft inner hright ih =>
    rintro c hroom rfl hts _ ⟨rfl⟩
    rw [statementBody, gives_place_bind, c.kind_eq_nextKind, hts, nextKind_cons, hleft]
    dsimp only
    rw [gives_skip_bind, hts, List.tail_cons, Grammar.block, gives_place_bind]
    refine gives_bind.2 ⟨ss, c.upTo (right :: us), ev, [], ?_, ?_, (List.append_nil ev).symm⟩
    · exact ih hev (c.upTo ts) hroom rfl rfl ts (Nat.le_refl _)
    · exact gives_expect_bind.2 ⟨right, us, rfl, hright, rfl⟩
  | @ifThen m word left ts e right us s vs ev ev' hword hleft condition hright yes stop ih =>
    rintro c hroom rfl hts _ ⟨rfl⟩
    rw [statementBody, gives_place_bind, c.kind_eq_nextKind, hts, nextKind_cons, hword]
    dsimp only
    rw [gives_skip_bind, hts, List.tail_cons, conditionalStatement]
    refine (gives_condition_bind (c := c.upTo (left :: ts)) (atRoom_follows m .expression) hroom).2
      ⟨left, ts, e, right, us, ev, ev', rfl, hleft, condition, hright, ?_, rfl⟩
    refine gives_bind.2 ⟨s, c.upTo vs, ev', [], ?_, ?_, (List.append_nil ev').symm⟩
    · exact ih (unbroken_append.1 hev).2 (c.upTo us) hroom rfl rfl s rfl
    · exact (gives_eat_bind (by decide)).2 (.inr ⟨stop, rfl⟩)
  | @ifElse m word left ts e right us s other vs s' ws ev ev' ev'' hword hleft condition hright
      yes hother no ih ih' =>
    rintro c hroom rfl hts _ ⟨rfl⟩
    rw [statementBody, gives_place_bind, c.kind_eq_nextKind, hts, nextKind_cons, hword]
    dsimp only
    rw [gives_skip_bind, hts, List.tail_cons, conditionalStatement]
    simp only [unbroken_append] at hev
    refine (gives_condition_bind (c := c.upTo (left :: ts)) (atRoom_follows m .expression) hroom).2
      ⟨left, ts, e, right, us, ev, ev' ++ ev'', rfl, hleft, condition, hright, ?_, rfl⟩
    refine gives_bind.2 ⟨s, c.upTo (other :: vs), ev', ev'', ?_, ?_, rfl⟩
    · exact ih hev.2.1 (c.upTo us) hroom rfl rfl s rfl
    · refine (gives_eat_bind (by decide)).2 (.inl ⟨other, vs, rfl, hother, ?_⟩)
      exact gives_bind_pure.2 ⟨s', ih' hev.2.2 (c.upTo vs) hroom rfl rfl s' rfl, rfl⟩
  | @loop m word left ts e right us s vs ev ev' hword hleft condition hright body ih =>
    rintro c hroom rfl hts _ ⟨rfl⟩
    rw [statementBody, gives_place_bind, c.kind_eq_nextKind, hts, nextKind_cons, hword]
    dsimp only
    rw [gives_skip_bind, hts, List.tail_cons, whileLoop]
    refine (gives_condition_bind (c := c.upTo (left :: ts)) (atRoom_follows m .expression) hroom).2
      ⟨left, ts, e, right, us, ev, ev', rfl, hleft, condition, hright, ?_, rfl⟩
    have hbody := ih (unbroken_append.1 hev).2
    exact gives_bind_pure.2 ⟨s, hbody (c.upTo us) hroom rfl rfl s rfl, rfl⟩
  | @forLoop m word left ts i us e semicolon vs n right ws s xs ev ev' ev'' ev''' hword hleft
      initial condition hsemicolon increment hright body ih =>
    rintro c hroom rfl hts _ ⟨rfl⟩
    rw [statementBody, gives_place_bind, c.kind_eq_nextKind, hts, nextKind_cons, hword]
    dsimp only
    rw [gives_skip_bind, hts, List.tail_cons, Grammar.forLoop]
    simp only [unbroken_append] at hev
    have hexpr := atRoom_follows m .expression
    refine gives_expect_bind.2 ⟨left, ts, rfl, hleft, ?_⟩
    refine ((forInitial_follows hexpr).gives_bind (c := c.upTo ts) hroom).2
      ⟨i, us, ev, _, initial, ?_, rfl⟩
    refine ((unlessNext_follows hexpr _).gives_bind (c := c.upTo us) hroom).2
      ⟨e, semicolon :: vs, ev', _, condition, ?_, rfl⟩
    refine gives_expect_bind.2 ⟨semicolon, vs, rfl, hsemicolon, ?_⟩
    refine ((unlessNext_follows hexpr _).gives_bind (c := c.upTo vs) hroom).2
      ⟨n, right :: ws, ev'', _, increment, ?_, rfl⟩
    refine gives_expect_bind.2 ⟨right, ws, rfl, hright, ?_⟩
    exact gives_bind_pure.2 ⟨s, ih hev.2.2.2 (c.upTo ws) hroom rfl rfl s rfl, rfl⟩
  | @declared m word ts s us ev hword inner =>
    intro c hroom hline hts o ho
    subst hline
    obtain rfl := Option.toList_eq_singleton_iff.1 ho.symm
    rw [declarationOf, gives_place_bind]
    refine gives_bind.2 ⟨(), c, _, ev, gives_note.2 ⟨rfl, rfl⟩, ?_, ?_⟩
    · refine gives_recovered.2 (.inl ⟨s, rfl, ?_⟩)
      refine (gives_eat_bind (by decide)).2 (.inl ⟨word, ts, hts, hword, ?_⟩)
      exact (variableDeclaration_follows (atRoom_follows m .expression)).gives
        (c := c.upTo ts) inner hroom
    · rw [c.toPlace_eq, hts]
      rfl
  | @stated m ts s us ev hnext inner ih =>
    intro c hroom hline hts o ho
    subst hline hts
    obtain rfl := Option.toList_eq_singleton_iff.1 ho.symm
    rw [declarationOf, gives_place_bind]
    refine gives_bind.2 ⟨(), c, _, ev, gives_note.2 ⟨rfl, rfl⟩, ?_, rfl⟩
    refine gives_recovered.2 (.inl ⟨s, rfl, ?_⟩)
    refine (gives_eat_bind (by decide)).2 (.inr ⟨hnext, ?_⟩)
    exact ih hev.tail c hroom rfl rfl s rfl
  | skipped _ _ reported =>
    obtain ⟨d, hd, hmem⟩ := reported
    rw [hev d hmem] at hd
    cases hd
  | @done m last ts stop =>
    intro c hroom hline hts rounds _
    subst hts
    cases rounds with
    | nil => rfl
    | cons _ rounds =>
      rw [declarationsOf, gives_place_bind, c.kind_eq_nextKind]
      dsimp only
      rw [if_pos stop]
      rfl
  | @next m last ts ss us ss' vs ev ev' start first rest ih ih' =>
    intro c hroom hline hts rounds hlen
    subst hts
    have hlt := first.length_le
    simp only [unbroken_append] at hev
    cases rounds with
    | nil =>
      simp only [List.length_nil, Scope.reading] at hlen hlt
      omega
    | cons _ rounds =>
      rw [declarationsOf, gives_place_bind, c.kind_eq_nextKind]
      dsimp only
      rw [if_neg start]
      obtain ⟨o, rfl⟩ := first.exists_toList
      refine gives_bind.2 ⟨o, c.upTo us, ev, ev', ih hev.1 c hroom hline rfl o rfl, ?_, rfl⟩
      refine gives_map.2 ⟨ss', ?_, rfl⟩
      simp only [List.length_cons, Scope.reading] at hlen hlt
      exact ih' hev.2 (c.upTo us) hroom hline rfl rounds (by omega)

/-- A derivation of a program without a problem that ends a rule is its run. -/
theorem Stmt.Reads.gives_program {c : Cursor} {ss : List Stmt} {us : List Token}
    {ev : List Event}
    (h : Stmt.Reads c.endLine c.room (.declarations .eof) c.unread ss us ev)
    (hev : Unbroken ev) : Grammar.program.Gives c ss (c.upTo us) ev :=
  (Grammar.program_eq c).trans (h.gives hev c rfl rfl rfl c.unread (Nat.le_refl _))

end LoxSyntax
