import LoxSyntax.Proofs.Reading.Tails
import LoxSyntax.Proofs.Sentence.Clauses

/-!
# Tokens that stand for a tree

What has been read without a complaint is read as the same tree at other places: with more levels to
open, and in front of other tokens, as long as these do not go on with it.  So trees are put
together like the tokens that they are read from, and how the tokens were found does not matter.

* `Expr.Stands`, `Stmt.Stands` — tokens that are read as a tree wherever they stand.
* `Expr.Reads.stands`, `Stmt.Reads.stands`, `Stmt.ReadsInitial.stands` — what has been read.
* **`Stmt.Stands.pair`**, **`Stmt.Stands.loop`** — blocks of two statements, and loops.
-/

namespace LoxSyntax

/-- With `m` levels to open, or more, the tokens are read as this expression, without a complaint,
in front of all that does not go on with it. -/
def Expr.Stands (m : Nat) (ts : List Token) (e : Expr) : Prop :=
  ∀ (endLine : UInt32) ⦃m'⦄ (us : List Token), m ≤ m' → (nextKind us).continuation? = none →
    ∃ ev, problemsOf ev = [] ∧ Expr.Reads endLine m' (.opened .expression) (ts ++ us) e us ev

/-- With `m` levels to open, or more, the tokens are read as this statement, without a complaint, in
front of everything but an `else`. -/
def Stmt.Stands (m : Nat) (scope : Stmt.Scope) (ts : List Token) (s : Stmt) : Prop :=
  ∀ (endLine : UInt32) ⦃m'⦄ (us : List Token), m ≤ m' → nextKind us ≠ .elseWord →
    ∃ ev, problemsOf ev = [] ∧ Stmt.Reads endLine m' scope (ts ++ us) [s] us ev

/-! ## First tokens -/

section First

variable {endLine : UInt32} {m : Nat} {ts us : List Token} {ev : List Event}

/-- What an expression begins with can stand inside of one. -/
theorem Expr.Reads.isInner_nextKind {scope : Scope} {e : Expr}
    (h : Expr.Reads endLine m scope ts e us ev) (hev : problemsOf ev = []) :
    (nextKind ts).isInner := by
  obtain ⟨used, rfl, hderives⟩ := h.derives (problemsOf_eq_nil.1 hev)
  cases used with
  | nil => exact absurd rfl hderives.ne_nil
  | cons t used => exact hderives.isInner t List.mem_cons_self

/-- What a single statement begins with, which is `var` only where declarations are allowed. -/
theorem Stmt.Reads.nextKind_of_singleton {scope : Stmt.Scope} {s : Stmt}
    (h : Stmt.Reads endLine m scope ts [s] us ev) (hev : problemsOf ev = [])
    (hscope : ∀ last, scope ≠ .declarations last) :
    (nextKind ts).isInner ∨ (nextKind ts).leadsStatement ∨
      (nextKind ts = .varWord ∧ scope = .declaration) := by
  generalize hss : [s] = ss at h
  induction h with
  | opened _ ih | stated _ _ ih =>
    rcases ih hev (by simp) hss with hinner | hleads | ⟨-, hdeclaration⟩
    · exact .inl hinner
    · exact .inr (.inl hleads)
    · cases hdeclaration
  | print hword | block hword | ifThen hword | ifElse hword | loop hword | forLoop hword =>
    rw [nextKind_cons, hword]
    exact .inr (.inl rfl)
  | expression _ value =>
    obtain ⟨_, hreads, -⟩ := value
    exact .inl (hreads.isInner_nextKind hev)
  | declared hword => exact .inr (.inr ⟨hword, rfl⟩)
  | skipped => cases hss
  | done | next => exact absurd rfl (hscope _)

end First

/-! ## What has been read -/

section Reads

variable {endLine : UInt32} {m : Nat} {ts us : List Token} {ev : List Event}

theorem Expr.Reads.stands {e : Expr}
    (h : Expr.Reads endLine m (.opened .expression) (ts ++ us) e us ev) (hev : problemsOf ev = []) :
    Expr.Stands m ts e := by
  intro endLine' m' us' hm hus'
  obtain ⟨used, ev', -, hused, hev', hreads⟩ := h.retail endLine' hm us' (.inr hus')
  obtain rfl : ts = used := List.append_cancel_right hused
  exact ⟨ev', hev'.trans hev, hreads⟩

theorem Stmt.Reads.stands {scope : Stmt.Scope} {s : Stmt}
    (h : Stmt.Reads endLine m scope (ts ++ us) [s] us ev) (hev : problemsOf ev = [])
    (hscope : ∀ last, scope ≠ .declarations last) : Stmt.Stands m scope ts s := by
  intro endLine' m' us' hm hus'
  have hends : scope.EndsLike us' us := by
    cases scope with
    | declarations last => exact absurd rfl (hscope last)
    | _ => exact .inr hus'
  obtain ⟨used, ev', hused, hev', hreads⟩ :=
    h.retail (unbroken_of_clean (problemsOf_eq_nil.1 hev)) endLine' hm us' hends
  obtain rfl : ts = used := List.append_cancel_right hused
  exact ⟨ev', hev'.trans hev, hreads⟩

end Reads

/-! ## Putting trees together -/

theorem Expr.Stands.mono {m m' : Nat} {ts : List Token} {e : Expr} (h : Expr.Stands m ts e)
    (hm : m ≤ m') : Expr.Stands m' ts e :=
  fun endLine _ us hm' hus => h endLine us (Nat.le_trans hm hm') hus

/-- The word `true`. -/
theorem Expr.stands_true {t : Token} (ht : t.kind = .trueWord) :
    Expr.Stands 2 [t] (.bool true) := by
  intro endLine m us hm hus
  refine ⟨[], rfl, ?_⟩
  have hitem : [t].map Token.item = (Expr.bool true).items := by
    rw [List.map_singleton, Token.item_of_mark ht rfl]
    rfl
  exact (Expr.found endLine (.bool true) rfl rfl).whole hm hitem hus

namespace Stmt.Stands

variable {m m' : Nat} {scope : Scope} {ts us : List Token} {s s' : Stmt} {e : Expr}

theorem mono (h : Stands m scope ts s) (hm : m ≤ m') : Stands m' scope ts s :=
  fun endLine _ us hm' hus => h endLine us (Nat.le_trans hm hm') hus

/-- What a declaration begins with ends no declarations, and goes on with none. -/
theorem nextKind_ne (h : Stands m .declaration ts s) (us : List Token) :
    nextKind (ts ++ us) ≠ .eof ∧ nextKind (ts ++ us) ≠ .rightBrace ∧
      nextKind (ts ++ us) ≠ .elseWord := by
  obtain ⟨ev, hev, hreads⟩ := h 0 [] (Nat.le_refl m) (by simp)
  have hne : ts ≠ [] := by
    rintro rfl
    exact absurd hreads.length_le (by simp [Scope.reading])
  have hfirst := hreads.nextKind_of_singleton hev (by simp)
  rw [nextKind_append hne [] us] at hfirst
  refine ⟨?_, ?_, ?_⟩ <;>
  · intro hnext
    simp [hnext, TokenKind.isInner, TokenKind.leadsStatement] at hfirst

/-- An expression and a semicolon. -/
theorem expression (h : Expr.Stands m ts e) {semicolon : Token}
    (hsemicolon : semicolon.kind = .semicolon) :
    Stands (m + 1) .statement (ts ++ [semicolon]) (.expression e) := by
  intro endLine m' us hm _
  obtain ⟨m', rfl⟩ := Nat.exists_eq_add_of_le' (Nat.le_trans (Nat.le_add_left 1 m) hm)
  obtain ⟨ev, hev, hreads⟩ :=
    h endLine (semicolon :: us) (Nat.le_of_succ_le_succ hm) (by rw [nextKind_cons, hsemicolon]; rfl)
  have hinner := hreads.isInner_nextKind hev
  have hleads : (nextKind (ts ++ semicolon :: us)).leadsStatement = false := by
    cases hkind : nextKind (ts ++ semicolon :: us) <;> simp_all [TokenKind.isInner,
      TokenKind.leadsStatement]
  refine ⟨ev, hev, ?_⟩
  rw [List.append_assoc, List.singleton_append]
  exact .opened (.expression hleads ⟨semicolon, hreads, hsemicolon⟩)

/-- A statement is a declaration too. -/
theorem declaration (h : Stands m .statement ts s) : Stands m .declaration ts s := by
  intro endLine m' us hm hus
  obtain ⟨ev, hev, hreads⟩ := h endLine us hm hus
  have hfirst := hreads.nextKind_of_singleton hev (by simp)
  have hword : nextKind (ts ++ us) ≠ .varWord := by
    intro hnext
    simp [hnext, TokenKind.isInner, TokenKind.leadsStatement] at hfirst
  exact ⟨.declaring ⟨ts ++ us, endLine⟩ :: ev, hev, .stated hword hreads⟩

/-- Two declarations in braces. -/
theorem pair (h : Stands m .declaration ts s) (h' : Stands m .declaration us s')
    {left right : Token} (hleft : left.kind = .leftBrace) (hright : right.kind = .rightBrace) :
    Stands (m + 1) .statement (left :: (ts ++ (us ++ [right]))) (.block [s, s']) := by
  intro endLine m' vs hm _
  obtain ⟨m', rfl⟩ := Nat.exists_eq_add_of_le' (Nat.le_trans (Nat.le_add_left 1 m) hm)
  have hm := Nat.le_of_succ_le_succ hm
  obtain ⟨heof, hbrace, -⟩ := h.nextKind_ne (us ++ right :: vs)
  obtain ⟨heof', hbrace', helse'⟩ := h'.nextKind_ne (right :: vs)
  obtain ⟨ev, hev, hfirst⟩ := h endLine (us ++ right :: vs) hm helse'
  obtain ⟨ev', hev', hsecond⟩ := h' endLine (right :: vs) hm (by simp [hright])
  have hend : Stmt.Reads endLine m' (.declarations .rightBrace) (right :: vs) [] (right :: vs) [] :=
    .done (.inr hright)
  have hboth := Stmt.Reads.next (not_or.2 ⟨heof, hbrace⟩) hfirst
    (.next (not_or.2 ⟨heof', hbrace'⟩) hsecond hend)
  refine ⟨_, ?_, by simpa using .opened (.block hleft hboth hright)⟩
  simp [hev, hev']

/-- A condition in parentheses, and the statement that is repeated. -/
theorem loop (h : Expr.Stands m ts e) (h' : Stands m .statement us s) {word left right : Token}
    (hword : word.kind = .whileWord) (hleft : left.kind = .leftParen)
    (hright : right.kind = .rightParen) :
    Stands (m + 1) .statement (word :: left :: (ts ++ right :: us)) (.loop e s) := by
  intro endLine m' vs hm hvs
  obtain ⟨m', rfl⟩ := Nat.exists_eq_add_of_le' (Nat.le_trans (Nat.le_add_left 1 m) hm)
  have hm := Nat.le_of_succ_le_succ hm
  obtain ⟨ev, hev, hcondition⟩ :=
    h endLine (right :: (us ++ vs)) hm (by rw [nextKind_cons, hright]; rfl)
  obtain ⟨ev', hev', hbody⟩ := h' endLine vs hm hvs
  refine ⟨ev ++ ev', by simp [hev, hev'], ?_⟩
  simpa using Stmt.Reads.opened (.loop hword hleft hcondition hright hbody)

end Stmt.Stands

/-- The first clause of a loop is a declaration of its own, if there is one. -/
theorem Stmt.ReadsInitial.stands {endLine : UInt32} {m : Nat} {ts us : List Token}
    {ev : List Event} {s : Stmt} (h : Stmt.ReadsInitial endLine m (ts ++ us) (some s) us ev)
    (hev : problemsOf ev = []) : Stmt.Stands (m + 1) .declaration ts s := by
  generalize hall : ts ++ us = all at h
  cases h with
  | @declared word _ _ _ _ hword declaration =>
    intro endLine' m' us' hm _
    obtain ⟨used, ev', -, rfl, hev', hreads⟩ :=
      declaration.retail endLine' (Nat.le_of_succ_le hm) us'
    obtain rfl : ts = word :: used := List.append_cancel_right hall
    exact ⟨.declaring ⟨word :: used ++ us', endLine'⟩ :: ev', hev'.trans hev,
      .declared hword hreads⟩
  | stated _ _ value =>
    obtain ⟨semicolon, hreads, hsemicolon⟩ := value
    obtain ⟨used, -, rfl⟩ := hreads.exists_append
    obtain rfl : ts = used ++ [semicolon] := List.append_cancel_right (by simpa using hall)
    exact (Stmt.Stands.expression (hreads.stands hev) hsemicolon).declaration

end LoxSyntax
