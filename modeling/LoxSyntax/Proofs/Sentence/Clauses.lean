import LoxSyntax.Proofs.Canonical.Expression
import LoxSyntax.Proofs.Recovery.Expression
import LoxSyntax.Proofs.Sentence.Program

/-!
# Where clauses end

An expression holds no semicolon, and it closes the parentheses that it opens.  So the first
semicolon behind an expression ends it, and so does the first parenthesis that closes nothing.  The
clauses of a loop can therefore be told apart in one way only.

* `Expr.Derives.isInner` — the tokens that an expression is made of.
* `fromSemicolon`, `fromClosing` — what begins with a semicolon, or with a parenthesis that closes
  nothing.
* **`Stmt.DerivesInitial.append_inj`**, **`Expr.DerivesOptional.semicolon_inj`**,
  **`Expr.DerivesOptional.rightParen_inj`** — two ways to tell a clause from what follows are one.
-/

namespace LoxSyntax

/-! ## The tokens of expressions -/

namespace Expr.Derives

variable {p : Precedence} {ts : List Token} {e : Expr}

theorem ne_nil (h : Derives p ts e) : ts ≠ [] := by
  induction h with
  | tighter _ _ ih => exact ih
  | join | conditional => simp
  | _ => exact List.cons_ne_nil _ _

/-- An expression is made of operands, operators and parentheses. -/
theorem isInner (h : Derives p ts e) : ∀ t ∈ ts, t.kind.isInner := by
  have hone : ∀ {t : Token} {k : TokenKind}, t.kind = k → k.isInner → t.kind.isInner := by
    rintro t k rfl hk
    exact hk
  induction h with
  | tighter _ _ ih => exact ih
  | join _ hop _ _ _ ih ih' =>
    have hop := TokenKind.isInner_of_precedence? hop
    simp only [List.mem_append, List.mem_cons, or_imp, forall_and, forall_eq]
    exact ⟨ih, hop, ih'⟩
  | assign hx hequals _ ih =>
    simp only [List.mem_cons, or_imp, forall_and, forall_eq]
    exact ⟨hone hx rfl, hone hequals rfl, ih⟩
  | conditional _ hquestion _ hcolon _ ih ih' ih'' =>
    simp only [List.mem_append, List.mem_cons, or_imp, forall_and, forall_eq]
    exact ⟨ih, hone hquestion rfl, ih', hone hcolon rfl, ih''⟩
  | unary hop _ ih =>
    have hop := TokenKind.isInner_of_isUnary hop
    simp only [List.mem_cons, or_imp, forall_and, forall_eq]
    exact ⟨hop, ih⟩
  | group hleft _ hright ih =>
    simp only [List.mem_append, List.mem_cons, List.not_mem_nil, or_false, or_imp, forall_and,
      forall_eq]
    exact ⟨hone hleft rfl, ih, hone hright rfl⟩
  | no ht | yes ht | nil ht | number ht | string ht | name ht =>
    simp only [List.mem_singleton, forall_eq]
    exact hone ht rfl

end Expr.Derives

/-- Whether a kind can stand in a clause, in front of the semicolon that may end it. -/
def TokenKind.isClausal (k : TokenKind) : Bool :=
  k.isInner || k == .varWord

theorem TokenKind.isClausal_of_isInner {k : TokenKind} (h : k.isInner) : k.isClausal := by
  rw [isClausal, h, Bool.true_or]

theorem TokenKind.ne_of_isClausal {k : TokenKind} (h : k.isClausal) :
    k ≠ .semicolon ∧ k ≠ .eof := by
  constructor <;>
  · rintro rfl
    exact absurd h (by decide)

/-! ## The first clause -/

namespace Stmt

/-- A declaration ends with its only semicolon. -/
theorem DerivesVariable.exists_concat {ts : List Token} {s : Stmt} (h : DerivesVariable ts s) :
    ∃ front semicolon, ts = front ++ [semicolon] ∧ semicolon.kind = .semicolon ∧ front ≠ [] ∧
      ∀ t ∈ front, t.kind.isClausal := by
  cases h with
  | @bare word name semicolon hword hname hsemicolon =>
    refine ⟨[word, name], semicolon, rfl, hsemicolon, by simp, ?_⟩
    simp [hword, hname, TokenKind.isClausal, TokenKind.isInner]
  | @valued word name equals ts e semicolon hword hname hequals value hsemicolon =>
    refine ⟨word :: name :: equals :: ts, semicolon, by simp, hsemicolon, by simp, ?_⟩
    simp only [List.mem_cons, or_imp, forall_and, forall_eq, hword, hname, hequals]
    exact ⟨rfl, rfl, rfl, fun t ht => TokenKind.isClausal_of_isInner (value.isInner t ht)⟩

/-- The first clause ends with its only semicolon, and it is that semicolon alone if it is empty. -/
theorem DerivesInitial.exists_concat {ts : List Token} {o : Option Stmt}
    (h : DerivesInitial ts o) :
    ∃ front semicolon, ts = front ++ [semicolon] ∧ semicolon.kind = .semicolon ∧
      (front = [] ↔ o = Option.none) ∧ ∀ t ∈ front, t.kind.isClausal := by
  cases h with
  | @none semicolon hsemicolon => exact ⟨[], semicolon, rfl, hsemicolon, by simp, by simp⟩
  | declared declaration =>
    obtain ⟨front, semicolon, hts, hsemicolon, hne, hfront⟩ := declaration.exists_concat
    exact ⟨front, semicolon, hts, hsemicolon, by simp [hne], hfront⟩
  | @stated ts e semicolon value hsemicolon =>
    have hne := value.ne_nil
    exact ⟨ts, semicolon, rfl, hsemicolon, by simp [hne],
      fun t ht => TokenKind.isClausal_of_isInner (value.isInner t ht)⟩

end Stmt

/-! ## Up to a semicolon -/

/-- The first semicolon and what follows it. -/
def fromSemicolon (ts : List Token) : List Token :=
  ts.dropWhile (·.kind != .semicolon)

/-- What stands in front of the first semicolon is told by that. -/
theorem fromSemicolon_append {ts us : List Token} {semicolon : Token}
    (hts : ∀ t ∈ ts, t.kind.isClausal) (hsemicolon : semicolon.kind = .semicolon) :
    fromSemicolon (ts ++ semicolon :: us) = semicolon :: us := by
  have hfront : ∀ t ∈ ts, (t.kind != .semicolon) = true := by
    intro t ht
    simpa using (TokenKind.ne_of_isClausal (hts t ht)).1
  rw [fromSemicolon, List.dropWhile_append_of_pos hfront]
  simp [hsemicolon]

/-- The first clause of a loop ends in one way. -/
theorem Stmt.DerivesInitial.append_inj {ts ts' us us' : List Token} {o o' : Option Stmt}
    (h : DerivesInitial ts o) (h' : DerivesInitial ts' o') (heq : ts ++ us = ts' ++ us') :
    ts = ts' ∧ us = us' := by
  obtain ⟨front, semicolon, rfl, hsemicolon, -, hfront⟩ := h.exists_concat
  obtain ⟨front', semicolon', rfl, hsemicolon', -, hfront'⟩ := h'.exists_concat
  have hrest := congrArg fromSemicolon heq
  simp only [List.append_assoc, List.singleton_append] at hrest
  rw [fromSemicolon_append hfront hsemicolon, fromSemicolon_append hfront' hsemicolon'] at hrest
  obtain ⟨rfl, rfl⟩ := List.cons.inj hrest
  exact ⟨List.append_cancel_right heq, rfl⟩

namespace Expr.DerivesOptional

variable {ts ts' us us' : List Token} {o o' : Option Expr} {t t' : Token}

theorem isInner (h : DerivesOptional ts o) : ∀ t ∈ ts, t.kind.isInner := by
  cases h with
  | none => simp
  | some value => exact value.isInner

theorem ne_eof (h : DerivesOptional ts o) : ∀ t ∈ ts, t.kind ≠ .eof :=
  fun t ht => (TokenKind.ne_of_isClausal (TokenKind.isClausal_of_isInner (h.isInner t ht))).2

theorem eq_nil_iff (h : DerivesOptional ts o) : ts = [] ↔ o = Option.none := by
  cases h with
  | none => simp
  | some value => simp [value.ne_nil]

/-- A clause that a semicolon follows ends in one way. -/
theorem semicolon_inj (h : DerivesOptional ts o) (h' : DerivesOptional ts' o')
    (ht : t.kind = .semicolon) (ht' : t'.kind = .semicolon)
    (heq : ts ++ t :: us = ts' ++ t' :: us') : ts = ts' ∧ t = t' ∧ us = us' := by
  have hclausal := fun s hs => TokenKind.isClausal_of_isInner (h.isInner s hs)
  have hclausal' := fun s hs => TokenKind.isClausal_of_isInner (h'.isInner s hs)
  have hrest := congrArg fromSemicolon heq
  rw [fromSemicolon_append hclausal ht, fromSemicolon_append hclausal' ht'] at hrest
  rw [hrest] at heq
  obtain ⟨rfl, rfl⟩ := List.cons.inj hrest
  exact ⟨List.append_cancel_right heq, rfl, rfl⟩

end Expr.DerivesOptional

/-! ## Up to a parenthesis -/

/-- The first parenthesis that closes none of the tokens, and what follows it, where `n` parentheses
are open. -/
def fromClosing : (n : Nat) → List Token → List Token
  | _, [] => []
  | n, t :: ts =>
    if t.kind = .leftParen then fromClosing (n + 1) ts
    else if t.kind = .rightParen then
      match n with
      | 0 => t :: ts
      | n + 1 => fromClosing n ts
    else fromClosing n ts

theorem fromClosing_leftParen {t : Token} (ht : t.kind = .leftParen) (n : Nat)
    (ts : List Token) : fromClosing n (t :: ts) = fromClosing (n + 1) ts := by
  cases n <;> simp [fromClosing, ht]

theorem fromClosing_rightParen {t : Token} (ht : t.kind = .rightParen) (n : Nat)
    (ts : List Token) : fromClosing (n + 1) (t :: ts) = fromClosing n ts := by
  simp [fromClosing, ht]

theorem fromClosing_stop {t : Token} (ht : t.kind = .rightParen) (ts : List Token) :
    fromClosing 0 (t :: ts) = t :: ts := by
  simp [fromClosing, ht]

theorem fromClosing_of_ne {t : Token} (hleft : t.kind ≠ .leftParen)
    (hright : t.kind ≠ .rightParen) (n : Nat) (ts : List Token) :
    fromClosing n (t :: ts) = fromClosing n ts := by
  cases n <;> simp [fromClosing, hleft, hright]

/-- A token that is no parenthesis. -/
theorem fromClosing_of_kind {t : Token} {k : TokenKind} (ht : t.kind = k)
    (hleft : k ≠ .leftParen) (hright : k ≠ .rightParen) (n : Nat) (ts : List Token) :
    fromClosing n (t :: ts) = fromClosing n ts :=
  fromClosing_of_ne (ht ▸ hleft) (ht ▸ hright) n ts

/-- An expression closes the parentheses that it opens, and no others. -/
theorem Expr.Derives.fromClosing_append {p : Precedence} {ts : List Token} {e : Expr}
    (h : Derives p ts e) (n : Nat) (us : List Token) :
    fromClosing n (ts ++ us) = fromClosing n us := by
  induction h generalizing n us with
  | tighter _ _ ih => exact ih n us
  | @join p q ts lhs op us' rhs _ hop _ _ _ ih ih' =>
    have hleft : op.kind ≠ .leftParen := fun hk => by rw [hk] at hop; cases hop
    have hright : op.kind ≠ .rightParen := fun hk => by rw [hk] at hop; cases hop
    rw [List.append_assoc, List.cons_append, ih, fromClosing_of_ne hleft hright, ih']
  | assign hx hequals _ ih =>
    rw [List.cons_append, List.cons_append, fromClosing_of_kind hx (by decide) (by decide),
      fromClosing_of_kind hequals (by decide) (by decide), ih]
  | conditional _ hquestion _ hcolon _ ih ih' ih'' =>
    rw [List.append_assoc, List.cons_append, List.append_assoc, List.cons_append, ih,
      fromClosing_of_kind hquestion (by decide) (by decide), ih',
      fromClosing_of_kind hcolon (by decide) (by decide), ih'']
  | @unary op ts e hop _ ih =>
    have hleft : op.kind ≠ .leftParen := fun hk => by rw [hk] at hop; cases hop
    have hright : op.kind ≠ .rightParen := fun hk => by rw [hk] at hop; cases hop
    rw [List.cons_append, fromClosing_of_ne hleft hright, ih]
  | group hleft _ hright ih =>
    rw [List.cons_append, List.append_assoc, List.singleton_append, fromClosing_leftParen hleft,
      ih, fromClosing_rightParen hright]
  | no ht | yes ht | nil ht | number ht | string ht | name ht =>
    exact fromClosing_of_kind ht (by decide) (by decide) n us

/-- A clause that a parenthesis follows ends in one way. -/
theorem Expr.DerivesOptional.rightParen_inj {ts ts' us us' : List Token} {o o' : Option Expr}
    {t t' : Token} (h : DerivesOptional ts o) (h' : DerivesOptional ts' o')
    (ht : t.kind = .rightParen) (ht' : t'.kind = .rightParen)
    (heq : ts ++ t :: us = ts' ++ t' :: us') : ts = ts' ∧ t = t' ∧ us = us' := by
  have hclosed : ∀ {vs ws : List Token} {o : Option Expr} {s : Token}, DerivesOptional vs o →
      s.kind = .rightParen → fromClosing 0 (vs ++ s :: ws) = s :: ws := by
    intro vs ws o s hvs hs
    cases hvs with
    | none => exact fromClosing_stop hs ws
    | some value => rw [value.fromClosing_append, fromClosing_stop hs]
  have hrest := congrArg (fromClosing 0) heq
  rw [hclosed h ht, hclosed h' ht'] at hrest
  rw [hrest] at heq
  obtain ⟨rfl, rfl⟩ := List.cons.inj hrest
  exact ⟨List.append_cancel_right heq, rfl, rfl⟩

end LoxSyntax
