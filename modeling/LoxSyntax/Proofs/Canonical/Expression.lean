import LoxSyntax.Proofs.Reading.Levels
import LoxSyntax.Proofs.Reading.Stops
import LoxSyntax.Proofs.Tree.Items

/-!
# Normal expressions are read

An expression in normal form that misses no operand is read from the tokens that it keeps, by every
rule that is loose enough for it, as soon as there are levels enough to open and the next token does
not go on with it.  The rules are climbed from the operands to the loosest level, and each of them
stops where it should because the token behind it is of a looser level.

* `Expr.FoundAt`, `Expr.Found` — an expression is read by one rule, and by every rule.
* `Expr.FoundAt.loosen` — what a rule reads, a looser rule reads.
* **`Expr.found`** — normal expressions are read.
-/

namespace LoxSyntax

/-! ## The first token -/

/-- Whether an expression can begin with this kind. -/
def TokenKind.startsExpression : TokenKind → Bool
  | leftParen | identifier | number | string | falseWord | trueWord | nilWord | bang | minus => true
  | _ => false

theorem TokenKind.startsExpression_of_isUnary {k : TokenKind} (h : k.isUnary) :
    k.startsExpression := by
  cases k <;> first | rfl | cases h

namespace Expr

/-- The first token of a normal expression that misses no operand. -/
theorem startsExpression {e : Expr} (hnormal : e.isNormal) (hmissing : e.missingCount = 0)
    {used : List Token} (hitems : used.map Token.item = e.items) (us : List Token) :
    (nextKind (used ++ us)).startsExpression := by
  induction e generalizing used us with
  | string text =>
    obtain ⟨t, rfl, ht⟩ := List.map_eq_singleton_iff.1 hitems
    simp [(Token.of_item_string ht).1, TokenKind.startsExpression]
  | number value =>
    obtain ⟨t, rfl, ht⟩ := List.map_eq_singleton_iff.1 hitems
    simp [(Token.of_item_number ht).1, TokenKind.startsExpression]
  | bool value =>
    cases value <;>
    · obtain ⟨t, rfl, ht⟩ := List.map_eq_singleton_iff.1 hitems
      simp [Token.kind_of_item_mark ht, TokenKind.startsExpression]
  | nil =>
    obtain ⟨t, rfl, ht⟩ := List.map_eq_singleton_iff.1 hitems
    simp [Token.kind_of_item_mark ht, TokenKind.startsExpression]
  | unary op arg =>
    obtain ⟨t, ts, rfl, ht, -⟩ := List.map_eq_cons_iff.1 hitems
    obtain rfl := Token.eq_of_item_token ht
    simp only [isNormal, Bool.and_eq_true] at hnormal
    exact TokenKind.startsExpression_of_isUnary hnormal.1.1
  | binary lhs op rhs ih | logical lhs op rhs ih =>
    obtain ⟨ts, vs, rfl, hlhs, -⟩ := List.map_eq_append_iff.1 hitems
    simp only [isNormal, Bool.and_eq_true] at hnormal
    simp only [missingCount, Nat.add_eq_zero_iff] at hmissing
    rw [List.append_assoc]
    exact ih hnormal.1.1 hmissing.1 hlhs _
  | conditional condition yes no ih =>
    obtain ⟨ts, vs, rfl, hcondition, -⟩ := List.map_eq_append_iff.1 hitems
    simp only [isNormal, Bool.and_eq_true] at hnormal
    simp only [missingCount, Nat.add_eq_zero_iff] at hmissing
    rw [List.append_assoc]
    exact ih hnormal.1.1.1 hmissing.1.1 hcondition _
  | group inner =>
    obtain ⟨t, ts, rfl, ht, -⟩ := List.map_eq_cons_iff.1 hitems
    simp [Token.kind_of_item_mark ht, TokenKind.startsExpression]
  | «variable» name =>
    obtain ⟨t, rfl, ht⟩ := List.map_eq_singleton_iff.1 hitems
    obtain rfl := Token.eq_of_item_token ht
    simp only [isNormal, beq_iff_eq] at hnormal
    simp [hnormal, TokenKind.startsExpression]
  | assign name value =>
    obtain ⟨t, ts, rfl, ht, -⟩ := List.map_eq_cons_iff.1 hitems
    obtain rfl := Token.eq_of_item_token ht
    simp only [isNormal, Bool.and_eq_true, beq_iff_eq] at hnormal
    simp [hnormal.1.1, TokenKind.startsExpression]
  | missing => cases hmissing

end Expr

/-! ## One rule after another -/

/-- An expression is read by a rule from the tokens that it keeps, in front of anything that does
not go on with it. -/
def Expr.FoundAt (endLine : UInt32) (e : Expr) (m : Nat) (scope : Scope) : Prop :=
  ∀ ⦃used us⦄, used.map Token.item = e.items → scope.Stops (nextKind us) →
    (e.endsInConditional → (nextKind us).continuation? = none) →
    Expr.Reads endLine m scope (used ++ us) e us []

/-- Whether a rule is loose enough for an expression. -/
def Scope.Admits (scope : Scope) (e : Expr) : Prop :=
  scope.loosest ≤ e.precedence ∧
    match scope with
    | chain p => p.isChain
    | level p => p ≤ .unary
    | opened _ => True

/-- The operands of a chain may be anything tighter than the chain. -/
theorem Scope.admits_operands {p : Precedence} {e : Expr} (hp : p.isChain)
    (h : p < e.precedence) : p.operands.Admits e := by
  have hrank := loosest_operands hp
  refine ⟨?_, ?_⟩
  · show p.operands.loosest.rank ≤ e.precedence.rank
    rw [hrank]
    exact h
  · cases p with
    | assignment | conditional | unary | primary => cases hp
    | product => exact trivial
    | _ =>
      dsimp only [Precedence.operands]
      decide

theorem Scope.room_operands {p : Precedence} (hp : p.isChain) (m : Nat) :
    p.operands.room m = m := by
  cases p with
  | assignment | conditional | unary | primary => cases hp
  | _ => rfl

/-- An expression is read by every rule that is loose enough for it. -/
def Expr.Found (endLine : UInt32) (e : Expr) : Prop :=
  ∀ ⦃m scope⦄, scope.Admits e → e.levels ≤ scope.room m → e.FoundAt endLine m scope

namespace Expr.FoundAt

variable {endLine : UInt32} {e : Expr} {m : Nat} {p q : Precedence}

theorem operand (hp : p.isChain) (h : e.FoundAt endLine m p.operands) :
    e.FoundAt endLine m (.chain p) := fun _ _ hitems hstops hend =>
  .operand hp (h hitems ((Scope.stops_operands hp).2 hstops) hend)

/-- In front of something looser a chain ends. -/
theorem close (hp : p.isChain) (h : e.FoundAt endLine m (.chain p)) :
    e.FoundAt endLine m (.level p) := by
  intro used us hitems hstops hend
  refine .close hp (h hitems (fun q hq => Precedence.le_of_lt (hstops q hq)) hend) ?_
  intro hnext
  exact Nat.lt_irrefl _ (hstops p (TokenKind.continuation?_of_precedence? hnext))

theorem opened {o : Opening} (h : e.FoundAt endLine m (.level o.level)) :
    e.FoundAt endLine (m + 1) (.opened o) := fun _ _ hitems hstops hend =>
  .opened (h hitems hstops hend)

theorem unbranched (h : e.FoundAt endLine m (.level .disjunction)) :
    e.FoundAt endLine m (.level .conditional) := by
  intro used us hitems hstops hend
  refine .unbranched (h hitems (fun q hq => ?_) hend) ?_
  · exact Precedence.lt_of_lt_of_le (hstops q hq) (by decide)
  · intro hnext
    exact Nat.lt_irrefl _ (hstops .conditional (by rw [hnext]; rfl))

theorem unassigned (h : e.FoundAt endLine m (.level .conditional)) :
    e.FoundAt endLine m (.level .assignment) := by
  intro used us hitems hstops hend
  refine .unassigned (h hitems (fun q hq => ?_) hend) ?_
  · exact Precedence.lt_of_lt_of_le (hstops q hq) (by decide)
  · intro hnext
    exact Nat.lt_irrefl _ (hstops .assignment (by rw [hnext]; rfl))

/-- What the operands of chains of a level read, the level reads. -/
theorem ofOperands (hp : p.isChain) (h : e.FoundAt endLine m p.operands) :
    e.FoundAt endLine m (.level p) :=
  close hp (operand hp h)

/-- What a rule reads, the next looser rule reads. -/
theorem loosen_one (h : e.FoundAt endLine m (.level q)) (hq : q ≤ .product)
    (hrank : q.rank = p.rank + 1) : e.FoundAt endLine m (.level p) := by
  cases q with
  | comma => cases hrank
  | unary | primary => exact absurd hq (by decide)
  | conditional => cases p <;> first | exact unassigned h | cases hrank
  | disjunction => cases p <;> first | exact unbranched h | cases hrank
  | _ => cases p <;> first | exact ofOperands rfl h | cases hrank

/-- What a rule reads, a looser rule reads. -/
theorem loosen (h : e.FoundAt endLine m (.level q)) (hq : q ≤ .product) (hpq : p ≤ q) :
    e.FoundAt endLine m (.level p) := by
  obtain ⟨n, hn⟩ := Nat.le.dest hpq
  induction n generalizing p with
  | zero =>
    obtain rfl : p = q := by
      cases p <;> cases q <;> first | rfl | cases hn
    exact h
  | succ n ih =>
    -- some level lies between, for the ranks are those of the levels
    obtain ⟨r, hr⟩ : ∃ r : Precedence, r.rank = p.rank + 1 := by
      have hproduct : q.rank ≤ Precedence.rank .product := hq
      cases p <;> first
        | exact ⟨.assignment, rfl⟩ | exact ⟨.conditional, rfl⟩ | exact ⟨.disjunction, rfl⟩
        | exact ⟨.conjunction, rfl⟩ | exact ⟨.equality, rfl⟩ | exact ⟨.comparison, rfl⟩
        | exact ⟨.sum, rfl⟩ | exact ⟨.product, rfl⟩
        | (simp only [Precedence.rank] at hn hproduct; omega)
    have hrq : r ≤ q := by
      show r.rank ≤ q.rank
      omega
    refine loosen_one (ih hrq (by omega)) (Precedence.le_trans hrq hq) hr

end Expr.FoundAt

/-! ## Every rule -/

namespace Expr

variable {endLine : UInt32}

/-- An expression that the rule of level `q` reads is read by all looser ones.  `q` is the tightest
level of the expression, apart from operands of unary operators. -/
theorem found_of_level {e : Expr} {q : Precedence} (hq : q ≤ .product)
    (hmax : ∀ p, p ≤ .product → p ≤ e.precedence → p ≤ q)
    (hlevel : ∀ m, e.levels ≤ m → e.FoundAt endLine m (.level q))
    (hchain : q.isChain → ∀ m, e.levels ≤ m → e.FoundAt endLine m (.chain q))
    (hunary : .unary ≤ e.precedence →
      ∀ m, e.levels ≤ m + 1 → e.FoundAt endLine m (.level .unary)) :
    e.Found endLine := by
  have hpos := e.levels_pos
  have hloosen : ∀ m p, e.levels ≤ m → p ≤ .product → p ≤ e.precedence →
      e.FoundAt endLine m (.level p) := fun m p hm hp hle =>
    (hlevel m hm).loosen hq (hmax p hp hle)
  intro m scope hadmits hroom
  obtain ⟨hloose, hadmits⟩ := hadmits
  cases scope with
  | chain p =>
    have hproduct : p ≤ .product := by cases p <;> first | decide | cases hadmits
    rcases Nat.eq_or_lt_of_le (hmax p hproduct hloose) with heq | hlt
    · obtain rfl : p = q := by cases p <;> cases q <;> first | rfl | cases heq
      exact hchain hadmits m hroom
    · -- the operands of the chain are no tighter than the expression
      have hlt' : p < .product := Nat.lt_of_lt_of_le hlt hq
      refine .operand hadmits ?_
      have hnext : ∀ r, r.rank = p.rank + 1 → e.FoundAt endLine m (.level r) := by
        intro r hr
        refine (hlevel m hroom).loosen hq ?_
        show r.rank ≤ q.rank
        omega
      cases p <;> first
        | exact hnext _ rfl
        | exact absurd hlt' (by decide)
        | exact nomatch hadmits
  | level p =>
    by_cases hp : p = .unary
    · subst hp
      exact hunary hloose m hroom
    · have hproduct : p ≤ .product := by
        cases p <;> first | decide | exact absurd rfl hp | exact absurd hadmits (by decide)
      have hm : e.levels ≤ m := by
        cases p <;> first | exact hroom | exact absurd hproduct (by decide)
      exact hloosen m p hm hproduct hloose
  | opened o =>
    have hm : 0 < m := by
      cases o <;> simp only [Scope.room] at hroom <;> omega
    obtain ⟨m, rfl⟩ := Nat.exists_eq_succ_of_ne_zero (Nat.ne_of_gt hm)
    cases o with
    | expression => exact .opened (hloosen m .comma hroom (by decide) hloose)
    | assignment => exact .opened (hloosen m .assignment hroom (by decide) hloose)
    | unary => exact .opened (hunary hloose m hroom)

/-- An operand that is read as the operand of a unary operator is read wherever it can stand. -/
theorem found_of_unary {e : Expr}
    (hunary : ∀ m, e.levels ≤ m + 1 → e.FoundAt endLine m (.level .unary)) :
    e.Found endLine := by
  have hchain : ∀ m, e.levels ≤ m → e.FoundAt endLine m (.chain .product) := by
    intro m hm
    have hpos := e.levels_pos
    obtain ⟨m, rfl⟩ := Nat.exists_eq_succ_of_ne_zero (Nat.ne_of_gt (Nat.lt_of_lt_of_le hpos hm))
    exact .operand rfl (.opened (hunary m hm))
  exact found_of_level (Nat.le_refl _) (fun _ hp _ => hp) (fun m hm => .close rfl (hchain m hm))
    (fun _ => hchain) (fun _ => hunary)

/-- A primary expression is read wherever it can stand. -/
theorem found_of_primary {e : Expr}
    (hstart : ∀ used us, used.map Token.item = e.items →
      (nextKind (used ++ us)).isUnary = false)
    (hprimary : ∀ m used us, e.levels ≤ m + 1 → used.map Token.item = e.items →
      Expr.Reads endLine m (.level .primary) (used ++ us) e us []) :
    e.Found endLine := by
  refine found_of_unary fun m hm => ?_
  intro used us hitems _ _
  exact .bare (hstart used us hitems) (hprimary m used us hm hitems)

/-- A token that is an expression by itself is read. -/
theorem found_of_token {e : Expr} {item : Item}
    (hitems : e.items = [item]) (hstart : ∀ t : Token, t.item = item → t.kind.isUnary = false)
    (htoken : ∀ m t us, t.item = item → Expr.Reads endLine m (.level .primary) (t :: us) e us []) :
    e.Found endLine := by
  refine found_of_primary (fun used us h => ?_) fun m used us _ h => ?_ <;>
  · rw [hitems] at h
    obtain ⟨t, rfl, ht⟩ := List.map_eq_singleton_iff.1 h
    first | exact hstart t ht | exact htoken m t us ht

/-- A chain is read if its operands are. -/
theorem found_join {p : Precedence} {lhs rhs : Expr} {op : Token}
    (hop : op.kind.precedence? = some p) (hfit : fitBeside p lhs rhs) (hlhs : lhs.Found endLine)
    (hrhs : rhs.Found endLine) : (p.join lhs op rhs).Found endLine := by
  have hp := TokenKind.isChain_of_precedence? hop
  have hproduct : p ≤ .product := by cases p <;> first | decide | cases hp
  simp only [fitBeside, Bool.and_eq_true, Bool.or_eq_true, decide_eq_true_eq, bne_iff_ne,
    Bool.not_eq_eq_eq_not, Bool.not_true] at hfit
  obtain ⟨⟨hle, hlt⟩, hcomma⟩ := hfit
  have hchain : ∀ m, (p.join lhs op rhs).levels ≤ m →
      (p.join lhs op rhs).FoundAt endLine m (.chain p) := by
    intro m hm used us hitems hstops hend
    rw [levels_join, Nat.max_le] at hm
    rw [items_join] at hitems
    obtain ⟨ts, ws, rfl, hts, hws⟩ := List.map_eq_append_iff.1 hitems
    obtain ⟨t, vs, rfl, ht, hvs⟩ := List.map_eq_cons_iff.1 hws
    obtain rfl := Token.eq_of_item_token ht
    rw [endsInConditional_join hop] at hend
    have hleft :
        Expr.Reads endLine m (.chain p) (ts ++ t :: (vs ++ us)) lhs (t :: (vs ++ us)) [] := by
      refine @hlhs m (.chain p) ⟨hle, hp⟩ hm.1 _ _ hts ?_ ?_
      · intro q hq
        rw [nextKind_cons, TokenKind.continuation?_of_precedence? hop] at hq
        cases hq
        exact Nat.le_refl _
      · intro hopen
        rcases hcomma with hne | hclosed
        · -- what can stand left of a tighter operator does not end in a conditional
          have hdisjunction : .disjunction ≤ lhs.precedence := by
            refine Precedence.le_trans ?_ hle
            cases p <;> first | decide | exact absurd rfl hne | exact nomatch hp
          rw [endsInConditional_of_disjunction_le hdisjunction] at hopen
          cases hopen
        · rw [hclosed] at hopen
          cases hopen
    have hright : Expr.Reads endLine m p.operands (vs ++ us) rhs us [] := by
      refine hrhs (Scope.admits_operands hp hlt) ?_ hvs ((Scope.stops_operands hp).2 hstops) ?_
      · rw [Scope.room_operands hp]
        exact hm.2
      · intro hopen
        by_cases hne : p = .comma
        · exact hend (by simp [hne, hopen])
        · have hdisjunction : .disjunction ≤ rhs.precedence := by
            refine Precedence.le_trans ?_ (Precedence.le_of_lt hlt)
            cases p <;> first | decide | exact absurd rfl hne | exact nomatch hp
          rw [endsInConditional_of_disjunction_le hdisjunction] at hopen
          cases hopen
    simpa using hleft.join hop hright
  refine found_of_level hproduct ?_ (fun m hm => .close hp (hchain m hm)) (fun _ => hchain) ?_
  · intro q _ hq
    rwa [precedence_join hop] at hq
  · intro hunary
    rw [precedence_join hop] at hunary
    exact absurd (Precedence.le_trans hunary hproduct) (by decide)

theorem found_variable {name : Token} (hname : name.kind = .identifier) :
    (Expr.variable name).Found endLine := by
  refine found_of_token rfl (fun t ht => ?_) fun m t us ht => ?_
  · rw [Token.eq_of_item_token ht, hname]
    rfl
  · obtain rfl := Token.eq_of_item_token ht
    exact .name hname

/-- A whole expression is read in front of anything that goes on with nothing. -/
theorem Found.whole {e : Expr} (h : e.Found endLine) {m : Nat} (hm : 1 + e.levels ≤ m)
    {used us : List Token} (hitems : used.map Token.item = e.items)
    (hnext : (nextKind us).continuation? = none) :
    Expr.Reads endLine m (.opened .expression) (used ++ us) e us [] := by
  refine @h m (.opened .expression) ⟨Nat.zero_le _, trivial⟩ ?_ _ _ hitems ?_ fun _ => hnext
  · simp only [Scope.room]
    omega
  · intro q hq
    rw [hnext] at hq
    cases hq

/-- Normal expressions that miss no operand are read. -/
theorem found (endLine : UInt32) (e : Expr) (hnormal : e.isNormal) (hmissing : e.missingCount = 0) :
    e.Found endLine := by
  induction e with
  | string text =>
    refine found_of_token rfl (fun t ht => ?_) fun m t us ht => ?_
    · rw [(Token.of_item_string ht).1]
      rfl
    · obtain ⟨hkind, htext⟩ := Token.of_item_string ht
      exact .string hkind htext
  | number value =>
    refine found_of_token rfl (fun t ht => ?_) fun m t us ht => ?_
    · rw [(Token.of_item_number ht).1]
      rfl
    · obtain ⟨hkind, hvalue⟩ := Token.of_item_number ht
      exact .number hkind hvalue
  | bool value =>
    cases value with
    | false =>
      refine found_of_token rfl (fun t ht => ?_) fun m t us ht =>
        .no (Token.kind_of_item_mark ht)
      rw [Token.kind_of_item_mark ht]
      rfl
    | true =>
      refine found_of_token rfl (fun t ht => ?_) fun m t us ht =>
        .yes (Token.kind_of_item_mark ht)
      rw [Token.kind_of_item_mark ht]
      rfl
  | nil =>
    refine found_of_token rfl (fun t ht => ?_) fun m t us ht =>
      .nil (Token.kind_of_item_mark ht)
    rw [Token.kind_of_item_mark ht]
    rfl
  | «variable» name => exact found_variable (by simpa [isNormal] using hnormal)
  | unary op arg ih =>
    simp only [isNormal, Bool.and_eq_true, decide_eq_true_eq] at hnormal
    obtain ⟨⟨hop, harg⟩, hlevel⟩ := hnormal
    refine found_of_unary fun m hm => ?_
    intro used us hitems _ _
    obtain ⟨t, ts, rfl, ht, hts⟩ := List.map_eq_cons_iff.1 hitems
    obtain rfl := Token.eq_of_item_token ht
    refine .unary hop (@ih harg hmissing m (.opened .unary) ⟨hlevel, trivial⟩ ?_ _ _ hts ?_ ?_)
    · simp only [levels, Scope.room] at hm ⊢
      omega
    · exact fun q hq => TokenKind.lt_unary_of_continuation? hq
    · intro hopen
      rw [endsInConditional_of_disjunction_le (Precedence.le_trans (by decide) hlevel)] at hopen
      cases hopen
  | binary lhs op rhs ih ih' =>
    obtain ⟨p, hop, heq⟩ := exists_join_of_isNormal (.inl rfl) hnormal
    rw [heq] at hnormal ⊢
    rw [isNormal_join hop, Bool.and_eq_true, Bool.and_eq_true] at hnormal
    simp only [missingCount, Nat.add_eq_zero_iff] at hmissing
    exact found_join hop hnormal.2 (ih hnormal.1.1 hmissing.1) (ih' hnormal.1.2 hmissing.2)
  | logical lhs op rhs ih ih' =>
    obtain ⟨p, hop, heq⟩ := exists_join_of_isNormal (.inr rfl) hnormal
    rw [heq] at hnormal ⊢
    rw [isNormal_join hop, Bool.and_eq_true, Bool.and_eq_true] at hnormal
    simp only [missingCount, Nat.add_eq_zero_iff] at hmissing
    exact found_join hop hnormal.2 (ih hnormal.1.1 hmissing.1) (ih' hnormal.1.2 hmissing.2)
  | conditional condition yes no ih ih' ih'' =>
    simp only [isNormal, Bool.and_eq_true, decide_eq_true_eq] at hnormal
    obtain ⟨⟨⟨hcondition, hyes⟩, hno⟩, hlevel⟩ := hnormal
    simp only [missingCount, Nat.add_eq_zero_iff] at hmissing
    refine found_of_level (q := .conditional) (by decide) (fun p _ hp => hp) (fun m hm => ?_)
      (fun hchain => by cases hchain)
      fun hunary => absurd (show Precedence.unary ≤ .conditional from hunary) (by decide)
    intro used us hitems hstops hend
    obtain ⟨ts, ws, rfl, hts, hws⟩ := List.map_eq_append_iff.1 hitems
    obtain ⟨question, xs, rfl, hquestion, hxs⟩ := List.map_eq_cons_iff.1 hws
    obtain ⟨ys, zs, rfl, hys, hzs⟩ := List.map_eq_append_iff.1 hxs
    obtain ⟨colon, vs, rfl, hcolon, hvs⟩ := List.map_eq_cons_iff.1 hzs
    have hquestion := Token.kind_of_item_mark hquestion
    have hcolon := Token.kind_of_item_mark hcolon
    simp only [levels, Nat.max_le] at hm
    have hreads : Expr.Reads endLine m (.level .disjunction)
        (ts ++ question :: (ys ++ colon :: (vs ++ us))) condition
        (question :: (ys ++ colon :: (vs ++ us))) [] := by
      refine @ih hcondition hmissing.1.1 m (.level .disjunction) ⟨hlevel, by decide⟩ hm.1 _ _ hts
        ?_ ?_
      · rw [nextKind_cons, hquestion]
        rintro q ⟨⟩
        exact (by decide : Precedence.conditional < .disjunction)
      · intro hopen
        rw [endsInConditional_of_disjunction_le hlevel] at hopen
        cases hopen
    have hreadsYes : Expr.Reads endLine m (.opened .expression) (ys ++ colon :: (vs ++ us)) yes
        (colon :: (vs ++ us)) [] :=
      (ih' hyes hmissing.1.2).whole hm.2.1 hys (by rw [nextKind_cons, hcolon]; rfl)
    have hreadsNo : Expr.Reads endLine m (.opened .expression) (vs ++ us) no us [] :=
      (ih'' hno hmissing.2).whole hm.2.2 hvs (hend rfl)
    simpa using hreads.conditional hquestion hreadsYes hcolon hreadsNo
  | group inner ih =>
    refine found_of_primary (fun used us hitems => ?_) fun m used us hm hitems => ?_
    · obtain ⟨t, ts, rfl, ht, -⟩ := List.map_eq_cons_iff.1 hitems
      rw [List.cons_append, nextKind_cons, Token.kind_of_item_mark ht]
      rfl
    · obtain ⟨left, ts, rfl, hleft, hts⟩ := List.map_eq_cons_iff.1 hitems
      obtain ⟨vs, ws, rfl, hvs, hws⟩ := List.map_eq_append_iff.1 hts
      obtain ⟨right, rfl, hright⟩ := List.map_eq_singleton_iff.1 hws
      have hright := Token.kind_of_item_mark hright
      simp only [levels] at hm
      have hinner : Expr.Reads endLine m (.opened .expression) (vs ++ right :: us) inner
          (right :: us) [] :=
        (ih hnormal hmissing).whole (by omega) hvs (by rw [nextKind_cons, hright]; rfl)
      simpa using Expr.Reads.group (Token.kind_of_item_mark hleft) hinner hright
  | assign name value ih =>
    simp only [isNormal, Bool.and_eq_true, decide_eq_true_eq, beq_iff_eq] at hnormal
    obtain ⟨⟨hname, hvalue⟩, hlevel⟩ := hnormal
    refine found_of_level (q := .assignment) (by decide) (fun p _ hp => hp) (fun m hm => ?_)
      (fun hchain => by cases hchain)
      fun hunary => absurd (show Precedence.unary ≤ .assignment from hunary) (by decide)
    intro used us hitems hstops hend
    obtain ⟨t, ts, rfl, ht, hts⟩ := List.map_eq_cons_iff.1 hitems
    obtain ⟨equals, vs, rfl, hequals, hvs⟩ := List.map_eq_cons_iff.1 hts
    obtain rfl := Token.eq_of_item_token ht
    have hequals := Token.kind_of_item_mark hequals
    have hpos := value.levels_pos
    simp only [levels] at hm
    have htarget : Expr.Reads endLine m (.level .conditional) (t :: equals :: (vs ++ us))
        (.variable t) (equals :: (vs ++ us)) [] := by
      refine @found_variable endLine t hname m (.level .conditional)
        ⟨(by decide : Precedence.conditional ≤ .primary), by decide⟩ ?_ [t] _ ?_ ?_
        fun hopen => by cases hopen
      · show 1 ≤ m
        omega
      · simp only [List.map_cons, List.map_nil, items, Token.item_of_identifier hname]
      · rw [nextKind_cons, hequals]
        rintro q ⟨⟩
        exact (by decide : Precedence.assignment < .conditional)
    have hreads : Expr.Reads endLine m (.opened .assignment) (vs ++ us) value us [] := by
      refine @ih hvalue hmissing m (.opened .assignment) ⟨hlevel, trivial⟩ ?_ _ _ hvs hstops hend
      simp only [Scope.room]
      omega
    simpa using htarget.assign hequals hreads
  | missing => cases hmissing

end Expr

end LoxSyntax
