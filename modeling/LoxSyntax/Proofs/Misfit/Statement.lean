import LoxSyntax.Proofs.Misfit.Expression

/-!
# Statements that break off

Where a statement breaks at a token that does not fit, the tokens before that one are the beginning
of a statement: the clauses and branches that are lacking are made of names and semicolons, and
every block is closed.  The declarations before it are read as before, for what completes a
statement is never an `else` that could go on with them.

* `Stmt.Reads.exists_used` — what has been read, in front of other tokens.
* `Grammar.declarationsOf_viable` — declarations of which one breaks off.
* **`Grammar.statementAt_viable`** — statements that break off can be completed.
-/

namespace LoxSyntax

/-! ## What has been read -/

section Used

variable {endLine : UInt32} {m : Nat} {ts us : List Token} {ev : List Event}

theorem Stmt.ReadsInitial.exists_used {o : Option Stmt}
    (h : Stmt.ReadsInitial endLine m ts o us ev) (hev : Unbroken ev) :
    ∃ used, ts = used ++ us ∧ ∀ endLine' ⦃m'⦄ us', m + 3 ≤ m' →
      ∃ ev', Unbroken ev' ∧ Stmt.ReadsInitial endLine' m' (used ++ us') o us' ev' := by
  obtain ⟨used, rfl⟩ := h.suffix
  refine ⟨used, rfl, fun endLine' m' us' hm => ?_⟩
  obtain ⟨used', ev', -, hused, hev', hreads⟩ :=
    h.retail endLine' (Nat.le_of_add_right_le hm) us'
  obtain rfl := List.append_cancel_right hused
  exact ⟨ev', hev.of_problemsOf hev', hreads⟩

/-- In front of the token that it ends at an optional expression can always stand. -/
theorem Expr.ReadsOptional.retails {kind : TokenKind} (hkind : kind.closes) :
    Retails kind (fun endLine m => Expr.ReadsOptional endLine m kind) m := by
  intro endLine ts o us ev h hev
  cases h with
  | none stop =>
    exact ⟨[], rfl, fun _ => stop, fun _ _ _ _ hus => ⟨[], unbroken_nil, .none hus⟩⟩
  | some start value =>
    have hlt := value.length_lt
    obtain ⟨used, rfl, hnil, hused⟩ := Expr.Reads.retails hkind value hev
    refine ⟨used, rfl, hnil, fun endLine' m' us' hm hus => ?_⟩
    obtain ⟨ev', hev', hvalue⟩ := hused endLine' us' hm hus
    refine ⟨ev', hev', .some ?_ hvalue⟩
    rwa [nextKind_append (by rintro rfl; simp at hlt) us' us]

/-- What has been read is read in the same way in front of all that does not go on with it. -/
theorem Stmt.Reads.exists_used {scope : Stmt.Scope} {ss : List Stmt}
    (h : Stmt.Reads endLine m scope ts ss us ev) (hev : Unbroken ev) :
    ∃ used, ts = used ++ us ∧ ∀ endLine' ⦃m'⦄ us', m + 3 ≤ m' → scope.EndsLike us' us →
      ∃ ev', Unbroken ev' ∧ Stmt.Reads endLine' m' scope (used ++ us') ss us' ev' := by
  obtain ⟨used, rfl⟩ := h.suffix
  refine ⟨used, rfl, fun endLine' m' us' hm hus => ?_⟩
  obtain ⟨used', ev', hused, hev', hreads⟩ :=
    h.retail hev endLine' (Nat.le_of_add_right_le hm) us' hus
  obtain rfl := List.append_cancel_right hused
  exact ⟨ev', hev.of_problemsOf hev', hreads⟩

/-- What is read without a problem that ends a rule. -/
theorem Stmt.Reads.completes {scope : Stmt.Scope} {s : Stmt}
    (h : Stmt.Reads endLine m scope ts [s] us ev) (hev : Unbroken ev) :
    ∃ s ev, Unbroken ev ∧ Stmt.Reads endLine m scope ts [s] us ev :=
  ⟨s, ev, hev, h⟩

/-- A name and a semicolon are a statement. -/
theorem Stmt.Reads.sample (endLine : UInt32) {m : Nat} (hm : 3 ≤ m) (us : List Token) :
    Stmt.Reads endLine m .statement (samples [.identifier, .semicolon] ++ us)
      [.expression (.variable (.sample .identifier))] us [] := by
  obtain ⟨m, rfl⟩ := Nat.exists_eq_add_of_le' (Nat.le_trans (Nat.le_add_left 1 _) hm)
  have hname := Expr.Reads.sample endLine (m := m) (by omega) (.sample .semicolon :: us) rfl
  exact .opened (.expression rfl ⟨.sample .semicolon, hname, rfl⟩)

end Used

namespace Grammar

open Rule

/-! ## Parts that hold no statement -/

section Simple

variable {expr : Rule Expr} {m : Nat} (hexpr : Follows expr m (.opened .expression))
  (hv : Viable expr m (.opened .expression))

include hexpr hv

/-- An expression and its semicolon. -/
theorem ended_viable (landmark : Landmark) (hlandmark : landmark.kind = .semicolon) {β : Type}
    {f : Expr → β} {c : Cursor} {d : Diagnostic} (hroom : c.room = m)
    (hbreaks : (do let e ← expr; let _ ← expect landmark; return f e : Rule β).Breaks c d) :
    Completable (fun endLine m => Expr.ReadsEnded endLine m) (fun _ => True) m c.unread
      d.place.unread := by
  have hcloses : landmark.kind.closes := by
    rw [hlandmark]
    rfl
  rcases demanded_completable landmark hexpr (hv hroom) (Expr.Reads.retails hcloses) hcloses hroom
      hbreaks with
    hbreak | ⟨_, _, _, _, -, -, -, hpure⟩
  · rw [hlandmark] at hbreak
    exact hbreak
  · exact absurd hpure (not_breaks_pure _)

theorem terminated_viable {c : Cursor} {d : Diagnostic} (hroom : c.room = m)
    (hbreaks : (terminated expr).Breaks c d) :
    Completable (fun endLine m => Expr.ReadsEnded endLine m) (fun _ => True) m c.unread
      d.place.unread :=
  ended_viable hexpr hv .valueEnd rfl hroom hbreaks

/-- A declaration breaks off at its name, in its value, or where its semicolon is lacking. -/
theorem variableDeclaration_viable {c : Cursor} {d : Diagnostic} (hroom : c.room = m)
    (hbreaks : (variableDeclaration expr).Breaks c d) :
    Completable (fun endLine m => Stmt.ReadsVariable endLine m) (fun _ => True) m c.unread
      d.place.unread := by
  rcases hbreaks.of_expect with ⟨hplace, -⟩ | ⟨name, ts, hts, hname, hrest⟩
  · refine ⟨[], [.identifier, .semicolon], by rw [hplace]; rfl, by decide, fun _ => rfl, ?_⟩
    exact fun endLine m' vs _ _ => ⟨_, [], unbroken_nil, .bare rfl rfl⟩
  rcases hrest.of_eat (by decide) with ⟨equals, us, hus, hequals, hvalue⟩ | ⟨-, hend⟩
  · obtain rfl : ts = equals :: us := hus
    refine (ended_viable hexpr hv .variableEnd rfl (c := c.upTo us) hroom hvalue).behind
      [name, equals] hts (fun _ => id) ?_
    intro endLine m' us' vs e ev _ _ _ hev he
    exact ⟨_, ev, hev, .valued hname hequals he⟩
  · rcases hend.of_expect with ⟨hplace, -⟩ | ⟨_, _, _, _, hpure⟩
    · refine ⟨[name], [.semicolon], by rw [hts, hplace]; rfl, by decide, by simp, ?_⟩
      exact fun endLine m' vs _ _ => ⟨_, [], unbroken_nil, .bare hname rfl⟩
    · exact absurd hpure (not_breaks_pure _)

omit hexpr in
theorem unlessNext_viable {kind : TokenKind} (hkind : kind ≠ .identifier) {c : Cursor}
    {d : Diagnostic} (hroom : c.room = m) (hbreaks : (unlessNext expr kind).Breaks c d) :
    Completable (fun endLine m => Expr.ReadsOptional endLine m kind) (fun k => k.closes) m c.unread
      d.place.unread := by
  have hrest := breaks_place_bind.1 hbreaks
  rw [c.kind_eq_nextKind] at hrest
  split at hrest
  · exact absurd hrest (not_breaks_pure _)
  · next hstart =>
    refine (hv hroom hrest.bind_pure).mono (fun _ => id) ?_
    intro endLine m' us' vs e ev _ _ hhead hev he
    refine ⟨some e, ev, hev, .some ?_ he⟩
    rcases hhead with hsame | hname
    · rwa [hsame]
    · rw [hname]
      exact hkind.symm

theorem forInitial_viable {c : Cursor} {d : Diagnostic} (hroom : c.room = m)
    (hbreaks : (forInitial expr).Breaks c d) :
    Completable (fun endLine m => Stmt.ReadsInitial endLine m) (fun _ => True) m c.unread
      d.place.unread := by
  rcases hbreaks.of_eat (by decide) with ⟨_, _, _, _, hpure⟩ | ⟨hsemicolon, hrest⟩
  · exact absurd hpure (not_breaks_pure _)
  rcases hrest.of_eat (by decide) with ⟨word, us, hus, hword, hdeclared⟩ | ⟨hword, hstated⟩
  · refine (variableDeclaration_viable hexpr hv (c := c.upTo us) hroom
      hdeclared.bind_pure).behind [word] hus (fun _ => id) ?_
    intro endLine m' us' vs s ev _ _ _ hev hs
    exact ⟨some s, ev, hev, .declared hword hs⟩
  · refine (terminated_viable hexpr hv hroom hstated.bind_pure).mono (fun _ => id) ?_
    intro endLine m' us' vs e ev _ _ hhead hev he
    rcases hhead with hsame | hname
    · rw [← hsame] at hsemicolon hword
      exact ⟨_, ev, hev, .stated hsemicolon hword he⟩
    · exact ⟨_, ev, hev, .stated (by simp [hname]) (by simp [hname]) he⟩

end Simple

/-! ## Declarations -/

/-- What has been read is the beginning of one statement. -/
abbrev CompletableStatement (scope : Stmt.Scope) : Nat → List Token → List Token → Prop :=
  Completable (fun endLine m ts s us ev => Stmt.Reads endLine m scope ts [s] us ev)
    fun k => k.closes

/-- Wherever the rule for a statement breaks, what it has read can be completed. -/
def ViableStatement (stmt : Rule Stmt) (m : Nat) (scope : Stmt.Scope) : Prop :=
  ∀ ⦃c d⦄, c.room = m → stmt.Breaks c d → CompletableStatement scope m c.unread d.place.unread

section Compound

variable {expr : Rule Expr} {stmt : Rule Stmt} {m : Nat}
  (hexpr : Follows expr m (.opened .expression)) (hstmt : Derived stmt m .statement)
  (hv : Viable expr m (.opened .expression)) (hsv : ViableStatement stmt m .statement)

include hexpr hv hsv

theorem declarationOf_viable {c : Cursor} {d : Diagnostic} (hroom : c.room = m)
    (hbreaks : (declarationOf expr stmt).Breaks c d) :
    Completable (fun endLine m => Stmt.Reads endLine m .declaration) (fun k => k.closes) m c.unread
      d.place.unread := by
  have hrecovered := (breaks_place_bind.1 hbreaks).of_note (by
    rintro _ ⟨⟩)
  rcases hrecovered.recovered.of_eat (by decide) with
    ⟨word, us, hus, hword, hdeclared⟩ | ⟨hword, hstated⟩
  · refine (variableDeclaration_viable hexpr hv (c := c.upTo us) hroom hdeclared).behind [word] hus
      (fun _ _ => trivial) ?_
    intro endLine m' us' vs s ev _ _ _ hev hs
    exact ⟨[s], _ :: ev, by simpa [Unbroken] using hev, .declared hword hs⟩
  · refine (hsv hroom hstated).mono (fun _ => id) ?_
    intro endLine m' us' vs s ev _ _ hhead hev hs
    refine ⟨[s], .declaring ⟨us', endLine⟩ :: ev, by simpa [Unbroken] using hev, .stated ?_ hs⟩
    rcases hhead with hsame | hname
    · rwa [hsame]
    · simp [hname]

include hstmt

/-- Of several declarations one breaks off, and the ones before it are read as before.  What
completes a declaration is no `else`, which could go on with the one before. -/
theorem declarationsOf_viable {expr' : Rule Expr} {stmt' : Rule Stmt} (he : Widens expr expr')
    (hs : Widens stmt stmt') {last : TokenKind} (hlast : last.closes) (rounds : List Token) :
    ∀ {c : Cursor} {d : Diagnostic}, c.room = m →
      (declarationsOf (declarationOf expr stmt) last rounds).Breaks c d →
      Completable (fun endLine m => Stmt.Reads endLine m (.declarations last))
        (fun k => k = .eof ∨ k = last) m c.unread d.place.unread := by
  have hends : ∀ k : TokenKind, k = .eof ∨ k = last → k.closes := by
    rintro _ (rfl | rfl)
    · rfl
    · exact hlast
  induction rounds with
  | nil => exact fun _ h => absurd h (not_breaks_pure _)
  | cons _ rounds ih =>
    intro c d hroom hbreaks
    have hround := breaks_place_bind.1 hbreaks
    rw [c.kind_eq_nextKind] at hround
    dsimp only at hround
    split at hround
    · exact absurd hround (not_breaks_pure _)
    next hstart =>
    have hne : c.unread ≠ [] := by
      intro hnil
      simp [hnil] at hstart
    rcases hround.bind with hbreak | ⟨o, c₁, ev₁, hfirst, hev₁, hmore⟩
    · refine (declarationOf_viable hexpr hv hsv hroom hbreak).mono hends ?_
      intro endLine m' us' vs ss ev _ hvs hhead hev hss
      refine ⟨ss ++ [], ev ++ [], by simpa using hev, .next ?_ hss (.done hvs)⟩
      rcases hhead with hsame | hname
      · rwa [hsame]
      · rw [hname]
        exact fun hstop => absurd (hends _ hstop) (by decide)
    · obtain ⟨us, rfl, hreads⟩ := declarationOf_reads hexpr hstmt he hs hroom (fun _ => hne) hfirst
      have hlt := hreads.length_le
      obtain ⟨used, hts, hused⟩ := hreads.exists_used hev₁
      have hused_ne : used ≠ [] := by
        rintro rfl
        exact absurd hlt (by simp [hts, Stmt.Scope.reading])
      refine (ih (c := c.upTo us) hroom hmore.map).behind used hts (fun _ => id) ?_
      intro endLine m' us' vs ss ev hm _ hhead hev hss
      have hseam : Stmt.Scope.declaration.EndsLike us' us := by
        rcases hhead with hsame | hname
        · exact .inl hsame
        · exact .inr (by simp [hname])
      obtain ⟨ev₁', hev₁', hfirst'⟩ := hused endLine us' hm hseam
      refine ⟨_, ev₁' ++ ev, unbroken_append.2 ⟨hev₁', hev⟩, .next ?_ hfirst' hss⟩
      rwa [hts, nextKind_append hused_ne us us'] at hstart

/-! ## Compound statements -/

/-- The same for a statement behind its first token. -/
def ViableBehind (kind : TokenKind) (rule : Rule Stmt) (m : Nat) : Prop :=
  ∀ ⦃c d word⦄, c.room = m → word.kind = kind → rule.Breaks c d →
    CompletableStatement .body m (word :: c.unread) d.place.unread

theorem block_viable {expr' : Rule Expr} {stmt' : Rule Stmt} (he : Widens expr expr')
    (hs : Widens stmt stmt') : ViableBehind .leftBrace (block expr stmt) m := by
  intro c d left hroom hleft hbreaks
  rcases (breaks_place_bind.1 hbreaks).bind with hbreak | ⟨ss, c₁, ev, hgives, hev, hend⟩
  · refine (declarationsOf_viable hexpr hstmt hv hsv he hs rfl c.unread hroom hbreak).within
      [left] [.rightBrace] rfl (by decide) (fun _ _ => .inr rfl) ?_
    intro endLine m' us' vs ss ev _ _ _ hev hss
    exact ⟨_, ev, hev, .block hleft hss rfl⟩
  obtain ⟨us, rfl, hreads⟩ :=
    declarationsOf_reads hexpr hstmt he hs _ c.unread hroom (Nat.le_refl _) hgives
  rcases hend.of_expect with ⟨hplace, -⟩ | ⟨_, _, _, _, hpure⟩
  · obtain ⟨used, hts, hused⟩ := hreads.exists_used hev
    refine ⟨left :: used, [.rightBrace], by simp [hts, hplace], by decide, by simp, ?_⟩
    intro endLine m' vs hm _
    obtain ⟨ev', hev', hss⟩ := hused endLine (.sample .rightBrace :: vs) hm
      ⟨.inr rfl, by simp [Token.sample]⟩
    exact ⟨_, ev', hev', .block hleft hss rfl⟩
  · exact absurd hpure (not_breaks_pure _)

omit hstmt hsv in
/-- A condition in parentheses breaks off where one of these is lacking, or inside, and with it the
statement that it belongs to. -/
theorem condition_viable (start stop : Landmark) {β : Type} {next : Expr → Rule β}
    (f : Expr → Stmt → Stmt) (word : Token)
    (hf : ∀ ⦃endLine m left ts e right us s vs ev ev'⦄, left.kind = start.kind →
      Expr.Reads endLine m (.opened .expression) ts e (right :: us) ev → right.kind = stop.kind →
      Stmt.Reads endLine m .statement us [s] vs ev' → (nextKind vs).closes →
      Stmt.Reads endLine m .body (word :: left :: ts) [f e s] vs (ev ++ ev'))
    (hstart : start.kind = .leftParen) (hstop : stop.kind = .rightParen) {c : Cursor}
    {d : Diagnostic} (hroom : c.room = m)
    (hbreaks : (do
      let _ ← expect start
      let e ← expr
      let _ ← expect stop
      next e : Rule β).Breaks c d) :
    CompletableStatement .body m (word :: c.unread) d.place.unread ∨
      ∃ left ts e right us ev, c.unread = left :: ts ∧ left.kind = start.kind ∧
        Expr.Reads c.endLine m (.opened .expression) ts e (right :: us) ev ∧
        right.kind = stop.kind ∧ (next e).Breaks (c.upTo us) d := by
  rcases hbreaks.of_expect with ⟨hplace, -⟩ | ⟨left, ts, hts, hleft, hcondition⟩
  · left
    refine ⟨[word], [.leftParen, .identifier, .rightParen, .identifier, .semicolon],
      by rw [hplace]; rfl, by decide, by simp, ?_⟩
    intro endLine m' vs hm hvs
    have hbody := Stmt.Reads.sample endLine (show 3 ≤ m' by omega) vs
    have hname := Expr.Reads.sample endLine (show 2 ≤ m' by omega)
      (.sample .rightParen :: (samples [.identifier, .semicolon] ++ vs)) rfl
    exact (hf hstart.symm hname hstop.symm hbody hvs).completes (by simp)
  have hcloses : stop.kind.closes := by
    rw [hstop]
    rfl
  rcases demanded_completable stop hexpr (hv hroom) (Expr.Reads.retails hcloses) hcloses
      (c := c.upTo ts) hroom hcondition with
    hbreak | ⟨e, right, us, ev, he, -, hright, hnext⟩
  · left
    refine hbreak.within [word, left] [.identifier, .semicolon] (by simp [hts]) (by decide)
      (fun _ _ => trivial) ?_
    rintro endLine m' us' vs e ev hm hvs _ hev ⟨right, he, hright⟩
    have hbody := Stmt.Reads.sample endLine (show 3 ≤ m' by omega) vs
    exact (hf hleft he hright hbody hvs).completes (by simpa using hev)
  · exact .inr ⟨left, ts, e, right, us, ev, hts, hleft, he, hright, hnext⟩

/-- A conditional breaks off in its condition, or in a branch. -/
theorem conditionalStatement_viable :
    ViableBehind .ifWord (conditionalStatement expr stmt) m := by
  intro c d word hroom hword hbreaks
  rcases condition_viable hexpr hv .ifStart .ifEnd .ifThen word
      (fun _ _ _ _ _ _ _ _ _ _ _ hleft he hright hs hvs =>
        .ifThen hword hleft he hright hs (TokenKind.ne_of_closes hvs rfl))
      rfl rfl hroom hbreaks with
    hhead | ⟨left, ts, e, right, us, ev, hts, hleft, he, hright, hrest⟩
  · exact hhead
  obtain ⟨used, hused, hretail⟩ := he.exists_used
  rcases hrest.bind with hbreak | ⟨yes, c₁, ev₁, hgives, hev₁, hbranch⟩
  · refine (hsv (c := c.upTo us) hroom hbreak).behind (word :: left :: used ++ [right])
      (by simp [hts, hused]) (fun _ => id) ?_
    intro endLine m' us' vs s ev' hm hvs _ hev' hs
    obtain ⟨ev, he⟩ := hretail endLine (right :: us') hm (.inl rfl)
    have hall := Stmt.Reads.ifThen hword hleft he hright hs (TokenKind.ne_of_closes hvs rfl)
    simpa using hall.completes (unbroken_append.2 ⟨he.unbroken, hev'⟩)
  obtain ⟨vs, rfl, hyes⟩ := hstmt (c := c.upTo us) hroom hgives
  rcases hbranch.of_eat (by decide) with ⟨other, ws, hws, hother, hno⟩ | ⟨-, hpure⟩
  · obtain rfl : vs = other :: ws := hws
    obtain ⟨used', hused', hretail'⟩ := hyes.exists_used hev₁
    obtain rfl : us = used' ++ other :: ws := hused'
    refine (hsv (c := c.upTo ws) hroom hno.bind_pure).behind
      (word :: left :: used ++ right :: used' ++ [other]) (by simp [hts, hused]) (fun _ => id) ?_
    intro endLine m' us' vs s ev'' hm hvs _ hev'' hs
    obtain ⟨ev', hev', hyes⟩ := hretail' endLine (other :: us') hm (.inl rfl)
    obtain ⟨ev, he⟩ := hretail endLine (right :: (used' ++ other :: us')) hm (.inl rfl)
    have hall := Stmt.Reads.ifElse hword hleft he hright hyes hother hs
    simpa using hall.completes (by simp [unbroken_append, he.unbroken, hev', hev''])
  · exact absurd hpure (not_breaks_pure _)

omit hstmt in
theorem whileLoop_viable : ViableBehind .whileWord (whileLoop expr stmt) m := by
  intro c d word hroom hword hbreaks
  rcases condition_viable hexpr hv .whileStart .whileEnd .loop word
      (fun _ _ _ _ _ _ _ _ _ _ _ hleft he hright hs _ => .loop hword hleft he hright hs)
      rfl rfl hroom hbreaks with
    hhead | ⟨left, ts, e, right, us, ev, hts, hleft, he, hright, hrest⟩
  · exact hhead
  obtain ⟨used, hused, hretail⟩ := he.exists_used
  refine (hsv (c := c.upTo us) hroom hrest.bind_pure).behind (word :: left :: used ++ [right])
    (by simp [hts, hused]) (fun _ => id) ?_
  intro endLine m' us' vs s ev' hm hvs _ hev' hs
  obtain ⟨ev, he⟩ := hretail endLine (right :: us') hm (.inl rfl)
  have hall := Stmt.Reads.loop hword hleft he hright hs
  simpa using hall.completes (unbroken_append.2 ⟨he.unbroken, hev'⟩)

omit hstmt in
/-- Behind its first clause a loop breaks off in one of the two others, where the token behind one
of them is lacking, or in its body.  `front` is what has been read of the loop up to there. -/
theorem forRest_viable (initial : Option Stmt) (front : List Token)
    (hfront : ∀ ⦃endLine m' us e semicolon vs e' right ws s xs ev ev' ev''⦄, m + 3 ≤ m' →
      Expr.ReadsOptional endLine m' .semicolon us e (semicolon :: vs) ev →
      semicolon.kind = .semicolon →
      Expr.ReadsOptional endLine m' .rightParen vs e' (right :: ws) ev' →
      right.kind = .rightParen → Stmt.Reads endLine m' .statement ws [s] xs ev'' →
      Unbroken (ev ++ (ev' ++ ev'')) →
      ∃ s ev, Unbroken ev ∧ Stmt.Reads endLine m' .body (front ++ us) [s] xs ev)
    {c : Cursor} {d : Diagnostic} (hroom : c.room = m)
    (hbreaks : (do
      let condition ← unlessNext expr .semicolon
      let _ ← expect .forConditionEnd
      let increment ← unlessNext expr .rightParen
      let _ ← expect .forEnd
      return Stmt.ofFor initial condition increment (← stmt) : Rule Stmt).Breaks c d) :
    CompletableStatement .body m (front ++ c.unread) d.place.unread := by
  rcases demanded_completable .forConditionEnd (unlessNext_follows hexpr .semicolon)
      (unlessNext_viable hv (by decide) hroom) (Expr.ReadsOptional.retails rfl) rfl hroom
      hbreaks with
    hbreak | ⟨condition, semicolon, vs, ev₁, hcondition, hev₁, hsemicolon, hclauses⟩
  · refine hbreak.within front [.rightParen, .identifier, .semicolon] rfl (by decide)
      (fun _ _ => trivial) ?_
    rintro endLine m' us' vs condition ev hm hvs _ hev ⟨semicolon, hcondition, hsemicolon⟩
    have hbody := Stmt.Reads.sample endLine (show 3 ≤ m' by omega) vs
    exact hfront hm hcondition hsemicolon (.none rfl) rfl hbody (by simpa using hev)
  obtain ⟨used₁, hused₁, -, hretail₁⟩ := Expr.ReadsOptional.retails rfl hcondition hev₁
  rcases demanded_completable .forEnd (unlessNext_follows hexpr .rightParen)
      (unlessNext_viable hv (by decide) hroom) (Expr.ReadsOptional.retails rfl) rfl (c := c.upTo vs)
      hroom hclauses with
    hbreak | ⟨increment, right, ws, ev₂, hincrement, hev₂, hright, hlast⟩
  · refine hbreak.within (front ++ used₁ ++ [semicolon]) [.identifier, .semicolon]
      (by simp [hused₁]) (by decide) (fun _ _ => trivial) ?_
    rintro endLine m' us' vs increment ev hm hvs _ hev ⟨right, hincrement, hright⟩
    obtain ⟨ev₁, hev₁, hcondition⟩ := hretail₁ endLine (semicolon :: us') hm hsemicolon
    have hbody := Stmt.Reads.sample endLine (show 3 ≤ m' by omega) vs
    have hall := hfront hm hcondition hsemicolon hincrement hright hbody
    simpa using hall (by simp [unbroken_append, hev₁, hev])
  · obtain ⟨used₂, hused₂, -, hretail₂⟩ := Expr.ReadsOptional.retails rfl hincrement hev₂
    obtain rfl : vs = used₂ ++ right :: ws := hused₂
    refine (hsv (c := c.upTo ws) hroom hlast.bind_pure).behind
      (front ++ used₁ ++ semicolon :: used₂ ++ [right]) (by simp [hused₁]) (fun _ => id) ?_
    intro endLine m' us' vs s ev hm hvs _ hev hs
    obtain ⟨ev₂, hev₂, hincrement⟩ := hretail₂ endLine (right :: us') hm hright
    obtain ⟨ev₁, hev₁, hcondition⟩ :=
      hretail₁ endLine (semicolon :: (used₂ ++ right :: us')) hm hsemicolon
    have hall := hfront hm hcondition hsemicolon hincrement hright hs
    simpa using hall (by simp [unbroken_append, hev₁, hev₂, hev])

omit hstmt in
/-- A loop breaks off at its parenthesis, in its first clause, or behind that.  All that completes
it is empty clauses and a name as the body. -/
theorem forLoop_viable : ViableBehind .forWord (forLoop expr stmt) m := by
  intro c d word hroom hword hbreaks
  rcases hbreaks.of_expect with ⟨hplace, -⟩ | ⟨left, ts, hts, hleft, hclauses⟩
  · refine ⟨[word], [.leftParen, .semicolon, .semicolon, .rightParen, .identifier, .semicolon],
      by rw [hplace]; rfl, by decide, by simp, ?_⟩
    intro endLine m' vs hm _
    have hbody := Stmt.Reads.sample endLine (show 3 ≤ m' by omega) vs
    have hall : Stmt.Reads endLine m' .body (word :: .sample .leftParen :: .sample .semicolon ::
        .sample .semicolon :: .sample .rightParen :: (samples [.identifier, .semicolon] ++ vs)) _ vs
        ([] ++ ([] ++ ([] ++ []))) :=
      .forLoop hword rfl (.none rfl) (.none rfl) rfl (.none rfl) rfl hbody
    exact hall.completes (by simp)
  rcases (forInitial_follows hexpr).breaks_bind (c := c.upTo ts) hroom hclauses with
    hbreak | ⟨initial, us, ev₁, hinitial, hev₁, hrest⟩
  · refine (forInitial_viable hexpr hv (c := c.upTo ts) hroom hbreak).within [word, left]
      [.semicolon, .rightParen, .identifier, .semicolon] (by simp [hts]) (by decide)
      (fun _ _ => trivial) ?_
    intro endLine m' us' vs initial ev hm hvs _ hev hinitial
    have hbody := Stmt.Reads.sample endLine (show 3 ≤ m' by omega) vs
    have hall := Stmt.Reads.forLoop hword hleft hinitial (.none rfl) rfl (.none rfl) rfl hbody
    exact hall.completes (by simpa using hev)
  · obtain ⟨used₁, hused₁, hretail₁⟩ := hinitial.exists_used hev₁
    have hts' : word :: c.unread = word :: left :: used₁ ++ us := by
      rw [hts, show ts = used₁ ++ us from hused₁]
      rfl
    rw [hts']
    refine forRest_viable hexpr hv hsv initial (word :: left :: used₁) ?_ (c := c.upTo us) hroom
      hrest
    intro endLine m' us' _ _ _ _ _ _ _ _ ev ev' ev'' hm hcondition hsemicolon hincrement hright hs
      hev
    obtain ⟨ev₁, hev₁, hinitial⟩ := hretail₁ endLine us' hm
    have hall := Stmt.Reads.forLoop hword hleft hinitial hcondition hsemicolon hincrement hright hs
    exact hall.completes (unbroken_append.2 ⟨hev₁, hev⟩)

omit hexpr hstmt hv hsv in
/-- A statement told by its first token breaks off behind it. -/
theorem ViableBehind.skip {kind : TokenKind} {rule : Rule Stmt} (h : ViableBehind kind rule m)
    (hkind : kind ≠ .eof) {c : Cursor} {d : Diagnostic} (hroom : c.room = m)
    (hnext : nextKind c.unread = kind) (hbreaks : (do Rule.skip; rule : Rule Stmt).Breaks c d) :
    CompletableStatement .body m c.unread d.place.unread := by
  have hrest := breaks_skip_bind.1 hbreaks
  cases hts : c.unread with
  | nil =>
    rw [hts] at hnext
    exact absurd hnext.symm hkind
  | cons word ts =>
    rw [hts] at hnext hrest
    exact h (c := c.upTo ts) hroom hnext hrest

/-- A statement breaks off behind the token that tells which one it is, or in an expression. -/
theorem statementBody_viable {expr' : Rule Expr} {stmt' : Rule Stmt} (he : Widens expr expr')
    (hs : Widens stmt stmt') : ViableStatement (statementBody expr stmt) m .body := by
  intro c d hroom hbreaks
  have hbody := breaks_place_bind.1 hbreaks
  rw [c.kind_eq_nextKind] at hbody
  split at hbody
  · next hkind =>
    refine ViableBehind.skip ?_ (by decide) hroom hkind hbody
    intro c d word hroom hword hbreaks
    refine (terminated_viable hexpr hv hroom hbreaks.bind_pure).behind [word] rfl
      (fun _ _ => trivial) ?_
    intro endLine m' us' vs e ev _ _ _ hev he
    exact ⟨_, ev, hev, .print hword he⟩
  · next hkind =>
    exact (block_viable hexpr hstmt hv hsv he hs).skip (by decide) hroom hkind hbody
  · next hkind =>
    exact (conditionalStatement_viable hexpr hstmt hv hsv).skip (by decide) hroom hkind hbody
  · next hkind => exact (whileLoop_viable hexpr hv hsv).skip (by decide) hroom hkind hbody
  · next hkind => exact (forLoop_viable hexpr hv hsv).skip (by decide) hroom hkind hbody
  · next hprint hblock hif hwhile hfor =>
    have hnext : (nextKind c.unread).leadsStatement = false := by
      cases hkind : nextKind c.unread <;> simp_all [TokenKind.leadsStatement]
    refine (terminated_viable hexpr hv hroom hbody.bind_pure).mono (fun _ _ => trivial) ?_
    intro endLine m' us' vs e ev _ _ hhead hev he
    refine ⟨_, ev, hev, .expression ?_ he⟩
    rcases hhead with hsame | hname
    · rwa [hsame]
    · rw [hname]
      rfl

end Compound

/-! ## The knot -/

/-- Statements that break off can be completed. -/
theorem statementAt_viable (m : Nat) : ViableStatement (statementAt m) m .statement := by
  induction m with
  | zero => exact fun c d _ hbreaks => absurd hbreaks (not_breaks_failAt rfl)
  | succ m ih =>
    intro c d hroom hbreaks
    have hbody := statementBody_viable (atRoom_follows m .expression) (statementAt_reads m)
      (atRoom_viable m .expression) ih (atRoom_widens (Nat.le_refl m) .expression)
      (statementAt_widens (Nat.le_refl m)) (c.deeper_room hroom) (Breaks.nested hroom hbreaks)
    exact hbody.opened fun _ _ _ _ s _ hs => ⟨s, .opened hs⟩

end Grammar

end LoxSyntax
