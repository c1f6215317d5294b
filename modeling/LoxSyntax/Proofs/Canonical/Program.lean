import LoxSyntax.Proofs.Canonical.Expression
import LoxSyntax.Proofs.Sentence.Program

/-!
# Normal programs are read

A program in normal form that misses no operand is read back from the tokens that it keeps, without
an error, exactly where as many levels may be opened as it takes.  Below that the first error is
that there is too much nesting: up to there a parser with more room does the same.

* `Stmt.found`, `Program.found` — normal statements are read if there are levels enough.
* **`Parser.program_of_levels`** — a program is read exactly up to its number of levels.
-/

namespace LoxSyntax

/-! ## The first token -/

/-- Whether a statement that declares nothing can begin with this kind. -/
def TokenKind.beginsStatement (k : TokenKind) : Bool :=
  k.startsExpression || k.leadsStatement

/-- The first token of a normal statement that misses no operand. -/
theorem Stmt.nextKind_eq {s : Stmt} (hnormal : s.isNormal) (hmissing : s.missingCount = 0)
    {used : List Token} (hitems : used.map Token.item = s.items) (us : List Token) :
    (s.isDeclaration ∧ nextKind (used ++ us) = .varWord) ∨
      (s.isDeclaration = false ∧ (nextKind (used ++ us)).beginsStatement) := by
  cases s with
  | expression e =>
    obtain ⟨ts, vs, rfl, hts, -⟩ := List.map_eq_append_iff.1 hitems
    have hstart := Expr.startsExpression hnormal hmissing hts (vs ++ us)
    refine .inr ⟨rfl, ?_⟩
    rw [List.append_assoc, TokenKind.beginsStatement, hstart, Bool.true_or]
  | declare name initial =>
    cases initial <;>
    · obtain ⟨t, ts, rfl, ht, -⟩ := List.map_eq_cons_iff.1 hitems
      exact .inl ⟨rfl, Token.kind_of_item_mark ht⟩
  | print | block | ifThen | ifElse | loop =>
    obtain ⟨t, ts, rfl, ht, -⟩ := List.map_eq_cons_iff.1 hitems
    refine .inr ⟨rfl, ?_⟩
    rw [List.cons_append, nextKind_cons, Token.kind_of_item_mark ht]
    rfl

/-- What a declaration begins with ends nothing. -/
theorem Stmt.nextKind_ne {s : Stmt} (hnormal : s.isNormal) (hmissing : s.missingCount = 0)
    {used : List Token} (hitems : used.map Token.item = s.items) (us : List Token) :
    nextKind (used ++ us) ≠ .eof ∧ nextKind (used ++ us) ≠ .rightBrace ∧
      nextKind (used ++ us) ≠ .elseWord := by
  rcases nextKind_eq hnormal hmissing hitems us with ⟨-, hnext⟩ | ⟨-, hnext⟩
  · simp [hnext]
  · refine ⟨?_, ?_, ?_⟩ <;>
    · intro h
      rw [h] at hnext
      exact absurd hnext (by decide)

/-! ## Statements -/

section Found

variable {endLine : UInt32}

/-- A statement is read as a declaration from the tokens that it keeps, and as a statement if it
declares nothing.  If it ends in an `if` without `else`, no `else` may come next. -/
def Stmt.Found (endLine : UInt32) (s : Stmt) : Prop :=
  ∀ ⦃m used us⦄, used.map Token.item = s.items → s.levels ≤ m →
    (s.endsInIf → nextKind us ≠ .elseWord) →
    ∃ ev, (∀ d, .diagnosed d ∉ ev) ∧
      if s.isDeclaration then Stmt.Reads endLine m .declaration (used ++ us) [s] us ev
      else Stmt.Reads endLine m .statement (used ++ us) [s] us ev

theorem Expr.Found.ended {e : Expr} (h : e.Found endLine) {m : Nat} (hm : 1 + e.levels ≤ m)
    {used : List Token} (hitems : used.map Token.item = e.items ++ [.mark .semicolon])
    (us : List Token) : Expr.ReadsEnded endLine m (used ++ us) e us [] := by
  obtain ⟨ts, vs, rfl, hts, hvs⟩ := List.map_eq_append_iff.1 hitems
  obtain ⟨semicolon, rfl, hsemicolon⟩ := List.map_eq_singleton_iff.1 hvs
  have hsemicolon := Token.kind_of_item_mark hsemicolon
  refine ⟨semicolon, ?_, hsemicolon⟩
  rw [List.append_assoc]
  exact h.whole hm hts (by rw [List.singleton_append, nextKind_cons, hsemicolon]; rfl)

/-- What is no declaration stands where a declaration can stand. -/
theorem Stmt.Found.declaration {s : Stmt} (h : s.Found endLine) (hnormal : s.isNormal)
    (hmissing : s.missingCount = 0) {m : Nat} {used us : List Token}
    (hitems : used.map Token.item = s.items) (hm : s.levels ≤ m)
    (helse : s.endsInIf → nextKind us ≠ .elseWord) :
    ∃ ev, (∀ d, .diagnosed d ∉ ev) ∧
      Stmt.Reads endLine m .declaration (used ++ us) [s] us ev := by
  obtain ⟨ev, hclean, hreads⟩ := h hitems hm helse
  rcases nextKind_eq hnormal hmissing hitems us with ⟨hs, -⟩ | ⟨hs, hnext⟩
  · rw [if_pos hs] at hreads
    exact ⟨ev, hclean, hreads⟩
  · rw [if_neg (by simp [hs])] at hreads
    refine ⟨_, ?_, .stated ?_ hreads⟩
    · rintro d hd
      rcases List.mem_cons.1 hd with hd | hd
      · cases hd
      · exact hclean d hd
    · intro hvar
      rw [hvar] at hnext
      exact absurd hnext (by decide)

/-- A statement that is found is read where nothing may be declared. -/
theorem Stmt.Found.statement {s : Stmt} (h : s.Found endLine) (hs : s.isDeclaration = false)
    {m : Nat} {used us : List Token} (hitems : used.map Token.item = s.items) (hm : s.levels ≤ m)
    (helse : s.endsInIf → nextKind us ≠ .elseWord) :
    ∃ ev, (∀ d, .diagnosed d ∉ ev) ∧
      Stmt.Reads endLine m .statement (used ++ us) [s] us ev := by
  obtain ⟨ev, hclean, hreads⟩ := h hitems hm helse
  rw [if_neg (by simp [hs])] at hreads
  exact ⟨ev, hclean, hreads⟩

/-- The condition of a statement, from its word to the parenthesis behind it. -/
theorem Expr.Found.condition {c : Expr} (h : c.Found endLine) {m : Nat} (hm : 1 + c.levels ≤ m)
    {k : TokenKind} {rest : List Item} {used : List Token}
    (hitems : used.map Token.item =
      .mark k :: .mark .leftParen :: (c.items ++ .mark .rightParen :: rest)) (us : List Token) :
    ∃ word left ts right vs, used = word :: left :: (ts ++ right :: vs) ∧ word.kind = k ∧
      left.kind = .leftParen ∧ right.kind = .rightParen ∧ vs.map Token.item = rest ∧
      Expr.Reads endLine m (.opened .expression) (ts ++ right :: (vs ++ us)) c
        (right :: (vs ++ us)) [] := by
  obtain ⟨word, ts₁, rfl, hword, hts₁⟩ := List.map_eq_cons_iff.1 hitems
  obtain ⟨left, ts₂, rfl, hleft, hts₂⟩ := List.map_eq_cons_iff.1 hts₁
  obtain ⟨ts, ts₃, rfl, hts, hts₃⟩ := List.map_eq_append_iff.1 hts₂
  obtain ⟨right, vs, rfl, hright, hvs⟩ := List.map_eq_cons_iff.1 hts₃
  have hright := Token.kind_of_item_mark hright
  exact ⟨word, left, ts, right, vs, rfl, Token.kind_of_item_mark hword,
    Token.kind_of_item_mark hleft, hright, hvs,
    h.whole hm hts (by rw [nextKind_cons, hright]; rfl)⟩

mutual

/-- Normal statements that miss no operand are read. -/
theorem Stmt.found (s : Stmt) (hnormal : s.isNormal) (hmissing : s.missingCount = 0) :
    s.Found endLine := by
  intro m used us hitems hm helse
  match s with
  | .expression e =>
    simp only [Stmt.levels] at hm
    obtain ⟨m, rfl⟩ : ∃ m', m = m' + 1 := ⟨m - 1, by omega⟩
    have hvalue := (e.found endLine hnormal hmissing).ended (m := m) (by omega) hitems us
    refine ⟨[], nofun, .opened (.expression ?_ hvalue)⟩
    obtain ⟨ts, vs, rfl, hts, -⟩ := List.map_eq_append_iff.1 hitems
    have hstart := Expr.startsExpression hnormal hmissing hts (vs ++ us)
    rw [List.append_assoc]
    cases hnext : nextKind (ts ++ (vs ++ us)) <;> rw [hnext] at hstart <;> first
      | rfl
      | exact absurd hstart (by decide)
  | .print e =>
    simp only [Stmt.levels] at hm
    obtain ⟨m, rfl⟩ : ∃ m', m = m' + 1 := ⟨m - 1, by omega⟩
    obtain ⟨word, ts, rfl, hword, hts⟩ := List.map_eq_cons_iff.1 hitems
    have hvalue := (e.found endLine hnormal hmissing).ended (m := m) (by omega) hts us
    exact ⟨[], nofun, .opened (.print (Token.kind_of_item_mark hword) hvalue)⟩
  | .declare name none =>
    simp only [Stmt.isNormal, beq_iff_eq] at hnormal
    obtain ⟨word, ts₁, rfl, hword, hts₁⟩ := List.map_eq_cons_iff.1 hitems
    obtain ⟨t, ts₂, rfl, ht, hts₂⟩ := List.map_eq_cons_iff.1 hts₁
    obtain ⟨semicolon, rfl, hsemicolon⟩ := List.map_eq_singleton_iff.1 hts₂
    obtain rfl := Token.eq_of_item_token ht
    refine ⟨_, ?_, .declared (Token.kind_of_item_mark hword)
      (.bare hnormal (Token.kind_of_item_mark hsemicolon))⟩
    simp
  | .declare name (some e) =>
    simp only [Stmt.isNormal, Bool.and_eq_true, beq_iff_eq] at hnormal
    obtain ⟨word, ts₁, rfl, hword, hts₁⟩ := List.map_eq_cons_iff.1 hitems
    obtain ⟨t, ts₂, rfl, ht, hts₂⟩ := List.map_eq_cons_iff.1 hts₁
    obtain ⟨equals, ts₃, rfl, hequals, hts₃⟩ := List.map_eq_cons_iff.1 hts₂
    obtain rfl := Token.eq_of_item_token ht
    have hvalue := (e.found endLine hnormal.2 hmissing).ended hm hts₃ us
    refine ⟨_, ?_, .declared (Token.kind_of_item_mark hword)
      (.valued hnormal.1 (Token.kind_of_item_mark hequals) hvalue)⟩
    simp
  | .block body =>
    simp only [Stmt.levels] at hm
    obtain ⟨m, rfl⟩ : ∃ m', m = m' + 1 := ⟨m - 1, by omega⟩
    obtain ⟨left, ts₁, rfl, hleft, hts₁⟩ := List.map_eq_cons_iff.1 hitems
    obtain ⟨ts, ts₂, rfl, hts, hts₂⟩ := List.map_eq_append_iff.1 hts₁
    obtain ⟨right, rfl, hright⟩ := List.map_eq_singleton_iff.1 hts₂
    have hright := Token.kind_of_item_mark hright
    obtain ⟨ev, hclean, hreads⟩ := Program.found body hnormal hmissing (m := m)
      (.inl rfl) (.inr (show nextKind (right :: us) = .rightBrace from hright)) hts (by omega)
    refine ⟨ev, hclean, .opened ?_⟩
    simpa using Stmt.Reads.block (Token.kind_of_item_mark hleft) hreads hright
  | .ifThen condition yes =>
    simp only [Stmt.isNormal, Bool.and_eq_true, Bool.not_eq_true'] at hnormal
    simp only [Stmt.missingCount, Nat.add_eq_zero_iff] at hmissing
    simp only [Stmt.levels] at hm
    obtain ⟨m, rfl⟩ : ∃ m', m = m' + 1 := ⟨m - 1, by omega⟩
    obtain ⟨word, left, ts, right, vs, rfl, hword, hleft, hright, hvs, hcondition⟩ :=
      (condition.found endLine hnormal.1.1 hmissing.1).condition (m := m)
        (by omega) hitems us
    obtain ⟨ev, hclean, hyes⟩ := (Stmt.found yes hnormal.1.2 hmissing.2).statement hnormal.2
      (m := m) hvs (by omega) fun _ => helse rfl
    refine ⟨ev, hclean, .opened ?_⟩
    simpa using Stmt.Reads.ifThen hword hleft hcondition hright hyes (helse rfl)
  | .ifElse condition yes no =>
    simp only [Stmt.isNormal, Bool.and_eq_true, Bool.not_eq_true'] at hnormal
    simp only [Stmt.missingCount, Nat.add_eq_zero_iff] at hmissing
    simp only [Stmt.levels] at hm
    obtain ⟨m, rfl⟩ : ∃ m', m = m' + 1 := ⟨m - 1, by omega⟩
    obtain ⟨⟨⟨⟨⟨hc, hy⟩, hn⟩, hydecl⟩, hndecl⟩, hend⟩ := hnormal
    obtain ⟨word, left, ts, right, vs, rfl, hword, hleft, hright, hvs, hcondition⟩ :=
      (condition.found endLine hc hmissing.1.1).condition (m := m)
        (by omega) hitems us
    obtain ⟨ys, ws, rfl, hys, hws⟩ := List.map_eq_append_iff.1 hvs
    obtain ⟨other, zs, rfl, hother, hzs⟩ := List.map_eq_cons_iff.1 hws
    have hother := Token.kind_of_item_mark hother
    obtain ⟨ev, hclean, hyes⟩ := (Stmt.found yes hy hmissing.1.2).statement hydecl
      (m := m) hys (by omega) fun (h : yes.endsInIf) => by
        rw [hend] at h
        cases h
    obtain ⟨ev', hclean', hno⟩ := (Stmt.found no hn hmissing.2).statement hndecl
      (m := m) hzs (by omega) helse
    refine ⟨[] ++ (ev ++ ev'), ?_, .opened ?_⟩
    · simpa [forall_and] using ⟨hclean, hclean'⟩
    · rw [List.append_assoc, List.cons_append] at hcondition
      simpa using Stmt.Reads.ifElse hword hleft hcondition hright hyes hother hno
  | .loop condition body =>
    simp only [Stmt.isNormal, Bool.and_eq_true, Bool.not_eq_true'] at hnormal
    simp only [Stmt.missingCount, Nat.add_eq_zero_iff] at hmissing
    simp only [Stmt.levels] at hm
    obtain ⟨m, rfl⟩ : ∃ m', m = m' + 1 := ⟨m - 1, by omega⟩
    obtain ⟨word, left, ts, right, vs, rfl, hword, hleft, hright, hvs, hcondition⟩ :=
      (condition.found endLine hnormal.1.1 hmissing.1).condition (m := m)
        (by omega) hitems us
    obtain ⟨ev, hclean, hbody⟩ := (Stmt.found body hnormal.1.2 hmissing.2).statement hnormal.2
      (m := m) hvs (by omega) helse
    refine ⟨ev, hclean, .opened ?_⟩
    simpa using Stmt.Reads.loop hword hleft hcondition hright hbody

/-- Normal programs that miss no operand are read up to the token that ends them. -/
theorem Program.found (p : Program) (hnormal : Program.isNormal p)
    (hmissing : Program.missingCount p = 0) {m : Nat} {last : TokenKind} {used us : List Token}
    (hlast : last = .rightBrace ∨ last = .eof) (hend : nextKind us = .eof ∨ nextKind us = last)
    (hitems : used.map Token.item = Program.items p) (hm : Program.levels p ≤ m) :
    ∃ ev, (∀ d, .diagnosed d ∉ ev) ∧
      Stmt.Reads endLine m (.declarations last) (used ++ us) p us ev := by
  match p with
  | [] =>
    obtain rfl := List.map_eq_nil_iff.1 hitems
    exact ⟨[], nofun, .done hend⟩
  | s :: ss =>
    simp only [Program.isNormal, Bool.and_eq_true] at hnormal
    simp only [Program.missingCount, Nat.add_eq_zero_iff] at hmissing
    simp only [Program.levels, Nat.max_le] at hm
    obtain ⟨ts, vs, rfl, hts, hvs⟩ := List.map_eq_append_iff.1 hitems
    have hne := Stmt.nextKind_ne hnormal.1 hmissing.1 hts (vs ++ us)
    have helse : nextKind (vs ++ us) ≠ .elseWord := by
      match ss with
      | [] =>
        obtain rfl := List.map_eq_nil_iff.1 hvs
        rcases hend with h | h <;> rcases hlast with rfl | rfl <;> simp [h]
      | s' :: ss' =>
        obtain ⟨xs, ys, rfl, hxs, -⟩ := List.map_eq_append_iff.1 hvs
        simp only [Program.isNormal, Bool.and_eq_true] at hnormal
        simp only [Program.missingCount, Nat.add_eq_zero_iff] at hmissing
        rw [List.append_assoc]
        exact (Stmt.nextKind_ne hnormal.2.1 hmissing.2.1 hxs (ys ++ us)).2.2
    obtain ⟨ev, hclean, hfirst⟩ := (Stmt.found s hnormal.1 hmissing.1).declaration hnormal.1
      hmissing.1 hts hm.1 fun _ => helse
    obtain ⟨ev', hclean', hrest⟩ := Program.found ss hnormal.2 hmissing.2 hlast hend hvs hm.2
    refine ⟨ev ++ ev', by simpa [forall_and] using ⟨hclean, hclean'⟩, ?_⟩
    rw [List.append_assoc]
    refine .next ?_ hfirst hrest
    rcases hlast with rfl | rfl
    · exact fun h => h.elim hne.1 hne.2.1
    · exact fun h => h.elim hne.1 hne.1

end

end Found

/-! ## The ceiling -/

/-- No tree keeps a `for`. -/
theorem Expr.not_mem_items (e : Expr) : .mark .forWord ∉ e.items := by
  induction e with
  | bool value => cases value <;> simp [items]
  | _ => simp_all [items]

mutual

/-- No tree keeps a `for`. -/
theorem Stmt.not_mem_items (s : Stmt) : .mark .forWord ∉ s.items := by
  match s with
  | .expression e | .print e => simp [Stmt.items, e.not_mem_items]
  | .declare x none => simp [Stmt.items]
  | .declare x (some e) => simp [Stmt.items, e.not_mem_items]
  | .block body => simp [Stmt.items, Program.not_mem_items body]
  | .ifThen c y => simp [Stmt.items, c.not_mem_items, Stmt.not_mem_items y]
  | .ifElse c y n =>
    simp [Stmt.items, c.not_mem_items, Stmt.not_mem_items y, Stmt.not_mem_items n]
  | .loop c b => simp [Stmt.items, c.not_mem_items, Stmt.not_mem_items b]

/-- No tree keeps a `for`. -/
theorem Program.not_mem_items (p : Program) : .mark .forWord ∉ Program.items p := by
  match p with
  | [] => exact List.not_mem_nil
  | s :: ss => simp [Program.items, Stmt.not_mem_items s, Program.not_mem_items ss]

end

namespace Parser

open Rule Grammar

section Ceiling

variable {p : Program} (hnormal : Program.isNormal p) (hmissing : Program.missingCount p = 0)
  {tokens : List Token}
  (htokens : (tokens.takeWhile (·.kind != .eof)).map Token.item = Program.items p)

include htokens

/-- A run without an error takes the levels of its program. -/
theorem levels_le_of_gives {ceiling : Nat} {ss : Program} {c' : Cursor} {ev : List Event}
    (h : Grammar.program.Gives (ofTokens ceiling tokens).cursor ss c' ev) :
    Program.levels ss ≤ ceiling := by
  obtain ⟨ss', us, ev', hgives, hreads⟩ := program_reads (ofTokens ceiling tokens).cursor
  rw [Gives, hgives] at h
  cases h
  refine hreads.levels_le fun t ht hfor => ?_
  have hitem : t.item ∈ (tokens.takeWhile (·.kind != .eof)).map Token.item :=
    List.mem_map_of_mem (by rwa [← Place.unread_ofTokens tokens])
  rw [htokens, Token.item_of_mark hfor rfl] at hitem
  exact Program.not_mem_items p hitem

include hnormal hmissing

/-- With levels enough a normal program is read without an error. -/
theorem gives_of_levels_le {ceiling : Nat} (h : Program.levels p ≤ ceiling) :
    ∃ ev, (∀ d, .diagnosed d ∉ ev) ∧
      Grammar.program.Gives (ofTokens ceiling tokens).cursor p
        ((ofTokens ceiling tokens).cursor.upTo []) ev := by
  obtain ⟨ev, hclean, hreads⟩ := @Program.found (ofTokens ceiling tokens).cursor.endLine p hnormal
    hmissing ceiling .eof _ [] (.inr rfl) (.inl rfl) htokens h
  rw [List.append_nil, ← Place.unread_ofTokens tokens] at hreads
  exact ⟨ev, hclean, hreads.gives_program (unbroken_of_clean hclean)⟩

/-- With too few levels the run follows the one with levels enough up to the first complaint. -/
theorem first_error_of_lt {ceiling : Nat} (h : ceiling < Program.levels p) :
    ∃ d rest, errorsOf (Grammar.program (ofTokens ceiling tokens).cursor).events = d :: rest ∧
      d.message = "Too much nesting." := by
  obtain ⟨ev, hclean, hfull⟩ := gives_of_levels_le hnormal hmissing htokens
    (Nat.le_refl (Program.levels p))
  have htracks : (Grammar.program (ofTokens ceiling tokens).cursor).Tracks (Program.levels p)
      (Grammar.program (ofTokens (Program.levels p) tokens).cursor) :=
    program_tracks (Nat.le_of_lt h)
  rcases htracks with ⟨-, heq⟩ | ⟨before, complaint, after, hevents, hnesting, -, hpre⟩
  · -- the whole program was read, although it takes more levels than there are
    rcases hreply : Grammar.program (ofTokens ceiling tokens).cursor with ⟨result, c', ev'⟩
    rw [hfull, hreply] at heq
    obtain rfl : result = some p := (congrArg Reply.result heq).symm
    have hle := levels_le_of_gives htokens hreply
    omega
  · rw [hfull] at hpre
    have hbefore : errorsOf before = [] :=
      errorsOf_eq_nil.2 fun d hd => hclean d (hpre.subset hd)
    obtain ⟨d, rfl, hd⟩ : ∃ d, complaint = .diagnosed d ∧ d.problem = .tooMuchNesting := by
      cases complaint with
      | diagnosed d => exact ⟨d, rfl, by simpa [Event.isNesting] using hnesting⟩
      | _ => cases hnesting
    refine ⟨d.error, errorsOf after, ?_, ?_⟩
    · rw [hevents, errorsOf_append, hbefore]
      rfl
    · rw [Diagnostic.error, hd]
      rfl

end Ceiling

/-- A normal program that misses no operand is read from the tokens it keeps exactly where it takes
no more levels than the ceiling allows, and where it takes more, that is the first error. -/
theorem program_of_levels (p : Program) (hnormal : Program.isNormal p)
    (hmissing : Program.missingCount p = 0) (tokens : List Token)
    (htokens : (tokens.takeWhile (·.kind != .eof)).map Token.item = Program.items p)
    (ceiling : Nat) :
    let parsed := (ofTokens ceiling tokens).program
    ((parsed.1 = p ∧ parsed.2.report.errors = []) ↔ Program.levels p ≤ ceiling) ∧
      (ceiling < Program.levels p →
        parsed.2.report.errors.head?.map (·.message) = some "Too much nesting.") := by
  dsimp only
  rw [program_fst, program_errors, show (ofTokens ceiling tokens).report.errors = [] from rfl,
    List.nil_append]
  have hbelow : ceiling < Program.levels p →
      (errorsOf (Grammar.program (ofTokens ceiling tokens).cursor).events).head?.map (·.message) =
        some "Too much nesting." := by
    intro h
    obtain ⟨d, rest, herrors, hd⟩ := first_error_of_lt hnormal hmissing htokens h
    rw [herrors, List.head?_cons, Option.map_some, hd]
  refine ⟨⟨fun ⟨_, hclean⟩ => ?_, fun h => ?_⟩, hbelow⟩
  · refine Nat.le_of_not_lt fun h => ?_
    have hfirst := hbelow h
    rw [hclean] at hfirst
    cases hfirst
  · obtain ⟨ev, hclean, hgives⟩ := gives_of_levels_le hnormal hmissing htokens h
    rw [hgives]
    exact ⟨rfl, errorsOf_eq_nil.2 hclean⟩

end Parser

/-- The tokens of `while (!a) b = (c);`. -/
def loopTokens : List Token :=
  [⟨.whileWord, "while", 1, none⟩, ⟨.leftParen, "(", 1, none⟩, ⟨.bang, "!", 1, none⟩,
    ⟨.identifier, "a", 1, none⟩, ⟨.rightParen, ")", 1, none⟩, ⟨.identifier, "b", 2, none⟩,
    ⟨.equal, "=", 2, none⟩, ⟨.leftParen, "(", 2, none⟩, ⟨.identifier, "c", 2, none⟩,
    ⟨.rightParen, ")", 2, none⟩, ⟨.semicolon, ";", 2, none⟩]

/-- Their tree. -/
def loopProgram : Program :=
  [.loop (.unary ⟨.bang, "!", 1, none⟩ (.variable ⟨.identifier, "a", 1, none⟩))
    (.expression (.assign ⟨.identifier, "b", 2, none⟩
      (.group (.variable ⟨.identifier, "c", 2, none⟩))))]

theorem Parser.loopProgram_of_levels :
    Program.isNormal loopProgram ∧ Program.missingCount loopProgram = 0 ∧
      (loopTokens.takeWhile (·.kind != .eof)).map Token.item = Program.items loopProgram ∧
      (Parser.ofTokens 7 loopTokens).program.1 = loopProgram ∧
      (Parser.ofTokens 6 loopTokens).program.2.report.errors.head?.map (·.message) =
        some "Too much nesting." := by
  have hnormal : Program.isNormal loopProgram = true := by decide +kernel
  have hmissing : Program.missingCount loopProgram = 0 := by decide +kernel
  have hitems : (loopTokens.takeWhile (·.kind != .eof)).map Token.item =
      Program.items loopProgram := by decide +kernel
  have hlevels : Program.levels loopProgram = 7 := by decide +kernel
  have hsix := (Parser.program_of_levels loopProgram hnormal hmissing loopTokens hitems 6).2
  have hseven := (Parser.program_of_levels loopProgram hnormal hmissing loopTokens hitems 7).1
  exact ⟨hnormal, hmissing, hitems, (hseven.2 (Nat.le_of_eq hlevels)).1,
    hsix (by rw [hlevels]; decide)⟩

end LoxSyntax
