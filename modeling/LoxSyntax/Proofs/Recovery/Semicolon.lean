import LoxSyntax.Proofs.Recovery.Seam
import Mathlib.Data.List.Basic

/-!
# Errors in front of a semicolon

An error is contained by its semicolon.  Where no block is opened and no `for` loop is begun, only
the end of a statement reads a semicolon.  So whatever stands in front of it, what fails there fails
in front of the last semicolon, recovery goes no further, and all that comes behind is read as if
nothing stood in front of it.

* `Fenced` — tokens with a semicolon at the end, without blocks and `for` loops.
* **`Grammar.statementAt_halts`** — no statement fails behind the last semicolon.
* **`Parser.program_semicolon`** — a program behind a semicolon.
-/

namespace LoxSyntax

/-- The last token is a semicolon, and no block or `for` loop begins. -/
structure Fenced (ts : List Token) : Prop where
  last : ts.getLast?.map (·.kind) = some .semicolon
  calm : ∀ t ∈ ts, t.kind ≠ .leftBrace ∧ t.kind ≠ .forWord

namespace Fenced

variable {ts us : List Token}

theorem ne_nil (h : Fenced ts) : ts ≠ [] := by
  rintro rfl
  cases h.last

theorem suffix (h : Fenced ts) (hus : us <:+ ts) (hne : us ≠ []) : Fenced us := by
  refine ⟨?_, fun t ht => h.calm t (hus.subset ht)⟩
  obtain ⟨used, rfl⟩ := hus
  rw [← List.getLast?_append_of_ne_nil used hne]
  exact h.last

/-- Where something else than the last semicolon has been read, something is left. -/
theorem append (h : Fenced (ts ++ us)) (hts : ∀ t ∈ ts, t.kind ≠ .semicolon) : Fenced us := by
  refine h.suffix (List.suffix_append ts us) ?_
  rintro rfl
  have hlast := h.last
  rw [List.append_nil, Option.map_eq_some_iff] at hlast
  obtain ⟨t, ht, hkind⟩ := hlast
  exact hts t (List.mem_of_getLast? ht) hkind

theorem nextKind_ne (h : Fenced ts) : nextKind ts ≠ .leftBrace ∧ nextKind ts ≠ .forWord := by
  rcases ts with _ | ⟨t, ts⟩
  · exact ⟨by decide, by decide⟩
  · exact h.calm t (.head _)

end Fenced

namespace Rule

variable {α β : Type}

/-- Among tokens that are fenced, the rule fails in front of the end. -/
def Halts (rule : Rule α) : Prop :=
  ∀ c : Cursor, Fenced c.unread → (rule c).result = none → (rule c).cursor.unread ≠ []

namespace Halts

theorem map {rule : Rule α} (h : rule.Halts) (g : α → β) : (g <$> rule).Halts :=
  fun c hc hnone => h c hc (Option.map_eq_none_iff.1 hnone)

theorem expect_bind_pure (landmark : Landmark) (b : β) :
    (expect landmark >>= fun _ => pure b).Halts := by
  intro c hc hnone
  by_cases hkind : nextKind c.unread = landmark.kind
  · rcases hts : c.unread with _ | ⟨t, ts⟩
    · exact absurd hts hc.ne_nil
    · rw [hts] at hkind
      rw [expect_bind_of_kind _ hts hkind] at hnone
      cases hnone
  · rw [expect_bind_of_ne _ hkind]
    exact hc.ne_nil

theorem nested {rule : Rule α} (h : rule.Halts) : (Rule.nested rule).Halts := by
  intro c hc hnone
  by_cases hlt : c.depth < c.ceiling
  · rw [nested_of_lt rule hlt] at hnone ⊢
    exact h c.deeper hc hnone
  · rw [nested_of_not_lt rule hlt]
    exact hc.ne_nil

/-- Behind a rule that has left the fence where it was. -/
theorem bind_of_fenced {rule : Rule α} {next : α → Rule β} (hnext : ∀ a, (next a).Halts)
    {c : Cursor} (hc : Fenced (rule c).cursor.unread) (hnone : ((rule >>= next) c).result = none) :
    ((rule >>= next) c).cursor.unread ≠ [] := by
  rw [bind_reply] at hnone ⊢
  split at hnone
  · next a _ => exact hnext a _ hc hnone
  · exact hc.ne_nil

end Halts

end Rule

namespace Grammar

open Rule TokenKind

variable {m : Nat} {word : TokenKind}

/-- Only in a `for` loop a semicolon stands in front of the end of a statement. -/
theorem Head.fenced {α : Type} {head : Rule α} (h : Head m word head) (hfor : word ≠ .forWord)
    {c : Cursor} (hc : Fenced c.unread) (hword : nextKind c.unread = word) :
    Fenced (head c).cursor.unread := by
  obtain ⟨⟨used, us, hused, hcursor, hkinds⟩, -⟩ := h.stays c hword
  rw [hused] at hc
  rw [hcursor, Cursor.upTo_unread]
  refine hc.append fun t ht hsemicolon => hfor ?_
  have hhead := hkinds t ht
  rw [hsemicolon] at hhead
  simpa [isHead] using hhead

section Forms

variable (hstmt : (statementAt m).Halts)

include hstmt

theorem elseBranch_halts (alone : Stmt) (both : Stmt → Stmt) :
    (elseBranch m alone both).Halts := by
  intro c hc hnone
  by_cases hword : nextKind c.unread = .elseWord
  · rcases hts : c.unread with _ | ⟨t, ts⟩
    · exact absurd hts hc.ne_nil
    · rw [hts] at hword hc
      rw [elseBranch_of_else m alone both hts hword] at hnone ⊢
      have hne : ∀ s ∈ [t], s.kind ≠ .semicolon := by
        rw [nextKind_cons] at hword
        simp [hword]
      exact hstmt.map both (c.upTo ts) (hc.append hne) hnone
  · rw [elseBranch_of_ne m alone both hword] at hnone
    cases hnone

theorem branch_halts (alone : Stmt → Stmt) (both : Stmt → Stmt → Stmt) :
    (do
      let yes ← statementAt m
      elseBranch m (alone yes) (both yes) : Rule Stmt).Halts := by
  intro c hc hnone
  obtain ⟨us, hus, hcursor⟩ := (statementAt_widens (Nat.le_refl m)).exists_upTo c
  rw [bind_reply] at hnone ⊢
  split at hnone
  · next yes _ =>
    by_cases hend : (statementAt m c).cursor.unread = []
    · rw [elseBranch_of_ne _ _ _ (by rw [hend]; decide)] at hnone
      cases hnone
    · rw [hcursor] at hend hnone ⊢
      exact elseBranch_halts hstmt _ _ _ (hc.suffix hus hend) hnone
  · next hnone' => exact hstmt c hc hnone'

/-- A statement that is not a block or a `for` loop. -/
theorem Form.halts {rule : Rule Stmt} (h : Form m word rule) (hblock : word ≠ .leftBrace)
    (hfor : word ≠ .forWord) {c : Cursor} (hc : Fenced c.unread) (hword : nextKind c.unread = word)
    (hnone : (rule c).result = none) : (rule c).cursor.unread ≠ [] := by
  cases h with
  | ended hhead landmark _ g =>
    exact Halts.bind_of_fenced (fun _ => .expect_bind_pure _ _) (hhead.fenced hfor hc hword) hnone
  | block hleft => exact absurd hleft hblock
  | led hhead g =>
    exact Halts.bind_of_fenced (fun a => hstmt.map (g a)) (hhead.fenced hfor hc hword) hnone
  | branched hhead g g' =>
    exact Halts.bind_of_fenced (fun a => branch_halts hstmt (g a) (g' a))
      (hhead.fenced hfor hc hword) hnone

end Forms

/-- No statement that fails has read the last semicolon. -/
theorem statementAt_halts (m : Nat) : (statementAt m).Halts := by
  induction m with
  | zero => exact fun c hc _ => hc.ne_nil
  | succ m ih =>
    refine Halts.nested fun c hc hnone => ?_
    obtain ⟨rule, hform, hrule⟩ := exists_form m (nextKind c.unread)
    rw [hrule c rfl] at hnone ⊢
    exact hform.halts ih hc.nextKind_ne.1 hc.nextKind_ne.2 hc rfl hnone

theorem unrecovered_halts {d : Cursor} (hd : Fenced d.unread)
    (hnone : (unrecovered d).result = none) : (unrecovered d).cursor.unread ≠ [] := by
  have hstmt := statementAt_halts d.room
  rw [unrecovered] at hnone ⊢
  by_cases hword : nextKind d.unread = .varWord
  · obtain ⟨rule, hform, hrule⟩ := exists_variable_form d.room
    rw [hrule d hword] at hnone ⊢
    exact hform.halts hstmt (by decide) (by decide) hd hword hnone
  · rw [declared_of_ne _ _ hword] at hnone ⊢
    exact hstmt d hd hnone

end Grammar

/-! ## Programs -/

namespace Parser

open Grammar

/-- Whatever stands in front of a semicolon, if it opens no block and begins no `for` loop: a
program behind the semicolon is read as if it stood alone, and the errors are those of what stands
up to the semicolon. -/
theorem program_semicolon (ceiling : Nat) (garbage tokens : List Token) (semicolon : Token)
    (hsemicolon : semicolon.kind = .semicolon)
    (hgarbage : ∀ t ∈ garbage, t.kind ≠ .leftBrace ∧ t.kind ≠ .forWord ∧ t.kind ≠ .eof)
    (haccepted : (ofTokens ceiling tokens).program.2.report.errors = []) :
    let alone := ofTokens ceiling (garbage ++ [semicolon])
    let followed := ofTokens ceiling (garbage ++ semicolon :: tokens)
    followed.program.1 = alone.program.1 ++ (ofTokens ceiling tokens).program.1 ∧
      followed.program.2.report.errors = alone.program.2.report.errors := by
  have heof : ∀ t ∈ garbage ++ [semicolon], t.kind ≠ .eof := by
    simpa [or_imp, forall_and, hsemicolon] using fun t ht => (hgarbage t ht).2.2
  have hfenced : Fenced (ofTokens ceiling (garbage ++ [semicolon])).cursor.unread := by
    rw [unread_of_ne_eof ceiling heof]
    refine ⟨by simp [hsemicolon], ?_⟩
    simpa [or_imp, forall_and, hsemicolon] using
      ⟨fun t ht => (hgarbage t ht).1, fun t ht => (hgarbage t ht).2.1⟩
  obtain ⟨ds, hds⟩ := exists_attempts (ofTokens ceiling (garbage ++ [semicolon])).cursor
  refine program_append heof haccepted hds fun d hlast hnone => ⟨?_, hsemicolon⟩
  obtain ⟨us, hus, rfl, hstart⟩ := hds.exists_upTo d (List.mem_of_getLast? hlast)
  refine unrecovered_halts (hfenced.suffix hus ?_) ((attempted_eq _).symm.trans hnone)
  rintro rfl
  exact hstart rfl

end Parser

/-- The tokens of `a; if (b c print d e`. -/
def wreck : List Token :=
  [⟨.identifier, "a", 1, none⟩, ⟨.semicolon, ";", 1, none⟩, ⟨.ifWord, "if", 1, none⟩,
    ⟨.leftParen, "(", 1, none⟩, ⟨.identifier, "b", 1, none⟩, ⟨.identifier, "c", 1, none⟩,
    ⟨.printWord, "print", 1, none⟩, ⟨.identifier, "d", 1, none⟩, ⟨.identifier, "e", 1, none⟩]

/-- The tokens of `x; {}`. -/
def sound : List Token :=
  [⟨.identifier, "x", 2, none⟩, ⟨.semicolon, ";", 2, none⟩, ⟨.leftBrace, "\x7b", 2, none⟩,
    ⟨.rightBrace, "\x7d", 2, none⟩]

/-- Both errors in front of the semicolon are reported, and all behind it is read. -/
theorem wreck_sound :
    let p := Parser.ofTokens 8 (wreck ++ ⟨.semicolon, ";", 1, none⟩ :: sound)
    p.program.1 = [.expression (.variable ⟨.identifier, "a", 1, none⟩),
        .expression (.variable ⟨.identifier, "x", 2, none⟩), .block []] ∧
      p.program.2.report.errors = [⟨1, "at 'c'", "Expected ')' after if condition."⟩,
        ⟨1, "at 'e'", "Expected ';' after value."⟩] := by
  intro p
  obtain ⟨hprogram, herrors⟩ := Parser.program_semicolon 8 wreck sound ⟨.semicolon, ";", 1, none⟩
    rfl (by decide) (by decide +kernel)
  have hdiagnosed : (Parser.ofTokens 8 (wreck ++ [⟨.semicolon, ";", 1, none⟩])).diagnosed =
      [⟨.expected .ifEnd, wreck.drop 5 ++ [⟨.semicolon, ";", 1, none⟩], 1⟩,
        ⟨.expected .valueEnd, wreck.drop 8 ++ [⟨.semicolon, ";", 1, none⟩], 1⟩] := by
    decide +kernel
  refine ⟨hprogram.trans (by decide +kernel), herrors.trans ?_⟩
  rw [Parser.program_errors_eq, hdiagnosed]
  rfl

end LoxSyntax
