import Mathlib.Order.Bounds.Defs
import LoxSyntax.Proofs.Recovery.Seam
import LoxSyntax.Proofs.Rule.Raising
import LoxSyntax.Proofs.Session.Range
import LoxSyntax.Proofs.Session.Unwinding

/-!
# Where parsing resumes

A declaration that cannot be read is given up at the token where the error was raised, and the next
one is attempted at the first boundary behind that token: at the end of the text, in front of a
token that starts a statement, or behind a semicolon.  The token itself is skipped, whatever it is,
unless it is the end.

* `Boundary` — the indices of tokens where a statement can be expected to begin.
* `Place.skipToStatement_isLeast`, `Place.resume_isLeast` — recovery stops at the first of them.
* `Cursor.map_resumption` — recovery reads one token after another.
* `Parser.cursorAt` — a position of a parser, by its index and depth.
* **`Parser.declaration_resumes`** — a declaration that fails, from any position.
-/

namespace LoxSyntax

open Rule Grammar

/-! ## Boundaries -/

/-- Whether at an index the text ends, a token starts a statement, or the token in front is a
semicolon. -/
def Boundary (ts : List Token) (i : Nat) : Prop :=
  nextKind (ts.drop i) = .eof ∨ (nextKind (ts.drop i)).startsStatement ∨
    nextKind (ts.drop (i - 1)) = .semicolon

section Boundaries

variable {ts : List Token} {i : Nat}

theorem boundary_cons {t : Token} : Boundary (t :: ts) (i + 1 + 1) ↔ Boundary ts (i + 1) :=
  Iff.rfl

theorem boundary_drop {k : Nat} (hi : 0 < i) : Boundary (ts.drop k) i ↔ Boundary ts (k + i) := by
  rw [Boundary, Boundary, List.drop_drop, List.drop_drop, Nat.add_sub_assoc hi]

/-- Behind the end of the text nothing matters. -/
theorem nextKind_drop_append_end {last : Token} {more : List Token} (heof : last.kind = .eof)
    (hi : i ≤ ts.length) : nextKind ((ts ++ last :: more).drop i) = nextKind (ts.drop i) := by
  rw [List.drop_append_of_le_length hi]
  cases ts.drop i with
  | nil => exact heof
  | cons => rfl

theorem boundary_append_end {last : Token} {more : List Token} (heof : last.kind = .eof)
    (hi : i ≤ ts.length) : Boundary (ts ++ last :: more) i ↔ Boundary ts i := by
  rw [Boundary, Boundary, nextKind_drop_append_end heof hi,
    nextKind_drop_append_end heof (Nat.le_trans (Nat.sub_le i 1) hi)]

end Boundaries

/-! ## The first boundary -/

namespace Place

/-- Recovery stops at the first boundary behind the token that it skips first. -/
theorem skipToStatement_isLeast (skipped : Token) {ts : List Token}
    (hts : ∀ t ∈ ts, t.kind ≠ .eof) :
    IsLeast {i | 0 < i ∧ Boundary (skipped :: ts) i}
      (ts.length + 1 - (skipToStatement skipped ts).length) := by
  induction ts generalizing skipped with
  | nil => exact ⟨⟨Nat.one_pos, .inl rfl⟩, fun i hi => hi.1⟩
  | cons t ts ih =>
    obtain ⟨ht, hts⟩ := List.forall_mem_cons.1 hts
    rw [skipToStatement]
    split
    · next hstop =>
      rw [Nat.add_sub_cancel_left]
      exact ⟨⟨Nat.one_pos, .inr hstop.symm⟩, fun i hi => hi.1⟩
    · next hgo =>
      obtain ⟨⟨hpos, hboundary⟩, hleast⟩ := ih t hts
      have hlen := (skipToStatement_suffix t ts).length_le
      obtain ⟨n, hn⟩ := Nat.exists_eq_add_one.2 hpos
      rw [hn] at hboundary hleast
      have hnext : (t :: ts).length + 1 - (skipToStatement t ts).length = n + 1 + 1 := by
        rw [List.length_cons]
        omega
      rw [hnext]
      refine ⟨⟨Nat.succ_pos _, boundary_cons.2 hboundary⟩, fun i hi => ?_⟩
      obtain ⟨hi, hfirst⟩ := hi
      rcases i with _ | _ | i
      · cases hi
      · rcases hfirst with heof | hstart | hsemicolon
        · exact absurd heof ht
        · exact absurd (.inr hstart) hgo
        · exact absurd (.inl hsemicolon) hgo
      · exact Nat.succ_le_succ (hleast ⟨Nat.succ_pos i, boundary_cons.1 hfirst⟩)

/-- Parsing resumes at the first boundary behind the place where it failed, in all tokens. -/
theorem resume_isLeast {text more : List Token} {last : Token} {place : Place}
    (htext : ∀ t ∈ text, t.kind ≠ .eof) (heof : last.kind = .eof)
    (hsuffix : place.unread <:+ text) (hne : place.unread ≠ []) :
    IsLeast {i | text.length - place.unread.length < i ∧ Boundary (text ++ last :: more) i}
      (text.length - place.resume.unread.length) := by
  obtain ⟨t, ts, hunread⟩ := List.exists_cons_of_ne_nil hne
  have hresume : place.resume.unread = skipToStatement t ts := by rw [resume, hunread]
  rw [hresume, hunread]
  rw [hunread] at hsuffix
  have hdrop := List.suffix_iff_eq_drop.1 hsuffix
  have hts : ∀ u ∈ ts, u.kind ≠ .eof :=
    fun u hu => htext u (hsuffix.mem (List.mem_cons_of_mem t hu))
  obtain ⟨⟨hpos, hboundary⟩, hleast⟩ := skipToStatement_isLeast t hts
  have hlen := hsuffix.length_le
  have hlen' := (skipToStatement_suffix t ts).length_le
  rw [List.length_cons] at hlen hdrop ⊢
  rw [hdrop] at hboundary hleast
  have hindex : text.length - (ts.length + 1) + (ts.length + 1 - (skipToStatement t ts).length) =
      text.length - (skipToStatement t ts).length := by omega
  rw [boundary_drop hpos, hindex] at hboundary
  refine ⟨⟨by omega, (boundary_append_end heof (Nat.sub_le _ _)).2 hboundary⟩, fun i hi => ?_⟩
  obtain ⟨hi, hfirst⟩ := hi
  by_cases hend : i ≤ text.length
  · obtain ⟨n, rfl⟩ := Nat.exists_eq_add_of_lt hi
    have hn := hleast ⟨Nat.succ_pos n, (boundary_drop (Nat.succ_pos n)).2
      ((boundary_append_end heof hend).1 hfirst)⟩
    omega
  · omega

end Place

/-! ## The tokens that are skipped -/

namespace Cursor

variable {c : Cursor} {skipped : Token} {ts : List Token} {n : Nat}

/-- One more token that is skipped is one more index. -/
theorem map_cons_skips (hn : ts.length < n)
    (h : (c.skips skipped ts).map (fun d => n - d.unread.length) =
      List.range' (n - ts.length + 1)
        (ts.length - (Place.skipToStatement skipped ts).length)) :
    (c.upTo ts :: c.skips skipped ts).map (fun d => n - d.unread.length) =
      List.range' (n - (ts.length + 1) + 1)
        (ts.length + 1 - (Place.skipToStatement skipped ts).length) := by
  have hlen := (Place.skipToStatement_suffix skipped ts).length_le
  have hcount : ts.length + 1 - (Place.skipToStatement skipped ts).length =
      ts.length - (Place.skipToStatement skipped ts).length + 1 := by omega
  have hindex : n - (ts.length + 1) + 1 = n - ts.length := by omega
  rw [List.map_cons, h, hcount, List.range'_succ, hindex]
  rfl

theorem map_skips (hn : ts.length ≤ n) :
    (c.skips skipped ts).map (fun d => n - d.unread.length) =
      List.range' (n - ts.length + 1)
        (ts.length - (Place.skipToStatement skipped ts).length) := by
  induction ts generalizing skipped with
  | nil => rfl
  | cons t ts ih =>
    rw [skips, Place.skipToStatement]
    split
    · rw [Nat.sub_self]
      rfl
    · exact map_cons_skips hn (ih (Nat.le_of_succ_le hn))

/-- Recovery reads one token after another, up to where parsing resumes. -/
theorem map_resumption (hn : c.unread.length ≤ n) :
    c.resumption.map (fun d => n - d.unread.length) =
      List.range' (n - c.unread.length + 1)
        (c.unread.length - c.toPlace.resume.unread.length) := by
  rcases hunread : c.unread with _ | ⟨t, ts⟩
  · simp [resumption, Place.resume, hunread]
  · rw [hunread] at hn
    simp only [resumption, Place.resume, hunread]
    exact map_cons_skips hn (map_skips (Nat.le_of_succ_le hn))

end Cursor

/-- What a declaration replies that fails. -/
theorem Grammar.declaration_of_raises {c d : Cursor} {ds : List Cursor} {ev : List Event}
    (h : (declared (atRoom c.room .expression) (statementAt c.room)).Raises c ds d ev) :
    declaration c = ⟨some none, c.upTo (c.upTo d.unread).toPlace.resume.unread,
      .declaring c.toPlace :: (ev ++ [.recovering (c.upTo d.unread).toPlace])⟩ := by
  have hreply : unrecovered c = ⟨none, c.upTo d.unread, ev⟩ := h.reply
  rw [declaration_of_none (congrArg Reply.result hreply), hreply, Place.resume_eq]
  rfl

/-! ## Positions of a parser -/

namespace Parser

/-- The cursor at an index, or at the end of the text if that is in front of the index, with some
levels open. -/
def cursorAt (p : Parser) (index depth : Nat) : Cursor :=
  { p.cursor with unread := (p.tokens.takeWhile (·.kind != .eof)).drop index, depth }

/-- A cursor is known by its index and its depth. -/
theorem cursorAt_indexAt {p : Parser} {index depth : Nat} {us : List Token}
    (h : us <:+ (p.cursorAt index depth).unread) :
    (p.cursorAt index depth).upTo us =
      p.cursorAt (p.indexAt ((p.cursorAt index depth).upTo us)) depth := by
  have hsuffix := h.trans (List.drop_suffix _ _)
  simp only [cursorAt, Cursor.upTo, indexAt]
  rw [← List.suffix_iff_eq_drop.1 hsuffix]

section Resuming

variable {p : Parser} {tokens : List Token} {d : Cursor} (htokens : p.tokens = completed tokens)
  (hd : d.unread <:+ p.tokens.takeWhile (·.kind != .eof))

include hd

/-- Recovery reads the tokens in between, each of them once. -/
theorem map_indexAt_resumption :
    d.resumption.map p.indexAt = List.range' (p.indexAt d + 1)
      (p.indexAt (d.upTo d.toPlace.resume.unread) - p.indexAt d) := by
  have hle := hd.length_le
  have hlen := (d.toPlace.resume_unread_suffix.trans (List.tail_suffix _)).length_le
  have hcount : p.indexAt (d.upTo d.toPlace.resume.unread) - p.indexAt d =
      d.unread.length - d.toPlace.resume.unread.length := by
    simp only [indexAt, Cursor.upTo_unread]
    omega
  rw [hcount]
  exact Cursor.map_resumption hle

include htokens

/-- In front of the end of the text, recovery stops at the first boundary behind the next token. -/
theorem indexAt_resume :
    if nextKind (p.tokens.drop (p.indexAt d)) = .eof
    then p.indexAt (d.upTo d.toPlace.resume.unread) = p.indexAt d
    else IsLeast {i | p.indexAt d < i ∧ Boundary p.tokens i}
      (p.indexAt (d.upTo d.toPlace.resume.unread)) := by
  obtain ⟨last, more, hcompleted, heof, -⟩ := exists_completed_eq tokens
  simp only [indexAt, Cursor.upTo_unread, htokens, takeWhile_completed] at hd ⊢
  generalize hgen : tokens.takeWhile (·.kind != .eof) = text at *
  have htext : ∀ t ∈ text, t.kind ≠ .eof := fun t ht => ne_eof_of_mem_text (hgen ▸ ht)
  have hnext : nextKind ((completed tokens).drop (text.length - d.unread.length)) =
      nextKind d.unread := by
    rw [hcompleted, nextKind_drop_append_end heof (Nat.sub_le _ _), ← List.suffix_iff_eq_drop.1 hd]
  rw [hnext]
  split
  · next hend =>
    have hnil : d.unread = [] := by
      cases hunread : d.unread with
      | nil => rfl
      | cons t ts =>
        rw [hunread] at hend hd
        exact absurd hend (htext t (hd.mem List.mem_cons_self))
    simp only [Place.resume, hnil]
  · next hgo =>
    rw [hcompleted]
    exact Place.resume_isLeast htext heof hd fun hnil => hgo (by rw [hnil]; rfl)

end Resuming

/-- A declaration that fails at a token, from any position and with any number of levels open, is
left out.  The error that ended it is the last one, and on the way back from the rule that raised it
no token is read and nothing is reported.  Recovery then reads the tokens from the one where it was
raised to the first boundary behind that, one after another, and leaves the depth as it was when the
declaration began.  At the end of the text it reads nothing. -/
theorem declaration_resumes (ceiling : Nat) (tokens : List Token) (index depth : Nat) :
    let p := ofTokens ceiling tokens
    let c := p.cursorAt index depth
    let rule := declared (atRoom c.room .expression) (statementAt c.room)
    let answer := (p.withCursor c).declaration
    let resumed := p.indexAt answer.2.cursor
    (answer.1 = none ↔ ∃ ds d ev, rule.Raises c ds d ev) ∧
      ∀ ds d ev, rule.Raises c ds d ev →
        let raised := p.indexAt d
        p.indexAt c ≤ raised ∧ c.Path ds d ∧
          (∃ before diagnostic, ev = before ++ [.diagnosed diagnostic] ∧
            diagnostic.problem.isStructural = true) ∧
          answer.2.report.errors = errorsOf ev ∧
          answer.2.cursor = p.cursorAt resumed depth ∧
          (if nextKind (p.tokens.drop raised) = .eof then resumed = raised
            else IsLeast {i | raised < i ∧ Boundary p.tokens i} resumed) ∧
          ∃ unwound skipped, (recovered rule).Passes c (ds ++ unwound ++ skipped) ∧
            (∀ e ∈ unwound, p.indexAt e = raised) ∧
            skipped.map p.indexAt = List.range' (raised + 1) (resumed - raised) := by
  intro p c rule answer resumed
  have hfailed : answer.1 = (rule c).result := attempted_eq c
  refine ⟨hfailed ▸ ⟨(declared_widens c.room).exists_raises, ?_⟩, fun ds d ev h => ?_⟩
  · rintro ⟨ds, d, ev, h⟩
    rw [h.reply]
  have hreply := declaration_of_raises h
  have hcursor : answer.2.cursor = c.upTo (c.upTo d.unread).toPlace.resume.unread :=
    congrArg Reply.cursor hreply
  have hsuffix := h.unread_suffix
  have hc : c.unread <:+ p.tokens.takeWhile (·.kind != .eof) := List.drop_suffix _ _
  have hd : (c.upTo d.unread).unread <:+ p.tokens.takeWhile (·.kind != .eof) := hsuffix.trans hc
  have hresume := (Place.resume_unread_suffix (c.upTo d.unread).toPlace).trans (List.tail_suffix _)
  intro raised
  refine ⟨?ahead, h.path, h.exists_concat, ?errors, ?cursor, ?boundary, ?passes⟩
  case ahead => exact Nat.sub_le_sub_left hsuffix.length_le _
  case errors =>
    -- beginning and recovering are no errors
    rw [declaration_errors]
    show errorsOf (Grammar.declaration c).events = errorsOf ev
    rw [hreply]
    exact (errorsOf_append ev [.recovering _]).trans (List.append_nil _)
  case cursor =>
    simp only [resumed, hcursor]
    exact cursorAt_indexAt (hresume.trans hsuffix)
  case boundary =>
    simp only [resumed, hcursor]
    exact indexAt_resume rfl hd
  case passes =>
    obtain ⟨unwound, hpasses, hunread⟩ := h.exists_passes
    have hresumed := hpasses.resumed (congrArg Reply.result h.reply)
    rw [h.reply] at hresumed
    refine ⟨unwound, _, hresumed, fun e he => ?_, ?_⟩
    · simp only [raised, indexAt, hunread e he]
    · simp only [resumed, hcursor]
      exact map_indexAt_resumption hd

/-- The tokens of `a; (b c; d`. -/
def openGroup : List Token :=
  [⟨.identifier, "a", 1, none⟩, ⟨.semicolon, ";", 1, none⟩, ⟨.leftParen, "(", 1, none⟩,
    ⟨.identifier, "b", 1, none⟩, ⟨.identifier, "c", 1, none⟩, ⟨.semicolon, ";", 1, none⟩,
    ⟨.identifier, "d", 1, none⟩]

/-- Behind the first semicolon a parenthesis is missing at `c`, and parsing resumes at `d`. -/
theorem openGroup_resumes :
    let p := ofTokens 8 openGroup
    let c := p.cursorAt 2 1
    let answer := (p.withCursor c).declaration
    answer.1 = none ∧
      ∃ ds d ev, (declared (atRoom c.room .expression) (statementAt c.room)).Raises c ds d ev ∧
        p.indexAt d = 4 ∧ answer.2.report.errors = errorsOf ev ∧
        answer.2.cursor = p.cursorAt 6 1 ∧ IsLeast {i | 4 < i ∧ Boundary p.tokens i} 6 := by
  intro p c answer
  have hnone : answer.1 = none := by decide +kernel
  have hindex : p.indexAt answer.2.cursor = 6 := by decide +kernel
  have hstopped : (unrecovered c).cursor.unread = openGroup.drop 4 := by decide +kernel
  obtain ⟨hfails, hresumes⟩ := declaration_resumes 8 openGroup 2 1
  obtain ⟨ds, d, ev, h⟩ := hfails.1 hnone
  obtain ⟨-, -, -, herrors, hcursor, hleast, -⟩ := hresumes ds d ev h
  have hunread : d.unread = openGroup.drop 4 :=
    (congrArg (fun r => r.cursor.unread) h.reply).symm.trans hstopped
  have hraised : p.indexAt d = 4 := by rw [indexAt, hunread]; rfl
  refine ⟨hnone, ds, d, ev, h, hraised, herrors, ?_, ?_⟩
  · rw [← hindex]
    exact hcursor
  · change if nextKind (p.tokens.drop (p.indexAt d)) = .eof then _ else
      IsLeast {i | p.indexAt d < i ∧ Boundary p.tokens i} (p.indexAt answer.2.cursor) at hleast
    rw [hraised, hindex, if_neg (by decide)] at hleast
    exact hleast

end Parser

end LoxSyntax
