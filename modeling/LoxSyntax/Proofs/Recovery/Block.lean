import LoxSyntax.Proofs.Recovery.Swallowing
import LoxSyntax.Proofs.Session.Unwinding

/-!
# Errors inside of a block

An error inside of a block does not always stay there.  Recovery knows no braces: it goes on until
it has skipped a semicolon or a statement begins, and it skips the end of the block on the way if
the semicolon before it is lacking.  Whether all that comes behind the block is lost with it, that
is told by the block alone: nothing is lost if its last declaration can be read, and otherwise
something can be.  If recovery skips no brace, nothing is lost.

* `Parser.Confines` — tokens behind which every program is read.
* **`Parser.confines_iff`** — for tokens that end with a brace, when they do.
* `Parser.balance_block` — a block that is read closes all that it opens.
* **`Parser.confines_eraseIdx`** — a block that lacks one token.
* `Parser.looseBlock_loses` — a block that loses what comes behind it.
-/

namespace LoxSyntax

open Grammar Rule

theorem TokenKind.brace_eq_zero_iff {k : TokenKind} :
    k.brace = 0 ↔ k ≠ .leftBrace ∧ k ≠ .rightBrace := by
  cases k <;> simp [brace]

/-- A token that is not a brace makes no difference to the braces. -/
theorem balance_eraseIdx {ts : List Token} {i : Nat}
    (h : ∀ t, ts[i]? = some t → t.kind.brace = 0) : balance (ts.eraseIdx i) = balance ts := by
  by_cases hi : i < ts.length
  · have hsplit := List.take_append_drop i ts
    rw [List.drop_eq_getElem_cons hi] at hsplit
    have hzero := h ts[i] (List.getElem?_eq_getElem hi)
    rw [List.eraseIdx_eq_take_drop_succ, balance_append]
    nth_rewrite 3 [← hsplit]
    rw [balance_append, balance_cons, hzero, Int.zero_add]
  · rw [List.eraseIdx_of_length_le (Nat.le_of_not_lt hi)]

/-- A program without errors recovers from nothing. -/
theorem Grammar.not_recovering_of_clean {c : Cursor} (h : errorsOf (program c).events = [])
    (q : Place) : .recovering q ∉ (program c).events := by
  have hcount := (declarationsOf_widens (declarationOf_widens
    (atRoom_widens (Nat.le_refl c.room) .expression) (statementAt_widens (Nat.le_refl c.room)))
    .eof c.unread).countP_isStructural c
  rw [← program_eq, ← countP_errorsOf, h] at hcount
  intro hq
  have hpos : 0 < (program c).events.countP Event.isRecovery :=
    List.countP_pos_iff.2 ⟨_, hq, rfl⟩
  simp only [List.countP_nil] at hcount
  omega

namespace Parser

/-- Whatever program comes behind the tokens, its statements are the last ones that are read. -/
def Confines (ceiling : Nat) (front : List Token) : Prop :=
  ∀ tokens, (ofTokens ceiling tokens).program.2.report.errors = [] →
    (ofTokens ceiling tokens).program.1 <:+ (ofTokens ceiling (front ++ tokens)).program.1

section Ends

variable {ceiling : Nat} {front : List Token} {last : Token}
  (heof : ∀ t ∈ front ++ [last], t.kind ≠ .eof)

include heof

/-- If the last declaration can be read, so can all that comes behind. -/
theorem confines_of_returned {ds : List Cursor} {d : Cursor}
    (hds : Attempts (ofTokens ceiling (front ++ [last])).cursor (ds ++ [d]))
    (hd : attempted d ≠ none) : Confines ceiling (front ++ [last]) := by
  intro tokens haccepted
  obtain ⟨hprogram, -⟩ := program_append heof haccepted hds fun d' hlast hnone => by
    obtain rfl : d = d' := by simpa using hlast
    exact absurd hnone hd
  rw [List.append_assoc, List.singleton_append, hprogram]
  exact List.suffix_append _ _

omit heof in
/-- Empty blocks are a program. -/
theorem program_emptyBlocks (m n : Nat) :
    (ofTokens (m + 1) (emptyBlocks n)).program.1 = List.replicate n (.block []) ∧
      (ofTokens (m + 1) (emptyBlocks n)).program.2.report.errors = [] ∧
      (ofTokens (m + 1) (emptyBlocks n)).cursor.unread = emptyBlocks n := by
  have hunread := unread_of_ne_eof (m + 1) fun _ => ne_eof_of_mem_emptyBlocks (n := n)
  obtain ⟨ev, hev, hreads⟩ :=
    emptyBlocks_reads (ofTokens (m + 1) (emptyBlocks n)).cursor.endLine m n
  have hgives : Grammar.program.Gives (ofTokens (m + 1) (emptyBlocks n)).cursor
      (List.replicate n (.block [])) ((ofTokens (m + 1) (emptyBlocks n)).cursor.upTo []) ev :=
    Stmt.Reads.gives_program (by rw [hunread]; exact hreads) (unbroken_of_clean hev)
  rw [program_fst, program_errors, hgives]
  exact ⟨rfl, errorsOf_eq_nil.2 hev, hunread⟩

/-- If the last declaration cannot be read, and the last token is a brace, nothing is left of empty
blocks that come behind. -/
theorem not_confines_of_lost {m : Nat} (hlast : last.kind = .rightBrace) {ds : List Cursor}
    (hds : Attempts (ofTokens (m + 1) (front ++ [last])).cursor ds)
    (hnone : ∀ d, ds.getLast? = some d → attempted d = none) :
    ¬ Confines (m + 1) (front ++ [last]) := by
  intro hconfines
  -- more blocks than statements that have been read in front of them
  let n := (ds.filterMap attempted).length + 1
  obtain ⟨hprogram, haccepted, htokens⟩ := program_emptyBlocks m n
  obtain ⟨htwin, -⟩ := twin_append (m + 1) heof
    (show emptyBlocks n ≠ [] by simp [n, emptyBlocks])
  obtain ⟨ds', hds', hresults⟩ :=
    hds.exists_sunk rfl hlast htokens (by rwa [unread_of_ne_eof (m + 1) heof]) htwin hnone
  have hsuffix := (hconfines (emptyBlocks n) haccepted).length_le
  rw [List.append_assoc, List.singleton_append, (program_of_attempts hds').1, hresults, hprogram,
    List.length_replicate] at hsuffix
  omega

/-- Tokens that end with a brace confine their errors just where the last declaration can be
read. -/
theorem confines_iff (hceiling : 0 < ceiling) (hlast : last.kind = .rightBrace) :
    Confines ceiling (front ++ [last]) ↔
      ∃ ds d, Attempts (ofTokens ceiling (front ++ [last])).cursor (ds ++ [d]) ∧
        ((ofTokens ceiling (front ++ [last])).withCursor d).declaration.1 ≠ none := by
  constructor
  · intro hconfines
    obtain ⟨m, rfl⟩ : ∃ m, ceiling = m + 1 := ⟨ceiling - 1, by omega⟩
    obtain ⟨ds, hds⟩ := exists_attempts (ofTokens (m + 1) (front ++ [last])).cursor
    by_contra hlost
    refine not_confines_of_lost heof hlast hds (fun d hd => ?_) hconfines
    by_contra hreturned
    obtain ⟨ds', rfl⟩ := List.getLast?_eq_some_iff.1 hd
    exact hlost ⟨ds', d, hds, hreturned⟩
  · rintro ⟨ds, d, hds, hd⟩
    exact confines_of_returned heof hds hd

end Ends

/-! ## Blocks that lack a token -/

section Blocks

variable {ceiling : Nat} {left right : Token} {body : List Token}
  (hleft : left.kind = .leftBrace) (hright : right.kind = .rightBrace)
  (heof : ∀ t ∈ body, t.kind ≠ .eof)
  (haccepted : (ofTokens ceiling (left :: body ++ [right])).program.2.report.errors = [])

include hleft hright heof

omit haccepted in
theorem unread_block : (ofTokens ceiling (left :: body ++ [right])).cursor.unread =
    left :: body ++ [right] := by
  refine unread_of_ne_eof ceiling ?_
  simpa [or_imp, forall_and, hleft, hright] using heof

include haccepted

/-- No block is read where no level may be opened. -/
theorem ceiling_pos : 0 < ceiling := by
  obtain ⟨ss, us, ev, hgives, hreads⟩ :=
    program_reads (ofTokens ceiling (left :: body ++ [right])).cursor
  rw [program_errors, hgives] at haccepted
  have hclean := errorsOf_eq_nil.1 (List.append_eq_nil_iff.1 haccepted).2
  rw [unread_block hleft hright heof] at hreads
  cases hreads with
  | done stop => simp [hleft] at stop
  | next _ first _ =>
    cases first with
    | declared hword => exact absurd (hleft.symm.trans hword) (by decide)
    | stated _ inner => exact inner.room_pos
    | skipped _ _ reported =>
      obtain ⟨d, -, hd⟩ := reported
      exact absurd (List.mem_append_left _ hd) (hclean d)

/-- A block that is read is closed, and so are all blocks inside of it. -/
theorem balance_block : balance (left :: body ++ [right]) = 0 := by
  have hunread : (ofTokens ceiling (left :: body ++ [right])).cursor.unread = _ :=
    unread_block hleft hright heof
  obtain ⟨ds, hds⟩ := exists_attempts (ofTokens ceiling (left :: body ++ [right])).cursor
  rw [program_errors] at haccepted
  have hcalm := not_recovering_of_clean (List.append_eq_nil_iff.1 haccepted).2
  rw [hds.program_events] at hcalm
  rw [← hunread]
  refine hds.balance_eq_zero ?_ fun d hd q hq => hcalm q (List.mem_flatMap.2 ⟨d, hd, hq⟩)
  rw [hunread]
  simpa [or_imp, forall_and, hleft, hright] using heof

end Blocks

/-- A block from which a token is taken that is not a brace confines its errors just where the last
declaration of what remains can be read; and it can, if recovery skips no brace. -/
theorem confines_eraseIdx (ceiling : Nat) (left right : Token) (body : List Token) (i : Nat)
    (hleft : left.kind = .leftBrace) (hright : right.kind = .rightBrace)
    (heof : ∀ t ∈ body, t.kind ≠ .eof)
    (haccepted : (ofTokens ceiling (left :: body ++ [right])).program.2.report.errors = [])
    (hbrace : ∀ t, body[i]? = some t → t.kind ≠ .leftBrace ∧ t.kind ≠ .rightBrace) :
    let rest := left :: body.eraseIdx i ++ [right]
    let p := ofTokens ceiling rest
    (Confines ceiling rest ↔ ∃ ds d, Attempts p.cursor (ds ++ [d]) ∧
      (p.withCursor d).declaration.1 ≠ none) ∧
    ((∀ q, .recovering q ∈ (Grammar.program p.cursor).events →
      ∀ t ∈ q.skipped, t.kind ≠ .leftBrace ∧ t.kind ≠ .rightBrace) → Confines ceiling rest) := by
  intro rest p
  have heof' : ∀ t ∈ body.eraseIdx i, t.kind ≠ .eof :=
    fun t ht => heof t (List.mem_of_mem_eraseIdx ht)
  have hrest : ∀ t ∈ left :: body.eraseIdx i ++ [right], t.kind ≠ .eof := by
    simpa [or_imp, forall_and, hleft, hright] using heof'
  refine ⟨confines_iff hrest (ceiling_pos hleft hright heof haccepted) hright, fun hspares => ?_⟩
  obtain ⟨ds, hds⟩ := exists_attempts p.cursor
  have hunread : p.cursor.unread = rest := unread_block hleft hright heof'
  have hne : ds ≠ [] := by
    rintro rfl
    cases hds with
    | done stop =>
      rw [hunread] at stop
      exact absurd (hleft.symm.trans stop) (by decide)
  have hend : p.cursor.unread.getLast?.map (·.kind) = some .rightBrace := by
    rw [hunread, List.getLast?_concat]
    exact congrArg some hright
  rw [hds.program_events] at hspares
  have hclosed : balance p.cursor.unread = 0 := by
    rw [hunread, ← balance_block hleft hright heof haccepted]
    simp only [rest, List.cons_append, balance_cons, balance_append]
    rw [balance_eraseIdx fun t ht => TokenKind.brace_eq_zero_iff.2 (hbrace t ht)]
  have hreturned := hds.returned_of_balance (by rw [hunread]; exact hrest)
    (fun d hd q hq t ht => TokenKind.brace_eq_zero_iff.2
      (hspares q (List.mem_flatMap.2 ⟨d, hd, hq⟩) t ht))
    hclosed hend (List.getLast?_eq_some_getLast hne)
  rw [← List.dropLast_append_getLast hne] at hds
  exact confines_of_returned hrest hds hreturned

end Parser

/-- The tokens of `{a;}`, a block in which the semicolon is needed. -/
def tightBlock : List Token :=
  [⟨.identifier, "a", 1, none⟩, ⟨.semicolon, ";", 1, none⟩]

/-- The tokens of `b;`. -/
def follower : List Token :=
  [⟨.identifier, "b", 1, none⟩, ⟨.semicolon, ";", 1, none⟩]

namespace Parser

/-- Without its `a` the block still ends where it did. -/
theorem tightBlock_confines :
    Confines 8 (⟨.leftBrace, "\x7b", 1, none⟩ :: tightBlock.eraseIdx 0 ++
      [⟨.rightBrace, "\x7d", 1, none⟩]) := by
  obtain ⟨-, hspares⟩ := confines_eraseIdx 8 ⟨.leftBrace, "\x7b", 1, none⟩
    ⟨.rightBrace, "\x7d", 1, none⟩ tightBlock 0 rfl rfl (by decide) (by decide +kernel)
    (by simp [tightBlock])
  refine hspares fun q hq => ?_
  -- the only recovery begins at the semicolon and skips that alone
  have hevents : ∀ event ∈ (Grammar.program (ofTokens 8 (⟨.leftBrace, "\x7b", 1, none⟩ ::
      tightBlock.eraseIdx 0 ++ [⟨.rightBrace, "\x7d", 1, none⟩])).cursor).events,
      event.isRecovery → event = .recovering ⟨[⟨.semicolon, ";", 1, none⟩,
        ⟨.rightBrace, "\x7d", 1, none⟩], 1⟩ := by
    decide +kernel
  obtain rfl : q = _ := Event.recovering.inj (hevents _ hq rfl)
  decide

/-- Without its semicolon `{a;}` takes with it what comes behind. -/
theorem looseBlock_loses :
    let left : Token := ⟨.leftBrace, "\x7b", 1, none⟩
    let right : Token := ⟨.rightBrace, "\x7d", 1, none⟩
    (ofTokens 8 (left :: tightBlock ++ [right])).program.2.report.errors = [] ∧
      (∀ t, tightBlock[1]? = some t → t.kind ≠ .leftBrace ∧ t.kind ≠ .rightBrace) ∧
      (ofTokens 8 follower).program.2.report.errors = [] ∧
      ¬ (ofTokens 8 follower).program.1 <:+
        (ofTokens 8 (left :: tightBlock.eraseIdx 1 ++ [right] ++ follower)).program.1 := by
  decide +kernel

end Parser

end LoxSyntax
