import LoxSyntax.Proofs.Blame.Program
import LoxSyntax.Proofs.Rule.Passage

/-!
# The range of the cursor

A parser looks at its tokens by index, at the next one and at the one before it, and counts the
levels that are open.  Whatever the tokens are, whether they end the text once, not at all or in
several places, and whatever was called before, neither number leaves its range at any step of a
call: the index stays at or in front of the first end of the text, and the depth stays between zero
and the ceiling.

* `Parser.indexAt`, `Parser.endIndex` — the index of the next token, and of the end.
* `Parser.InRange` — a cursor whose index and depth are in range.
* `Cursor.Moves.precedes` — a move keeps the depth in range and does not go back.
* `Cursor.Path.pairwise_precedes` — so do several moves.
* **`Parser.inRange_session`** — every cursor that a call passes, behind any session.
-/

namespace LoxSyntax

/-! ## Moves do not go back -/

namespace Cursor

/-- The second cursor has the tokens of the first one unread, or fewer of them, and its depth is in
range. -/
structure Precedes (c d : Cursor) : Prop where
  unread : d.unread <:+ c.unread
  endLine : d.endLine = c.endLine
  ceiling : d.ceiling = c.ceiling
  depth_le : d.depth ≤ d.ceiling

theorem Precedes.trans {c d e : Cursor} (h : c.Precedes d) (h' : d.Precedes e) : c.Precedes e where
  unread := h'.unread.trans h.unread
  endLine := h'.endLine.trans h.endLine
  ceiling := h'.ceiling.trans h.ceiling
  depth_le := h'.depth_le

theorem Moves.precedes {c d : Cursor} (h : c.Moves d) (hdepth : c.depth ≤ c.ceiling) :
    c.Precedes d := by
  cases h with
  | stay => exact ⟨List.suffix_refl _, rfl, rfl, hdepth⟩
  | @read t ts hts =>
    refine ⟨?_, rfl, rfl, hdepth⟩
    rw [hts]
    exact List.suffix_cons t ts
  | deepen hlt => exact ⟨List.suffix_refl _, rfl, rfl, hlt⟩
  | close _ => exact ⟨List.suffix_refl _, rfl, rfl, Nat.le_trans (Nat.sub_le c.depth 1) hdepth⟩

theorem Path.pairwise_precedes {c c' : Cursor} {ds : List Cursor} (h : c.Path ds c')
    (hdepth : c.depth ≤ c.ceiling) : (c :: ds).Pairwise Precedes := by
  induction h with
  | nil => exact List.pairwise_singleton _ _
  | @cons c d c' ds hmove _ ih =>
    have hnext := hmove.precedes hdepth
    have hrest := ih hnext.depth_le
    refine List.pairwise_cons.2 ⟨?_, hrest⟩
    intro e he
    rcases List.mem_cons.1 he with rfl | he
    · exact hnext
    · exact hnext.trans ((List.pairwise_cons.1 hrest).1 e he)

end Cursor

/-! ## Indices -/

namespace Parser

/-- The index of the token that is next at a cursor. -/
def indexAt (p : Parser) (c : Cursor) : Nat :=
  (p.tokens.takeWhile (·.kind != .eof)).length - c.unread.length

/-- The index of the first end of the text. -/
def endIndex (p : Parser) : Nat :=
  p.tokens.findIdx (·.kind == .eof)

/-- A cursor is in range if its index is that of a token at or in front of the first end of the
text, so that there is a next token and, unless that is the first one, a token before it, and if no
more levels are open than the ceiling allows. -/
structure InRange (p : Parser) (c : Cursor) : Prop where
  index_le : p.indexAt c ≤ p.endIndex
  next : ∃ t, p.tokens[p.indexAt c]? = some t ∧ t.kind = c.kind ∧ t.line = c.line ∧
    (p.indexAt c < p.endIndex → c.unread.head? = some t)
  previous : ∃ t, p.tokens[p.indexAt c - 1]? = some t
  depth_le : c.depth ≤ c.ceiling

/-- A cursor is in range whose unread tokens are the last ones in front of the end. -/
theorem inRange_of_suffix {p : Parser} {tokens : List Token} {c : Cursor}
    (htokens : p.tokens = completed tokens) (hus : c.unread <:+ tokens.takeWhile (·.kind != .eof))
    (hend : c.endLine = (Place.ofTokens tokens).endLine) (hdepth : c.depth ≤ c.ceiling) :
    p.InRange c := by
  obtain ⟨last, rest, hcompleted, heof, hline⟩ := exists_completed_eq tokens
  obtain ⟨read, hread⟩ := hus
  have hindex : p.indexAt c = read.length := by
    rw [indexAt, htokens, takeWhile_completed, ← hread, List.length_append]
    omega
  have hnone : (read ++ c.unread).findIdx (·.kind == .eof) = (read ++ c.unread).length := by
    refine List.findIdx_eq_length_of_false fun t ht => ?_
    rw [hread] at ht
    simpa using ne_eof_of_mem_text ht
  have hendIndex : p.endIndex = read.length + c.unread.length := by
    rw [endIndex, htokens, hcompleted, ← hread, List.findIdx_append, hnone, List.findIdx_cons]
    simp [heof]
  have hat : p.tokens[read.length]? = (c.unread ++ last :: rest).head? := by
    rw [htokens, hcompleted, ← hread, List.append_assoc, List.getElem?_append_right (Nat.le_refl _),
      Nat.sub_self, List.head?_eq_getElem?]
  refine ⟨by omega, ?_, ?_, hdepth⟩
  · rw [hindex, hendIndex, hat]
    cases hunread : c.unread with
    | nil =>
      refine ⟨last, rfl, ?_, ?_, fun hlt => ?_⟩
      · rw [c.kind_eq_nextKind, hunread, heof, nextKind_nil]
      · rw [Place.line, hunread, hend, hline]
      · rw [List.length_nil] at hlt
        exact absurd hlt (Nat.lt_irrefl _)
    | cons t us =>
      refine ⟨t, rfl, ?_, ?_, fun _ => rfl⟩
      · rw [c.kind_eq_nextKind, hunread, nextKind_cons]
      · rw [Place.line, hunread]
  · have hlt : p.indexAt c - 1 < p.tokens.length := by
      rw [hindex, htokens, hcompleted, ← hread]
      simp only [List.length_append, List.length_cons]
      omega
    exact ⟨_, List.getElem?_eq_getElem hlt⟩

/-- At every step of a call, behind any session, the cursor stands at a token in front of the first
end of the text or at that end, never in front of where it stood before, and no more levels are open
than the ceiling allows.  Every call closes the levels that it opened, whether it fails or not, so
that none is open between calls. -/
theorem inRange_session (ceiling : Nat) (tokens : List Token) (actions : List Action)
    (call : Call) :
    let p := (ofTokens ceiling tokens).session actions
    let rule := call.ruleAt p.cursor.room p.cursor.unread
    (∃ ds, rule.Passes p.cursor ds) ∧
      (∀ ds, rule.Passes p.cursor ds →
        p.cursor.Path ds (call.run p).2.cursor ∧
          (∀ d ∈ p.cursor :: ds, p.InRange d ∧ d.ceiling = ceiling) ∧
          (p.cursor :: ds).Pairwise (p.indexAt · ≤ p.indexAt ·)) ∧
      p.cursor.depth = 0 ∧ (call.run p).2.cursor.depth = 0 ∧
      ∀ c, (call.rule c).cursor.depth = c.depth := by
  intro p rule
  obtain ⟨htokens, hunread, hend⟩ := session_unread ceiling tokens actions
  obtain ⟨-, us, -, hcursor⟩ := (ofTokens ceiling tokens).session_cursor actions
  have hclosed : ∀ c, (call.rule c).cursor.depth = c.depth := by
    intro c
    obtain ⟨vs, -, hvs⟩ := call.exists_rule_cursor c
    rw [hvs, Cursor.upTo_depth]
  have hdepth : p.cursor.depth = 0 := congrArg Cursor.depth hcursor
  have hceiling : p.cursor.ceiling = ceiling := congrArg Cursor.ceiling hcursor
  refine ⟨?_, fun ds hds => ?_, hdepth, ?_, hclosed⟩
  · exact (call.ruleAt_widens (Nat.le_refl p.cursor.room) p.cursor.unread).exists_passes p.cursor
  · have hpath : p.cursor.Path ds (call.run p).2.cursor := by
      rw [call.run_cursor]
      exact hds.path
    have hahead := hpath.pairwise_precedes (by omega)
    have hrange : ∀ d ∈ p.cursor :: ds, p.cursor.Precedes d := by
      intro d hd
      rcases List.mem_cons.1 hd with rfl | hd
      · exact (Cursor.Moves.stay p.cursor).precedes (by omega)
      · exact (List.pairwise_cons.1 hahead).1 d hd
    refine ⟨hpath, fun d hd => ?_, hahead.imp fun hcd => ?_⟩
    · have hd := hrange d hd
      have hin := inRange_of_suffix htokens (hd.unread.trans hunread) (hd.endLine.trans hend)
        hd.depth_le
      exact ⟨hin, hd.ceiling.trans hceiling⟩
    · have hlen := hcd.unread.length_le
      simp only [indexAt]
      omega
  · rw [call.run_cursor, hclosed, hdepth]

end Parser

/-- The tokens of `-a`, an end of the text, and a token behind it. -/
def earlyEnd : List Token :=
  [⟨.minus, "-", 1, none⟩, ⟨.identifier, "a", 1, none⟩, Token.eof 1, ⟨.semicolon, ";", 2, none⟩]

/-- A statement fails at the end of the text in front of that token, which is never looked at. -/
theorem earlyEnd_inRange :
    let p := (Parser.ofTokens 4 earlyEnd).session []
    p.statement.1 = none ∧ p.endIndex = 2 ∧
      ∃ ds, (Call.statement.ruleAt p.cursor.room p.cursor.unread).Passes p.cursor ds ∧
        p.cursor.Path ds (Call.statement.run p).2.cursor ∧
        ∀ d ∈ p.cursor :: ds, p.InRange d ∧ d.ceiling = 4 := by
  intro p
  obtain ⟨⟨ds, hds⟩, hrange, -⟩ := Parser.inRange_session 4 earlyEnd [] .statement
  obtain ⟨hpath, hin, -⟩ := hrange ds hds
  exact ⟨by decide +kernel, by decide +kernel, ds, hds, hpath, hin⟩

end LoxSyntax
