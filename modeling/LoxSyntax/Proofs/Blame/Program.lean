import Mathlib.Data.List.Perm.Subperm
import LoxSyntax.Proofs.Blame.Grammar
import LoxSyntax.Proofs.Session.Renewal

/-!
# No token is blamed twice

Every error of a program names a token, by its line and by its lexeme, or the end of the text.  The
errors that name tokens name different ones, in the order of the text but for the equals signs of
assignments; the end is named at most once more than there are opening braces.  So there are at
most two errors for each token, and one besides.

* `Token.context`, `SyntaxError.Blames` — how an error names a token.
* `Diagnostic.exists_getElem?` — the token at the place of a diagnostic.
* `Reply.Blames.pairwise_error`, `Reply.Blames.length_le` — in what order diagnostics name tokens,
  and how many there can be.
* **`Parser.exists_blamed`** — the errors of a program and the tokens that they blame.
-/

namespace LoxSyntax

open Rule Grammar

/-! ## Tokens and errors -/

/-- How a token is named in an error. -/
def Token.context (t : Token) : String :=
  if t.kind = .eof then "at end" else "at '" ++ t.lexeme ++ "'"

namespace SyntaxError

/-- The error names this token. -/
def Blames (e : SyntaxError) (t : Token) : Prop :=
  e.line = t.line ∧ e.context = t.context

/-- The error names the end of the text. -/
def isAtEnd (e : SyntaxError) : Bool :=
  e.context == "at end"

end SyntaxError

/-- No lexeme makes a token look like the end. -/
theorem quoted_ne_atEnd (lexeme : String) : "at '" ++ lexeme ++ "'" ≠ "at end" := by
  intro h
  have hlist := congrArg String.toList h
  simp at hlist

namespace Diagnostic

theorem isAtEnd_error (d : Diagnostic) : d.error.isAtEnd = d.isAtEnd := by
  rcases d with ⟨problem, ⟨_ | ⟨t, ts⟩, endLine⟩⟩
  · rfl
  · simpa [SyntaxError.isAtEnd, error, Place.context, isAtEnd, Place.isAtEnd] using
      quoted_ne_atEnd t.lexeme

theorem message_eq_iff (problem : Problem) :
    problem.message = "Invalid assignment target." ↔ problem = .invalidAssignmentTarget := by
  cases problem with
  | expected landmark => cases landmark <;> decide
  | _ => decide

end Diagnostic

/-! ## The tokens at places -/

/-- Behind the text comes its end. -/
theorem exists_completed_eq (tokens : List Token) :
    ∃ last more, completed tokens = tokens.takeWhile (·.kind != .eof) ++ last :: more ∧
      last.kind = .eof ∧ (Place.ofTokens tokens).endLine = last.line := by
  obtain ⟨e, hmem, heof⟩ := getLast?_completed tokens
  have hsome : ((completed tokens).find? (·.kind == .eof)).isSome :=
    List.find?_isSome.2 ⟨e, List.mem_of_getLast? hmem, by simp [heof]⟩
  obtain ⟨last, hlast⟩ := Option.isSome_iff_exists.1 hsome
  obtain ⟨hkind, text, more, htokens, htext⟩ := List.find?_eq_some_iff_append.1 hlast
  have hfront : tokens.takeWhile (·.kind != .eof) = text := by
    rw [← takeWhile_completed, htokens, List.takeWhile_append_of_pos (by simpa using htext)]
    simp [beq_iff_eq.1 hkind]
  exact ⟨last, more, by rw [hfront, htokens], beq_iff_eq.1 hkind, by simp [Place.ofTokens, hlast]⟩

/-- The token at a place of the text is the one that an error there names. -/
theorem Diagnostic.exists_getElem? {tokens : List Token} {d : Diagnostic}
    (hline : d.place.endLine = (Place.ofTokens tokens).endLine)
    (hplace : d.place.unread <:+ tokens.takeWhile (·.kind != .eof)) :
    ∃ t, (completed tokens)[(tokens.takeWhile (·.kind != .eof)).length - d.rest]? = some t ∧
      d.error.Blames t := by
  obtain ⟨last, more, htokens, heof, hend⟩ := exists_completed_eq tokens
  obtain ⟨used, hused⟩ := hplace
  have hindex : (tokens.takeWhile (·.kind != .eof)).length - d.rest = used.length := by
    rw [← hused, List.length_append, rest]
    exact Nat.add_sub_cancel ..
  rw [hindex, htokens, ← hused, List.append_assoc, List.getElem?_append_right (Nat.le_refl _),
    Nat.sub_self]
  rcases hunread : d.place.unread with _ | ⟨t, ts⟩
  · refine ⟨last, rfl, ?_⟩
    simp [SyntaxError.Blames, error, Place.line, Place.context, Token.context, hunread, heof,
      hline, hend]
  · have hmem : t ∈ tokens.takeWhile (·.kind != .eof) := by
      rw [← hused, hunread]
      simp
    have htext := ne_eof_of_mem_text hmem
    refine ⟨t, rfl, ?_⟩
    simp [SyntaxError.Blames, error, Place.line, Place.context, Token.context, hunread, htext]

/-! ## In what order, and how many -/

/-- Diagnostics in order name tokens in order, where tokens are counted from the front of a text of
which `n` tokens or fewer are unread. -/
theorem Reply.Blames.pairwise_error {α : Type} {c : Cursor} {r : Reply α} {n : Nat}
    (h : r.Blames 1 c) (hn : c.unread.length ≤ n) :
    (r.diagnostics.map fun d => (d.error, n - d.rest)).Pairwise fun x y =>
      x.1.isAtEnd = false →
        x.2 ≠ y.2 ∧ (y.1.message ≠ "Invalid assignment target." → x.2 < y.2) := by
  have hrest : ∀ d ∈ r.diagnostics, d.rest ≤ n := fun d hd =>
    Nat.le_trans (h.placed d hd).2.1.length_le hn
  refine List.pairwise_map.2 (List.Pairwise.imp_of_mem ?_ h.ordered)
  intro d e hd he hprecedes htoken
  rw [Diagnostic.isAtEnd_error] at htoken
  obtain ⟨hne, hlt⟩ := hprecedes htoken
  have hd' := hrest d hd
  have he' := hrest e he
  refine ⟨by dsimp only; omega, fun hmessage => ?_⟩
  have := hlt fun hproblem => hmessage ((Diagnostic.message_eq_iff _).2 hproblem)
  dsimp only
  omega

theorem Reply.Blames.countP_error_le {α : Type} {c : Cursor} {r : Reply α} (h : r.Blames 1 c) :
    (r.diagnostics.map Diagnostic.error).countP SyntaxError.isAtEnd ≤ 1 + braces c.unread := by
  have hsame : SyntaxError.isAtEnd ∘ Diagnostic.error = Diagnostic.isAtEnd :=
    funext Diagnostic.isAtEnd_error
  rw [List.countP_map, hsame]
  exact h.countP_le

/-- Different tokens are no more than there are tokens, and the end is blamed no more often than
there are braces, and once. -/
theorem Reply.Blames.length_le {α : Type} {c : Cursor} {r : Reply α} (h : r.Blames 1 c) :
    r.diagnostics.length ≤ 2 * c.unread.length + 1 := by
  have htokens : (r.diagnostics.filter (!·.isAtEnd)).length ≤ c.unread.length := by
    have hnodup : ((r.diagnostics.filter (!·.isAtEnd)).map Diagnostic.rest).Nodup := by
      refine List.pairwise_map.2 (List.Pairwise.imp_of_mem ?_ (h.ordered.filter _))
      intro d e hd _ hprecedes
      exact ((hprecedes (by simpa using (List.mem_filter.1 hd).2)).1).symm
    have hsubset : (r.diagnostics.filter (!·.isAtEnd)).map Diagnostic.rest ⊆
        List.range' 1 c.unread.length := by
      intro n hn
      obtain ⟨d, hd, rfl⟩ := List.mem_map.1 hn
      obtain ⟨hd, htoken⟩ := List.mem_filter.1 hd
      have hpos := Diagnostic.isAtEnd_eq_false_iff.1 (by simpa using htoken)
      have hle : d.rest ≤ c.unread.length := (h.placed d hd).2.1.length_le
      rw [List.mem_range'_1]
      omega
    simpa using (List.subperm_of_subset hnodup hsubset).length_le
  have hends : r.diagnostics.countP Diagnostic.isAtEnd ≤ 1 + c.unread.length :=
    Nat.le_trans h.countP_le (Nat.add_le_add_left List.countP_le_length 1)
  have hsplit : r.diagnostics.length = r.diagnostics.countP Diagnostic.isAtEnd +
      (r.diagnostics.filter (!·.isAtEnd)).length := by
    rw [List.length_eq_countP_add_countP Diagnostic.isAtEnd, ← List.countP_eq_length_filter]
    simp
  omega

/-! ## Programs -/

/-- Whatever has been done with a parser, it has a part of its text left, with the same end. -/
theorem Parser.session_unread (ceiling : Nat) (tokens : List Token) (actions : List Action) :
    let p := (Parser.ofTokens ceiling tokens).session actions
    p.tokens = completed tokens ∧ p.cursor.unread <:+ tokens.takeWhile (·.kind != .eof) ∧
      p.cursor.endLine = (Place.ofTokens tokens).endLine := by
  obtain ⟨htokens, us, hus, hcursor⟩ := (Parser.ofTokens ceiling tokens).session_cursor actions
  change us <:+ (Place.ofTokens tokens).unread at hus
  rw [Place.unread_ofTokens] at hus
  exact ⟨htokens, by rwa [hcursor], by rw [hcursor]; rfl⟩

/-- The rest of a program blames in order. -/
theorem Call.program_rule_blames (c : Cursor) : (Call.program.rule c).Blames 1 c := by
  rw [Call.rule_program]
  exact (program_blames c).map _

/-- Whatever has been done with a parser before, the errors of its program can be matched to tokens
that they name.  Errors that name tokens are matched to different ones, and each of them comes in
front of all later errors but for the invalid targets of assignments; the end is named at most once
more than there are opening braces. -/
theorem Parser.exists_blamed (ceiling : Nat) (tokens : List Token) (actions : List Action) :
    let p := (Parser.ofTokens ceiling tokens).session actions
    let text := tokens.takeWhile (·.kind != .eof)
    ∃ blamed : List (SyntaxError × Nat),
      blamed.map Prod.fst = Call.program.reported p ∧
      (∀ b ∈ blamed, ∃ t, p.tokens[b.2]? = some t ∧ b.1.Blames t) ∧
      blamed.Pairwise (fun x y => x.1.isAtEnd = false →
        x.2 ≠ y.2 ∧ (y.1.message ≠ "Invalid assignment target." → x.2 < y.2)) ∧
      (Call.program.reported p).countP SyntaxError.isAtEnd ≤
        1 + text.countP (·.kind == .leftBrace) ∧
      (Call.program.reported p).length ≤ 2 * text.length + 1 := by
  intro p text
  obtain ⟨htokens, hunread, hline⟩ := Parser.session_unread ceiling tokens actions
  have hblames := Call.program_rule_blames p.cursor
  have hreported : Call.program.reported p =
      (Call.program.rule p.cursor).diagnostics.map Diagnostic.error := Call.program.reported_eq p
  refine ⟨(Call.program.rule p.cursor).diagnostics.map fun d => (d.error, text.length - d.rest),
    ?_, ?_, hblames.pairwise_error hunread.length_le, ?_, ?_⟩
  · rw [hreported, List.map_map]
    rfl
  · rintro _ hb
    obtain ⟨d, hd, rfl⟩ := List.mem_map.1 hb
    obtain ⟨hplace, hsuffix, -⟩ := hblames.placed d hd
    rw [htokens]
    exact Diagnostic.exists_getElem? (hplace.trans hline) (hsuffix.trans hunread)
  · rw [hreported]
    exact Nat.le_trans hblames.countP_error_le
      (Nat.add_le_add_left (braces_le_of_suffix hunread) 1)
  · rw [hreported, List.length_map]
    have hlength : p.cursor.unread.length ≤ text.length := hunread.length_le
    have hdiagnostics := hblames.length_le
    omega

/-- Each open block of `{ { -` blames the end, and so does the operator. -/
example :
    let tokens : List Token := [⟨.leftBrace, "\x7b", 1, none⟩, ⟨.leftBrace, "\x7b", 1, none⟩,
      ⟨.minus, "-", 1, none⟩]
    (Call.program.reported (Parser.ofTokens 8 tokens)).countP SyntaxError.isAtEnd =
      1 + tokens.countP (·.kind == .leftBrace) := by
  decide +kernel

end LoxSyntax
