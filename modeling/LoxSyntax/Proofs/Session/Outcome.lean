import LoxSyntax.Proofs.Sentence.Program
import LoxSyntax.Session.Outcome

/-!
# Texts that are programs

What becomes of a text is told by one run of the rule for programs from its first token: the text is
a program where neither that run nor the scanner has reported anything.

* `Program.ofText_of_gives` — the outcome of a run.
* **`Program.ofText_eq_ok_iff`** — the texts that are programs, by their derivations.
-/

namespace LoxSyntax

open Rule Grammar

namespace Program

theorem ofText_eq (ceiling : Nat) (text : String) :
    ofText ceiling text =
      if (Parser.ofText ceiling text).program.2.report.errors.isEmpty
      then .ok (Parser.ofText ceiling text).program.1
      else .error (Parser.ofText ceiling text).program.2.report.errors := rfl

/-- What becomes of a text is told by a run of the rule for programs. -/
theorem ofText_of_gives {ceiling : Nat} {text : String} {p : Program} {c' : Cursor}
    {ev : List Event} (h : Grammar.program.Gives (Parser.ofText ceiling text).cursor p c' ev) :
    ofText ceiling text =
      if (scan text).errors ++ errorsOf ev = [] then .ok p
      else .error ((scan text).errors ++ errorsOf ev) := by
  have herrors := Parser.program_errors (Parser.ofText ceiling text)
  have hfst := Parser.program_fst (Parser.ofText ceiling text)
  rw [h] at herrors hfst
  rw [ofText_eq, hfst, herrors]
  simp only [List.isEmpty_iff]
  rfl

/-- A text is a program where it is scanned without errors and its tokens, all of them, are read as
that program without errors. -/
theorem ofText_eq_ok_iff {ceiling : Nat} {text : String} {p : Program} :
    ofText ceiling text = .ok p ↔
      (scan text).errors = [] ∧ ∃ ev, (∀ d, .diagnosed d ∉ ev) ∧
        Stmt.Reads (Place.ofTokens (scan text).tokens).endLine ceiling (.declarations .eof)
          ((scan text).tokens.takeWhile (·.kind != .eof)) p [] ev := by
  have hunread : (Parser.ofText ceiling text).cursor.unread =
      (scan text).tokens.takeWhile (·.kind != .eof) := Place.unread_ofTokens _
  rw [← hunread]
  constructor
  · intro h
    obtain ⟨ss, us, ev, hgives, hreads⟩ := program_reads (Parser.ofText ceiling text).cursor
    obtain rfl : us = [] := hreads.eq_nil_of_program fun t ht => by
      rw [hunread] at ht
      simpa using List.all_eq_true.1 List.all_takeWhile t ht
    rw [ofText_of_gives hgives] at h
    split at h
    · next hnil =>
      obtain ⟨hscan, hrun⟩ := List.append_eq_nil_iff.1 hnil
      cases h
      exact ⟨hscan, ev, errorsOf_eq_nil.1 hrun, hreads⟩
    · cases h
  · rintro ⟨hscan, ev, hclean, hreads⟩
    have hgives := Stmt.Reads.gives_program (c := (Parser.ofText ceiling text).cursor) hreads
      (unbroken_of_clean hclean)
    rw [ofText_of_gives hgives, hscan, errorsOf_eq_nil.2 hclean]
    rfl

end Program

end LoxSyntax
