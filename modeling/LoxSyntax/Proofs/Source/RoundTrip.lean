import LoxSyntax.Proofs.Canonical.Program
import LoxSyntax.Proofs.Reading.Provenance
import LoxSyntax.Proofs.Source.Trees
import LoxSyntax.Tree.Agreement

/-!
# Program text reads back

Whatever a text was read as, its program text is read as the same program again: a program that was
read is in normal form, so that its text needs no parentheses of its own; its names, operators and
values were spelled in the first text, so that they are scanned again as they were; and it nests at
most three times as deep as the first text was allowed to.

* `Parser.program_ofText` — what was read from a text.
* `Parser.exists_scanned` — the tokens of a program's text.
* **`Parser.program_source`** — what was read reads back, lines aside.
-/

namespace LoxSyntax

namespace Parser

/-- What was read from a text is normal, spelled, and no deeper than three times the ceiling. -/
theorem program_ofText (ceiling : Nat) (text : String) :
    let p := (ofText ceiling text).program.1
    Program.isNormal p ∧ (Program.items p).all Item.isSpelled ∧
      Program.levels p ≤ 3 * ceiling := by
  intro p
  obtain ⟨ss, us, ev, hgives, hreads⟩ := Grammar.program_reads (ofText ceiling text).cursor
  obtain rfl : p = ss := by
    show ((Grammar.program (ofText ceiling text).cursor).result.getD []) = ss
    rw [hgives]
    rfl
  refine ⟨hreads.isNormal, List.all_eq_true.2 fun i hi => ?_, hreads.levels_le_mul⟩
  rcases hreads.keptFrom i hi with ⟨k, rfl⟩ | ⟨t, ht, rfl⟩
  · rfl
  · have hread : t ∈ (scan text).tokens.takeWhile (·.kind != .eof) := by
      rw [← Place.unread_ofTokens]
      exact ht
    exact Token.isSpelled_item (isSpelled_of_mem_scan hread)

/-- The program text of a normal and spelled program is scanned without errors, and its tokens are
those that the same program keeps on the lines of that text. -/
theorem exists_scanned (p : Program) (hnormal : Program.isNormal p)
    (hmissing : Program.missingCount p = 0) (hfinite : Program.hasFiniteNumbers p)
    (hspelled : (Program.items p).all Item.isSpelled) :
    ∃ p', Program.unlined p' = Program.unlined p ∧ Program.isNormal p' ∧
      Program.missingCount p' = 0 ∧ Program.levels p' = Program.levels p ∧
      (scan (Program.source p)).errors = [] ∧
      ((scan (Program.source p)).tokens.takeWhile (·.kind != .eof)).map Token.item =
        Program.items p' := by
  have hwritable := Program.isWritable_of_isNormal p hnormal hmissing hfinite hspelled
  obtain ⟨herrors, htokens⟩ := (Program.scans p hwritable).scan
  obtain ⟨p', hitems, hlines⟩ := Program.exists_unlined p (by rwa [List.map_map])
  refine ⟨p', hlines, ?_, ?_, ?_, herrors, hitems.symm⟩
  · rw [← Program.isNormal_unlined, hlines, Program.isNormal_unlined, hnormal]
  · rw [← Program.missingCount_unlined, hlines, Program.missingCount_unlined, hmissing]
  · rw [← Program.levels_unlined, hlines, Program.levels_unlined]

/-- The program text of whatever was read from a text, errors or not, is read without errors, and as
the same program but for the lines, if no operand is missing, all numbers are finite, and three
times as many levels may be open. -/
theorem program_source {ceiling ceiling' : Nat} (hceiling : 3 * ceiling ≤ ceiling') (text : String)
    (p : Program) (hp : (ofText ceiling text).program.1 = p)
    (hmissing : Program.missingCount p = 0) (hfinite : Program.hasFiniteNumbers p) :
    let again := (ofText ceiling' (Program.source p)).program
    again.2.report.errors = [] ∧ Program.unlined again.1 = Program.unlined p := by
  intro again
  obtain ⟨hnormal, hspelled, hlevels⟩ := program_ofText ceiling text
  rw [hp] at hnormal hspelled hlevels
  -- the program on the lines of the second text
  obtain ⟨p', hlines, hnormal', hmissing', hlevels', herrors, hitems⟩ :=
    exists_scanned p hnormal hmissing hfinite hspelled
  obtain ⟨ev, hclean, hgives⟩ := gives_of_levels_le hnormal' hmissing' hitems
    (hlevels' ▸ Nat.le_trans hlevels hceiling)
  have hreply : Grammar.program (ofText ceiling' (Program.source p)).cursor = _ := hgives
  constructor
  · show (scan (Program.source p)).errors ++ errorsOf _ = []
    rw [hreply, herrors, errorsOf_eq_nil.2 hclean, List.append_nil]
  · show Program.unlined ((Grammar.program (ofText ceiling' _).cursor).result.getD []) = _
    rw [hreply]
    exact hlines

/-- A loop on two lines, and a statement that is left out with an error. -/
def halvingText : String :=
  "for (; x;\nx = 0.5) print \"a\"; 1 +;"

/-- Its tree. -/
def halvingProgram : Program :=
  [.loop (.variable ⟨.identifier, "x", 1, none⟩)
    (.block [.print (.string "a"), .expression (.assign ⟨.identifier, "x", 2, none⟩
      (.number ⟨4602678819172646912⟩))])]

theorem halvingProgram_source :
    3 * 5 ≤ 15 ∧ (ofText 5 halvingText).program.1 = halvingProgram ∧
      Program.missingCount halvingProgram = 0 ∧ Program.hasFiniteNumbers halvingProgram ∧
      let again := (ofText 15 (Program.source halvingProgram)).program
      again.2.report.errors = [] ∧ Program.unlined again.1 = Program.unlined halvingProgram := by
  have hread : (ofText 5 halvingText).program.1 = halvingProgram := by decide +kernel
  have hmissing : Program.missingCount halvingProgram = 0 := by decide +kernel
  have hfinite : Program.hasFiniteNumbers halvingProgram = true := by decide +kernel
  exact ⟨by decide, hread, hmissing, hfinite,
    program_source (by decide) halvingText halvingProgram hread hmissing hfinite⟩

end Parser

end LoxSyntax
