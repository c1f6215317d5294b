import LoxSyntax.Proofs.Session.Outcome
import LoxSyntax.Proofs.Source.RoundTrip

/-!
# Which program texts are accepted

The program text of a program that a text is has no errors but one: it can take more levels of
nesting than the ceiling allows.  It never does where the first text had no `for` loop.  What a
`for` loop stands for takes more levels than the loop itself, so under a ceiling that the loop just
met, its own program text may be refused.

* `Program.levels_of_ofText` — how many levels a program takes that a text is.
* `loopText_refused` — a text that is a program under a ceiling that its program text does not meet.
* **`Program.ofText_source`** — the ceilings under which the program text is accepted.
-/

namespace LoxSyntax

open Rule Grammar

namespace Program

/-! ## The text of a program -/

section Source

variable {ceiling : Nat} {text : String} {p : Program} (hp : ofText ceiling text = .ok p)

include hp

/-- In a program that a text is no operand is missing. -/
theorem missingCount_of_ofText : missingCount p = 0 := by
  obtain ⟨-, ev, hclean, hreads⟩ := ofText_eq_ok_iff.1 hp
  exact Nat.le_zero.1 (countP_isMissing_eq_zero hclean ▸ hreads.missingCount_le)

/-- A program that a text is takes few levels more than the ceiling if there are few loops in it. -/
theorem levels_of_ofText : levels p ≤ ceiling + loopLevels (loopCount (scan text).tokens) := by
  obtain ⟨-, ev, -, hreads⟩ := ofText_eq_ok_iff.1 hp
  exact hreads.levels_le_add (List.takeWhile_prefix _).sublist.countP_le

theorem program_of_ofText : (Parser.ofText ceiling text).program.1 = p := by
  obtain ⟨-, ev, hclean, hreads⟩ := ofText_eq_ok_iff.1 hp
  rw [← Place.unread_ofTokens] at hreads
  have hgives := Stmt.Reads.gives_program (c := (Parser.ofText ceiling text).cursor) hreads
    (unbroken_of_clean hclean)
  rw [Parser.program_fst, hgives]
  rfl

/-- The text of a program that a text is with finite numbers has no errors but for too much
nesting.  It is accepted, as the same program lines aside, just where the ceiling is as high as the
levels of the program; and those are no more than the first ceiling and some for each loop. -/
theorem ofText_source (hfinite : hasFiniteNumbers p) :
    (∀ ceiling',
      ((∃ q, ofText ceiling' (source p) = .ok q ∧ unlined q = unlined p) ↔ levels p ≤ ceiling') ∧
      (ceiling' < levels p → ∃ e es, ofText ceiling' (source p) = .error (e :: es) ∧
        e.message = "Too much nesting.")) ∧
    levels p ≤ ceiling + loopLevels (loopCount (scan text).tokens) := by
  refine ⟨fun ceiling' => ?_, levels_of_ofText hp⟩
  obtain ⟨hnormal, hspelled, -⟩ := Parser.program_ofText ceiling text
  rw [program_of_ofText hp] at hnormal hspelled
  obtain ⟨p', hlines, hnormal', hmissing', hlevels, hscan, hitems⟩ :=
    Parser.exists_scanned p hnormal (missingCount_of_ofText hp) hfinite hspelled
  have habove : ceiling' < levels p → ∃ e es, ofText ceiling' (source p) = .error (e :: es) ∧
      e.message = "Too much nesting." := by
    intro hlt
    obtain ⟨e, es, herrors, hmessage⟩ :=
      Parser.first_error_of_lt hnormal' hmissing' hitems (hlevels.symm ▸ hlt)
    obtain ⟨ss, us, ev, hgives, -⟩ := program_reads (Parser.ofText ceiling' (source p)).cursor
    have hev : errorsOf ev = e :: es := by
      rw [← herrors, show Grammar.program (Parser.ofTokens ceiling' _).cursor = _ from hgives]
    refine ⟨e, es, ?_, hmessage⟩
    rw [ofText_of_gives hgives, hscan, hev]
    rfl
  refine ⟨⟨?_, fun hle => ?_⟩, habove⟩
  · rintro ⟨q, hq, -⟩
    refine Nat.le_of_not_lt fun hlt => ?_
    obtain ⟨e, es, herror, -⟩ := habove hlt
    rw [hq] at herror
    cases herror
  · obtain ⟨ev, hclean, hgives⟩ :=
      Parser.gives_of_levels_le hnormal' hmissing' hitems (hlevels ▸ hle)
    have hrun : Grammar.program.Gives (Parser.ofText ceiling' (source p)).cursor p' _ ev := hgives
    refine ⟨p', ?_, hlines⟩
    rw [ofText_of_gives hrun, hscan, errorsOf_eq_nil.2 hclean]
    rfl

end Source

/-- A loop that just meets a ceiling of four. -/
def loopText : String :=
  "for (;;a) b;"

/-- Its tree. -/
def loopTree : Program :=
  [.loop (.bool true) (.block [.expression (.variable ⟨.identifier, "b", 1, none⟩),
    .expression (.variable ⟨.identifier, "a", 1, none⟩)])]

theorem ofText_loopText : ofText 4 loopText = .ok loopTree := by
  have hclean : (Parser.ofText 4 loopText).program.2.report.errors.isEmpty = true := by
    decide +kernel
  have htree : (Parser.ofText 4 loopText).program.1 = loopTree := by decide +kernel
  rw [ofText_eq, if_pos hclean, htree]

/-- Under its own ceiling the loop is a program, and its program text is not. -/
theorem loopText_refused :
    ofText 4 loopText = .ok loopTree ∧ hasFiniteNumbers loopTree ∧
      ∀ q, ofText 4 (source loopTree) ≠ .ok q := by
  have herrors : (Parser.ofText 4 (source loopTree)).program.2.report.errors =
      [⟨2, "at 'b'", "Too much nesting."⟩, ⟨3, "at 'a'", "Too much nesting."⟩] := by
    decide +kernel
  refine ⟨ofText_loopText, by decide +kernel, fun q hq => ?_⟩
  rw [ofText_eq, herrors] at hq
  cases hq

/-- One level more is enough for it. -/
theorem loopText_source :
    ofText 4 loopText = .ok loopTree ∧ hasFiniteNumbers loopTree ∧
      (∃ q, ofText 5 (source loopTree) = .ok q ∧ unlined q = unlined loopTree) ∧
      levels loopTree ≤ 4 + loopLevels (loopCount (scan loopText).tokens) := by
  have hfinite : hasFiniteNumbers loopTree = true := by decide +kernel
  obtain ⟨hceilings, hbound⟩ := ofText_source ofText_loopText hfinite
  exact ⟨ofText_loopText, hfinite, (hceilings 5).1.2 (by decide +kernel), hbound⟩

end Program

end LoxSyntax
