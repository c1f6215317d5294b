import LoxSyntax.Proofs.Reading.Tails
import LoxSyntax.Proofs.Session.Outcome
import LoxSyntax.Proofs.Token.Seam
import LoxSyntax.Tree.Agreement

/-!
# Programs one after the other

Two texts that are programs, the second one on the lines behind the first, are one program: the
statements of the first, then those of the second on later lines.  An `if` at the end of the first
text looks for an `else` at the beginning of the second one, but no program begins with an `else`.

* `Stmt.Reads.nextKind_ne_else` — what is read begins with something else.
* **`Program.ofText_append`** — the program that two texts are.
-/

namespace LoxSyntax

/-! ## The first token -/

section First

variable {endLine : UInt32} {m : Nat} {ts us : List Token} {ev : List Event}

theorem Expr.Reads.nextKind_ne_else {scope : Scope} {e : Expr}
    (h : Expr.Reads endLine m scope ts e us ev) : nextKind ts ≠ .elseWord := by
  induction h with
  | operand _ _ ih | join _ _ _ ih | close _ _ _ ih | unassigned _ _ ih | assign _ _ _ ih
  | invalidTarget _ _ _ _ ih | unbranched _ _ ih | conditional _ _ _ _ _ ih | bare _ _ ih
  | opened _ ih => exact ih
  | unary hop =>
    intro helse
    rw [nextKind_cons] at helse
    rw [helse] at hop
    cases hop
  | missing hop =>
    intro helse
    rw [nextKind_cons] at helse
    rw [helse] at hop
    cases hop
  | no ht | yes ht | nil ht | number ht | string ht | name ht | group ht => simp [ht]

/-- No statement begins with an `else` that nothing is reported of. -/
theorem Stmt.Reads.nextKind_ne_else {scope : Stmt.Scope} {ss : List Stmt}
    (h : Stmt.Reads endLine m scope ts ss us ev) (hev : Unbroken ev)
    (hscope : scope ≠ .declarations .elseWord) : nextKind ts ≠ .elseWord := by
  induction h with
  | opened _ ih => exact ih hev (by simp)
  | expression _ value =>
    obtain ⟨_, hreads, -⟩ := value
    exact hreads.nextKind_ne_else
  | print hword | block hword | ifThen hword | ifElse hword | loop hword | forLoop hword
  | declared hword => simp [hword]
  | stated _ _ ih => exact ih hev.tail (by simp)
  | skipped _ _ reported =>
    obtain ⟨d, hd, hmem⟩ := reported
    rw [hev d hmem] at hd
    cases hd
  | @done m last ts stop =>
    rcases stop with h | h
    · simp [h]
    · rintro helse
      exact hscope (by rw [← h, helse])
  | next _ _ _ ih => exact ih (unbroken_append.1 hev).1 (by simp)

end First

/-! ## Two programs -/

namespace Program

/-- A text that is a program, a newline, and another text that is one: together they are the first
program and the second one, its lines moved down by those of the first text. -/
theorem ofText_append {ceiling : Nat} {a b : String} {p q : Program}
    (hp : ofText ceiling a = .ok p) (hq : ofText ceiling b = .ok q) :
    ofText ceiling (a ++ "\n" ++ b) =
      .ok (p ++ relined (· + UInt32.ofNat (1 + newlines a.toList)) q) := by
  obtain ⟨hscanA, evA, hcleanA, hreadsA⟩ := ofText_eq_ok_iff.1 hp
  obtain ⟨hscanB, evB, hcleanB, hreadsB⟩ := ofText_eq_ok_iff.1 hq
  obtain ⟨herrors, htokens⟩ := scan_append hscanA hscanB
  refine ofText_eq_ok_iff.2 ⟨herrors, ?_⟩
  rw [htokens]
  generalize (fun line : UInt32 => line + UInt32.ofNat (1 + newlines a.toList)) = f
  -- the second program on its new lines, and at the end of the whole text
  have hmoved := hreadsB.relined f
  have hclean := clean_relined f hcleanB
  have hunbroken := unbroken_of_clean hclean
  have helse := hmoved.nextKind_ne_else hunbroken (by simp)
  obtain ⟨used, ev', hused, hev', hrest⟩ := hmoved.retail hunbroken
    (Place.ofTokens (scan (a ++ "\n" ++ b)).tokens).endLine (Nat.le_refl ceiling) []
    ⟨.inl rfl, by simp⟩
  rw [List.map_nil, List.append_nil] at hused
  rw [List.append_nil, ← hused] at hrest
  obtain ⟨ev₁, hev₁, hwhole⟩ :=
    hreadsA.append (unbroken_of_clean hcleanA) (Nat.le_refl ceiling) hrest helse
  refine ⟨ev₁ ++ ev', problemsOf_eq_nil.1 ?_, hwhole⟩
  rw [problemsOf_append, hev₁, hev', problemsOf_eq_nil.2 hcleanA, problemsOf_eq_nil.2 hclean,
    List.append_nil]

/-- An `if` without `else`. -/
def openIf : Program :=
  [.ifThen (.variable ⟨.identifier, "a", 1, none⟩)
    (.expression (.variable ⟨.identifier, "b", 1, none⟩))]

/-- A statement on the second line of its text. -/
def lowPrint : Program :=
  [.print (.variable ⟨.identifier, "d", 2, none⟩)]

theorem ofText_append_lowPrint :
    ofText 4 "if (a) b; // c" = .ok openIf ∧ ofText 4 "print\nd;" = .ok lowPrint ∧
      ofText 4 ("if (a) b; // c" ++ "\n" ++ "print\nd;") =
        .ok (openIf ++ relined (· + UInt32.ofNat (1 + newlines "if (a) b; // c".toList))
          lowPrint) := by
  have hfirst : ofText 4 "if (a) b; // c" = .ok openIf := by
    rw [ofText_eq, if_pos (by decide +kernel)]
    exact congrArg Except.ok (by decide +kernel)
  have hsecond : ofText 4 "print\nd;" = .ok lowPrint := by
    rw [ofText_eq, if_pos (by decide +kernel)]
    exact congrArg Except.ok (by decide +kernel)
  exact ⟨hfirst, hsecond, ofText_append hfirst hsecond⟩

end Program

end LoxSyntax
