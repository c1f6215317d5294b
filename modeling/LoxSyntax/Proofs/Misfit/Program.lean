import LoxSyntax.Proofs.Misfit.Foresight
import LoxSyntax.Proofs.Misfit.Statement
import LoxSyntax.Proofs.Sentence.Program

/-!
# The first token that does not fit

The first error of a program that ends a rule is blamed on the first token with which the text is
not the beginning of a program any more, unless it tells of nesting or of a literal without its
value.  All before that token is the beginning of a program; and all that begins with the same
tokens, that one included, has the same errors up to there.

* `SyntaxError.isSemantic` — the errors that leave the structure of the text alone.
* `Parser.diagnosed` — what a parser finds wrong in the rest of its program.
* `Grammar.program_viable`, `Grammar.program_foresees` — both parts, for a run of the grammar.
* **`Parser.viable_prefix`** — both, for the errors of a parser.
-/

namespace LoxSyntax

/-! ## Errors by their message -/

/-- Whether an error leaves the structure of the text alone; all others end what is being read. -/
def SyntaxError.isSemantic (e : SyntaxError) : Bool :=
  e.message == "Invalid assignment target." || e.message == "Missing left-hand operand."

/-- The message tells whether a problem ends a rule. -/
theorem Problem.isStructural_eq (problem : Problem) :
    problem.isStructural = !(problem.message == "Invalid assignment target." ||
      problem.message == "Missing left-hand operand.") := by
  cases problem with
  | expected landmark => cases landmark <;> decide
  | _ => decide

namespace Diagnostic

theorem isSemantic_error (d : Diagnostic) : d.error.isSemantic = !d.problem.isStructural := by
  rw [Problem.isStructural_eq, Bool.not_not]
  rfl

theorem isMisfit_of_error {d : Diagnostic} (hstructural : d.error.isSemantic = false)
    (hnesting : d.error.message ≠ "Too much nesting.")
    (hliteral : d.error.message ≠ "Expected literal value.") : d.problem.isMisfit := by
  rcases d with ⟨problem, p⟩
  rw [isSemantic_error, Bool.not_eq_false'] at hstructural
  refine Problem.isMisfit_iff.2 ⟨hstructural, ?_, ?_⟩
  · rintro rfl
    exact hnesting rfl
  · rintro rfl
    exact hliteral rfl

end Diagnostic

/-- Nothing that ends a rule is diagnosed where all errors are semantic. -/
theorem unbroken_iff_isSemantic {ev : List Event} :
    Unbroken ev ↔ ∀ e ∈ errorsOf ev, e.isSemantic := by
  simp [forall_mem_errorsOf, Diagnostic.isSemantic_error, Unbroken]

/-! ## Runs of a program -/

namespace Grammar

open Rule

variable {c c' : Cursor} {d : Diagnostic}

/-- What has been read of a program that breaks off is the beginning of a program without a problem
that ends a rule. -/
theorem program_viable (h : program.Breaks c d) :
    ∃ used more, c.unread = used ++ d.place.unread ∧ .eof ∉ more ∧
      ∀ c' : Cursor, c.room + 3 ≤ c'.room → c'.unread = used ++ samples more →
        Unbroken (program c').events := by
  rw [Breaks, program_eq] at h
  obtain ⟨used, more, hused, hmore, -, hcompletes⟩ :=
    declarationsOf_viable (atRoom_follows c.room .expression) (statementAt_reads c.room)
      (atRoom_viable c.room .expression) (statementAt_viable c.room)
      (atRoom_widens (Nat.le_refl c.room) .expression) (statementAt_widens (Nat.le_refl c.room))
      rfl c.unread rfl h
  refine ⟨used, more, hused, hmore, fun c' hroom hunread => ?_⟩
  have hend : nextKind [] = .eof ∨ nextKind [] = .eof := .inl rfl
  obtain ⟨ss, ev, hev, hreads⟩ := hcompletes c'.endLine hroom hend
  rw [List.append_nil, ← hunread] at hreads
  rw [hreads.gives_program hev]
  exact hev

/-- What a program reports up to a misfit is reported by every program that begins with the tokens
up to there. -/
theorem program_foresees {before after : List Event} {used left right : List Token} {t : Token}
    (hevents : (program c).events = before ++ .diagnosed d :: after)
    (hmisfit : d.problem.isMisfit) (hplace : d.place.unread = t :: left)
    (hunread : c.unread = used ++ t :: left) (hunread' : c'.unread = used ++ t :: right)
    (hdepth : c'.depth = c.depth) (hceiling : c'.ceiling = c.ceiling) :
    errorsOf (before ++ [.diagnosed d]) <+: errorsOf (program c').events :=
  have htwin : Cursor.Twin ⟨t, left, right⟩ c c' := ⟨⟨used, hunread, hunread'⟩, hdepth, hceiling⟩
  (program_agrees htwin).errors_isPrefix hevents hmisfit hplace

end Grammar

/-! ## The errors of a parser -/

namespace Parser

/-- What is wrong in the rest of the program, and where. -/
def diagnosed (p : Parser) : List Diagnostic :=
  (Grammar.program p.cursor).events.filterMap Event.diagnostic?

/-- The errors that a program adds to the report. -/
theorem program_errors_eq (p : Parser) :
    p.program.2.report.errors = p.report.errors ++ p.diagnosed.map Diagnostic.error := rfl

/-- What is diagnosed of a program is diagnosed by an event. -/
theorem exists_events {p : Parser} {before after : List Diagnostic} {d : Diagnostic}
    (h : p.diagnosed = before ++ d :: after) :
    ∃ early late, (Grammar.program p.cursor).events = early ++ .diagnosed d :: late ∧
      early.filterMap Event.diagnostic? = before := by
  obtain ⟨early, rest, hevents, rfl, hrest⟩ := List.filterMap_eq_append_iff.1 h
  obtain ⟨quiet, event, late, rfl, hquiet, hevent, -⟩ := List.filterMap_eq_cons_iff.1 hrest
  refine ⟨early ++ quiet, late, ?_, ?_⟩
  · cases event with
    | diagnosed d' =>
      cases hevent
      rw [hevents, List.append_assoc]
    | _ => cases hevent
  · rw [List.filterMap_append, List.filterMap_eq_nil_iff.2 hquiet, List.append_nil]

section Tokens

variable (ceiling : Nat) {tokens : List Token} {k : Nat}

/-- What stands in front of the end of the text is read. -/
theorem unread_of_append {front : List Token} (h : ∀ t ∈ front, t.kind ≠ .eof)
    (rest : List Token) : (ofTokens ceiling (front ++ rest)).cursor.unread =
      front ++ rest.takeWhile (·.kind != .eof) :=
  (Place.unread_ofTokens _).trans (List.takeWhile_append_of_pos (by simpa using h))

/-- All tokens are read where the end of the text is not among them. -/
theorem unread_of_ne_eof (h : ∀ t ∈ tokens, t.kind ≠ .eof) :
    (ofTokens ceiling tokens).cursor.unread = tokens := by
  have hunread := unread_of_append ceiling h []
  rwa [List.takeWhile_nil, List.append_nil] at hunread

theorem take_text (h : k ≤ (tokens.takeWhile (·.kind != .eof)).length) :
    tokens.take k = (tokens.takeWhile (·.kind != .eof)).take k := by
  obtain ⟨rest, hrest⟩ := List.takeWhile_prefix (l := tokens) (·.kind != .eof)
  exact (congrArg (List.take k) hrest).symm.trans (List.take_append_of_le_length h)

theorem ne_eof_of_mem_take {t : Token} (h : t ∈ (tokens.takeWhile (·.kind != .eof)).take k) :
    t.kind ≠ .eof := by
  simpa using List.all_eq_true.1 List.all_takeWhile t (List.mem_of_mem_take h)

variable {ceiling} {d : Diagnostic}

/-- The tokens before a misfit, and a few others behind them, are a program without errors that end
a rule. -/
theorem exists_completion (h : Grammar.program.Breaks (ofTokens ceiling tokens).cursor d) :
    let text := tokens.takeWhile (·.kind != .eof)
    ∃ k ≤ text.length, d.place.unread = text.drop k ∧ ∃ more, ∀ ceiling' ≥ ceiling + 3,
      ∀ e ∈ (ofTokens ceiling' (tokens.take k ++ more)).program.2.report.errors, e.isSemantic := by
  intro text
  obtain ⟨used, more, hunread, hmore, hcompletes⟩ := Grammar.program_viable h
  have htext : text = used ++ d.place.unread := (Place.unread_ofTokens tokens).symm.trans hunread
  have hk : used.length ≤ text.length := by simp [htext]
  refine ⟨used.length, hk, by simp [htext], samples more, fun ceiling' hceiling => ?_⟩
  have htake : text.take used.length = used := by simp [htext]
  have hread : ∀ t ∈ used ++ samples more, t.kind ≠ .eof := by
    intro t ht
    rcases List.mem_append.1 ht with ht | ht
    · rw [← htake] at ht
      exact ne_eof_of_mem_take ht
    · obtain ⟨kind, hkind, rfl⟩ := List.mem_map.1 ht
      rintro rfl
      exact hmore hkind
  have hunread' := unread_of_append ceiling' hread []
  rw [take_text hk, htake, ← List.append_nil (used ++ samples more)]
  exact unbroken_iff_isSemantic.1 (hcompletes _ hceiling (hunread'.trans (List.append_nil _)))

/-- All that begins with the tokens up to a misfit is read alike up to there. -/
theorem errorsOf_prefix_of_take {before after : List Event}
    (hevents : (Grammar.program (ofTokens ceiling tokens).cursor).events =
      before ++ .diagnosed d :: after)
    (hmisfit : d.problem.isMisfit)
    (hplace : d.place.unread = (tokens.takeWhile (·.kind != .eof)).drop k)
    (hk : k < (tokens.takeWhile (·.kind != .eof)).length) {tokens' : List Token}
    (htokens : tokens.take (k + 1) <+: tokens') :
    errorsOf (before ++ [.diagnosed d]) <+:
      errorsOf (Grammar.program (ofTokens ceiling tokens').cursor).events := by
  have hunread := Place.unread_ofTokens tokens
  have hread : ∀ t ∈ (tokens.takeWhile (·.kind != .eof)).take (k + 1), t.kind ≠ .eof :=
    fun _ => ne_eof_of_mem_take
  rw [take_text hk] at htokens
  generalize tokens.takeWhile (·.kind != .eof) = text at *
  obtain ⟨right, rfl⟩ := htokens
  rw [← List.take_append_drop k text, List.drop_eq_getElem_cons hk] at hunread
  have hunread' : (ofTokens ceiling (text.take (k + 1) ++ right)).cursor.unread =
      text.take k ++ text[k] :: right.takeWhile (·.kind != .eof) := by
    rw [unread_of_append ceiling hread, List.take_succ_eq_append_getElem hk, List.append_assoc,
      List.singleton_append]
  exact Grammar.program_foresees hevents hmisfit (hplace.trans (List.drop_eq_getElem_cons hk))
    hunread hunread' rfl rfl

end Tokens

/-- The first error of a program that ends a rule, unless it tells of nesting or of a literal, is
blamed on a token of the text, or on its end.  With other tokens in its place the tokens before it
are a program without such errors, wherever the ceiling is high enough; and all that begins with the
same tokens, that one included, has the same errors up to there. -/
theorem viable_prefix (ceiling : Nat) (tokens : List Token) {before after : List Diagnostic}
    {d : Diagnostic} (hrun : (ofTokens ceiling tokens).diagnosed = before ++ d :: after)
    (hbefore : ∀ b ∈ before, b.error.isSemantic) (hstructural : d.error.isSemantic = false)
    (hnesting : d.error.message ≠ "Too much nesting.")
    (hliteral : d.error.message ≠ "Expected literal value.") :
    let text := tokens.takeWhile (·.kind != .eof)
    ∃ k ≤ text.length, d.place.unread = text.drop k ∧
      (∃ more, ∀ ceiling' ≥ ceiling + 3,
        ∀ e ∈ (ofTokens ceiling' (tokens.take k ++ more)).program.2.report.errors, e.isSemantic) ∧
      (k < text.length → ∀ tokens', tokens.take (k + 1) <+: tokens' →
        (before ++ [d]).map Diagnostic.error <+:
          (ofTokens ceiling tokens').program.2.report.errors) := by
  intro text
  obtain ⟨early, late, hevents, rfl⟩ := exists_events hrun
  have hmisfit := Diagnostic.isMisfit_of_error hstructural hnesting hliteral
  have hunbroken : Unbroken early :=
    unbroken_iff_isSemantic.2 (List.forall_mem_map.2 hbefore)
  obtain ⟨k, hk, hplace, more, hcompletes⟩ :=
    exists_completion ⟨early, late, hevents, hunbroken, hmisfit⟩
  refine ⟨k, hk, hplace, ⟨more, hcompletes⟩, fun hlt tokens' htokens => ?_⟩
  have hsame := errorsOf_prefix_of_take hevents hmisfit hplace hlt htokens
  rw [errorsOf_append, errorsOf, errorsOf, ← List.map_append] at hsame
  rw [program_errors_eq]
  exact hsame

end Parser

/-- The tokens of `(x) = y );` and, on the next line, `print;`. -/
def strayTokens : List Token :=
  [⟨.leftParen, "(", 1, none⟩, ⟨.identifier, "x", 1, none⟩, ⟨.rightParen, ")", 1, none⟩,
    ⟨.equal, "=", 1, none⟩, ⟨.identifier, "y", 1, none⟩, ⟨.rightParen, ")", 1, none⟩,
    ⟨.semicolon, ";", 1, none⟩, ⟨.printWord, "print", 2, none⟩, ⟨.semicolon, ";", 2, none⟩]

/-- The last parenthesis is the first token that does not fit.  The assignment before it is wrong,
but a program can begin like that. -/
theorem strayTokens_viable :
    (∃ more, ∀ ceiling ≥ 11,
      ∀ e ∈ (Parser.ofTokens ceiling (strayTokens.take 5 ++ more)).program.2.report.errors,
        e.isSemantic) ∧
    ∀ tokens, strayTokens.take 6 <+: tokens →
      [⟨1, "at '='", "Invalid assignment target."⟩, ⟨1, "at ')'", "Expected ';' after value."⟩] <+:
        (Parser.ofTokens 8 tokens).program.2.report.errors := by
  have hrun : (Parser.ofTokens 8 strayTokens).diagnosed =
      [⟨.invalidAssignmentTarget, strayTokens.drop 3, 2⟩] ++
        ⟨.expected .valueEnd, strayTokens.drop 5, 2⟩ ::
        [⟨.expectedExpression, strayTokens.drop 8, 2⟩] := by
    decide +kernel
  obtain ⟨k, hk, hplace, hcompletes, hsame⟩ :=
    Parser.viable_prefix 8 strayTokens hrun (by decide) (by decide) (by decide) (by decide)
  obtain rfl : k = 5 := by
    have hlen := congrArg List.length hplace
    have hend : (strayTokens.takeWhile (·.kind != .eof)).length = 9 := by decide
    simp only [List.length_drop, hend] at hlen hk
    change 4 = 9 - k at hlen
    omega
  exact ⟨hcompletes, fun tokens htokens => hsame (by decide) tokens htokens⟩

end LoxSyntax
