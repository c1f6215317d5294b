import LoxSyntax.Command.Console
import LoxSyntax.Proofs.Blame.Program
import LoxSyntax.Proofs.Source.Lines
import LoxSyntax.Proofs.Source.Rendering
import LoxSyntax.Proofs.Token.Line

/-!
# The prompt and a file

At the prompt each line is processed by itself, so its errors are numbered as if there were no lines
in front of it.  If no line has errors, a file with the same lines has none either, and what is
printed of it is what the prompt prints without its marks.

* `line_of_mem_errors` — the lines that the errors of a single line are on.
* `Program.ofText_of_process`, `process_of_ofText` — texts without errors.
* `LinesOf.process_eq` — a text whose lines have no errors.
* **`runPrompt_lines`** — the prompt, and a file.
-/

namespace LoxSyntax

/-! ## A single line -/

/-- All pieces of a line begin on it. -/
theorem line_of_mem_located {line : UInt32} {ps : List Piece} (hne : ∀ p ∈ ps, p.text ≠ [])
    (hline : '\n' ∉ (ps.map Piece.text).flatten.dropLast) : ∀ q ∈ located line ps, q.2 = line := by
  induction ps with
  | nil => simp [located]
  | cons p ps ih =>
    intro q hq
    rw [located] at hq
    obtain rfl | hq := List.mem_cons.1 hq
    · rfl
    obtain ⟨hp, hps⟩ := List.forall_mem_cons.1 hne
    -- a newline in this piece would not be the last character, as there are more pieces
    have hrest : (ps.map Piece.text).flatten ≠ [] := by
      cases ps with
      | nil => exact absurd hq List.not_mem_nil
      | cons p' ps => simp [hps p' List.mem_cons_self]
    rw [List.map_cons, List.flatten_cons, List.dropLast_append_of_ne_nil hrest, List.mem_append,
      not_or] at hline
    have hstays : lineAfter line p.text = line := by
      rw [lineAfter, newlines, List.count_eq_zero.2 hline.1]
      exact UInt32.add_zero line
    rw [hstays] at hq
    exact ih hps hline.2 q hq

/-- A line has one newline at most. -/
theorem newlines_le_one {text : List Char} (h : '\n' ∉ text.dropLast) : newlines text ≤ 1 := by
  cases text.eq_nil_or_concat with
  | inl hnil => simp [hnil, newlines]
  | inr hconcat =>
    obtain ⟨front, c, rfl⟩ := hconcat
    rw [List.concat_eq_append, List.dropLast_concat] at h
    rw [newlines, List.concat_eq_append, List.count_append, List.count_eq_zero.2 h, Nat.zero_add]
    exact List.count_le_length

section Line

variable {text : String} (h : '\n' ∉ text.toList.dropLast)

include h

theorem line_of_mem_pieces : ∀ q ∈ located 1 (pieces text.toList), q.2 = 1 := by
  refine line_of_mem_located (fun p hp => ?_) (by rwa [pieces_flatten])
  obtain ⟨rest, hmunch⟩ := (split_pieces text.toList).munch_of_mem hp
  exact hmunch.text_ne_nil

/-- The tokens of a line are on it, but its end may be on the next one. -/
theorem line_of_mem_scan : ∀ t ∈ (scan text).tokens,
    t.line = 1 ∨ t.context = "at end" ∧ t.line = 2 := by
  intro t ht
  rcases List.mem_append.1 ht with ht | ht
  · obtain ⟨q, hq, htoken⟩ := List.mem_filterMap.1 ht
    exact .inl ((Piece.line_of_token? htoken).trans (line_of_mem_pieces h q hq))
  · obtain rfl := List.mem_singleton.1 ht
    have hle := newlines_le_one h
    obtain hnone | hone : newlines text.toList = 0 ∨ newlines text.toList = 1 := by omega
    · exact .inl (by simp [Token.eof, lineAfter, hnone])
    · exact .inr ⟨rfl, by simp [Token.eof, lineAfter, hone]⟩

/-- The errors of a line are on it, unless its end is blamed. -/
theorem line_of_mem_errors (options : Options) : ∀ e ∈ (process options text).errors,
    e.line = 1 ∨ e.context = "at end" ∧ e.line = 2 := by
  have herrors : (process options text).errors = (scan text).errors ++
      errorsOf (Grammar.program (Parser.ofText options.ceiling text).cursor).events :=
    Parser.program_errors (Parser.ofText options.ceiling text)
  have hcompleted : completed (scan text).tokens = (scan text).tokens :=
    completed_of_getLast? List.getLast?_concat rfl
  rw [herrors]
  refine List.forall_mem_append.2 ⟨fun e he => ?_, forall_mem_errorsOf.2 fun d hd => ?_⟩
  · obtain ⟨q, hq, herror⟩ := List.mem_filterMap.1 he
    exact .inl ((Piece.line_of_error? herror).trans (line_of_mem_pieces h q hq))
  · obtain ⟨hline, hplace, -⟩ :=
      (Grammar.program_blames (Parser.ofText options.ceiling text).cursor).placed d
        (List.mem_filterMap.2 ⟨_, hd, rfl⟩)
    obtain ⟨t, ht, hline, hcontext⟩ := Diagnostic.exists_getElem? hline
      (hplace.trans (Place.unread_ofTokens (scan text).tokens ▸ List.suffix_refl _))
    rw [hcompleted] at ht
    rw [hline, hcontext]
    exact line_of_mem_scan h t (List.mem_of_getElem? ht)

end Line

/-! ## Texts without errors -/

section Clean

variable {options : Options} {text : String}

theorem process_eq (options : Options) (text : String) :
    process options text =
      { output := (if options.tokens then dump (scan text).tokens else "") ++
          if (Parser.ofText options.ceiling text).program.2.report.errors.isEmpty
          then asLines (options.render (Parser.ofText options.ceiling text).program.1) else ""
        errors := (Parser.ofText options.ceiling text).program.2.report.errors } := rfl

theorem Program.ofText_of_process (h : (process options text).errors = []) :
    ∃ p, Program.ofText options.ceiling text = .ok p := by
  rw [process_eq] at h
  exact ⟨_, by rw [Program.ofText_eq, if_pos (List.isEmpty_iff.2 h)]⟩

theorem process_of_ofText {p : Program} (htokens : options.tokens = false)
    (h : Program.ofText options.ceiling text = .ok p) :
    process options text = ⟨asLines (options.render p), []⟩ := by
  rw [Program.ofText_eq] at h
  split at h
  · next hempty =>
    cases h
    rw [process_eq, if_pos hempty, List.isEmpty_iff.1 hempty, htokens, if_neg Bool.false_ne_true,
      String.empty_append]
  · cases h

end Clean

/-- If no line has errors then the text has none, and is printed as its lines are. -/
theorem LinesOf.process_eq {options : Options} (htokens : options.tokens = false)
    {text : List Char} {lines : List (List Char)} (h : LinesOf text lines)
    (hclean : ∀ line ∈ lines, (process options (String.ofList line)).errors = []) :
    process options (String.ofList text) =
      ⟨String.join (lines.map fun line => (process options (String.ofList line)).output), []⟩ := by
  induction h with
  | nil =>
    rw [String.ofList_nil, process_of_ofText htokens (Program.ofText_nil _),
      options.asLines_render]
    rfl
  | @last line _ _ =>
    obtain ⟨p, hp⟩ := Program.ofText_of_process (hclean line List.mem_cons_self)
    simp [process_of_ofText htokens hp]
  | @cons line rest lines hline hrest ih =>
    obtain ⟨hfirst, hmore⟩ := List.forall_mem_cons.1 hclean
    have hwhole := ih hmore
    obtain ⟨p, hp⟩ := Program.ofText_of_process hfirst
    obtain ⟨q, hq⟩ := Program.ofText_of_process (congrArg Outcome.errors hwhole)
    have hnewline : String.ofList (line ++ ['\n']) = String.ofList line ++ "\n" := by
      simp
    have htext : String.ofList (line ++ '\n' :: rest) =
        String.ofList line ++ "\n" ++ String.ofList rest := by
      simp [← String.toList_inj]
    have hboth := Program.ofText_line (hnewline ▸ hp) hq
    rw [← htext] at hboth
    rw [process_of_ofText htokens hboth, options.asLines_render_append, options.render_relined,
      List.map_cons, String.join_cons, process_of_ofText htokens hp]
    rw [process_of_ofText htokens hq] at hwhole
    obtain ⟨hrendered, -⟩ := Outcome.mk.inj hwhole
    rw [← hrendered]

/-! ## All lines -/

theorem fromUTF8?_toUTF8 (text : String) : String.fromUTF8? text.toUTF8 = some text := by
  rw [String.fromUTF8?, String.toUTF8_eq_toByteArray, dif_pos text.isValidUTF8]
  rfl

/-- The prompt prints a mark and the output of each line, in order, and the errors of each line, and
nothing that was wrong with a line makes a difference to the others or to the exit code.  If nothing
is wrong with any line and no tokens are asked for, then a file with these lines is printed as they
are, without the marks. -/
theorem runPrompt_lines (options : Options) (text : String) {lines : List (List Char)}
    (h : LinesOf text.toList lines) :
    let outcomes := lines.map fun line => process options (String.ofList line)
    runPrompt options text =
        { code := 0
          output := String.join (outcomes.map fun o => "> " ++ o.output) ++ "> \n"
          errors := String.join (outcomes.map fun o =>
            String.join (o.errors.map fun e => e.text ++ "\n")) } ∧
      (∀ o ∈ outcomes, ∀ e ∈ o.errors, e.line = 1 ∨ e.context = "at end" ∧ e.line = 2) ∧
      (options.tokens = false → (∀ o ∈ outcomes, o.errors = []) →
        process options text = ⟨String.join (outcomes.map (·.output)), []⟩ ∧
          runFile options text.toUTF8 =
            { code := 0, output := String.join (outcomes.map (·.output)), errors := "" }) := by
  intro outcomes
  refine ⟨?_, ?_, fun htokens hclean => ?_⟩
  · obtain rfl := linesOf_iff.1 h
    have hend : promptMark ++ promptEnd = "> \n" := rfl
    rw [runPrompt, String.append_assoc, hend]
    simp only [outcomes, List.map_map]
    rfl
  · simp only [outcomes, List.forall_mem_map]
    intro line hline
    refine line_of_mem_errors ?_ options
    rw [String.toList_ofList]
    exact h.newline_notMem line hline
  · have hwhole : process options text = ⟨String.join (outcomes.map (·.output)), []⟩ := by
      have hprocess := h.process_eq htokens (by simpa [outcomes] using hclean)
      rw [String.ofList_toList] at hprocess
      rw [hprocess, List.map_map]
      rfl
    refine ⟨hwhole, ?_⟩
    rw [runFile, fromUTF8?_toUTF8]
    dsimp only
    rw [hwhole]
    rfl

/-- Lines that hold an open `if`, nothing, a comment and a string that ends in spaces, the last of
them without its newline. -/
def typedText : String :=
  "if (a) b;\n\n// else\nprint \x22c  \x22;"

theorem runPrompt_typedText :
    let options : Options := { asSource := true, ceiling := 8 }
    LinesOf typedText.toList (splitLines typedText.toList) ∧
      runPrompt options typedText =
        { output := "> if (a) b;\n> > > print \x22c  \x22;\n> \n" } ∧
      runFile options typedText.toUTF8 = { output := "if (a) b;\nprint \x22c  \x22;\n" } := by
  intro options
  have hlines := linesOf_splitLines typedText.toList
  obtain ⟨hprompt, -, hfile⟩ := runPrompt_lines options typedText hlines
  refine ⟨hlines, ?_, ?_⟩
  · rw [hprompt]
    decide +kernel
  · rw [(hfile rfl (by decide +kernel)).2]
    decide +kernel

end LoxSyntax
