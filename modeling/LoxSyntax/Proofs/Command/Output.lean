import LoxSyntax.Proofs.Command.Prompt

/-!
# What is printed of a text

Processing a text and parsing it are two ways to the same end: a text has no errors where it is a
program, and otherwise the same ones.  What is printed is the tokens, if they are asked for, and the
program in the form that is asked for.  White space at the end of that is cut and a newline put
back, which leaves every program as it was rendered, for no rendering ends in white space of its
own: a string that does so has a quote behind it.

* `Program.trimEnd_sexpr`, `Program.trimEnd_source` — nothing but the last newline is cut.
* `Options.asLines_render_cons` — the lines of a program are the program as it is rendered.
* **`process_ofText`** — the errors and the output of a text.
-/

namespace LoxSyntax

/-! ## The end of a program -/

namespace Program

variable (s : Stmt) (ss : Program)

/-- S-expressions end in a parenthesis. -/
theorem sexpr_endsVisibly : EndsVisibly (sexpr (s :: ss)) :=
  intercalate_endsVisibly (List.cons_ne_nil _ _)
    (List.forall_mem_map.2 fun s _ => s.sexpr_endsVisibly)

/-- Program text ends in a semicolon or a brace, and a newline. -/
theorem exists_source_eq : ∃ rows, EndsVisibly rows ∧ source (s :: ss) = rows ++ "\n" := by
  have hne : (s :: ss).map (Stmt.source 0) ≠ [] := List.cons_ne_nil _ _
  refine ⟨"\n".intercalate ((s :: ss).map (Stmt.source 0)), ?_, ?_⟩
  · exact intercalate_endsVisibly hne (List.forall_mem_map.2 fun s _ => s.source_endsVisibly 0)
  · rw [intercalate_newline hne, List.map_map]
    rfl

theorem trimEnd_sexpr : trimEnd (sexpr (s :: ss)) = sexpr (s :: ss) := by
  obtain ⟨c, hlast, hc⟩ := sexpr_endsVisibly s ss
  exact trimEnd_of_getLast hlast hc

theorem trimEnd_source : trimEnd (source (s :: ss)) ++ "\n" = source (s :: ss) := by
  obtain ⟨rows, ⟨c, hlast, hc⟩, hrows⟩ := exists_source_eq s ss
  rw [hrows, trimEnd_newline, trimEnd_of_getLast hlast hc]

end Program

/-- The lines of a program are the program as it is rendered. -/
theorem Options.asLines_render_cons (options : Options) (s : Stmt) (ss : Program) :
    asLines (options.render (s :: ss)) =
      if options.asSource then Program.source (s :: ss) else Program.sexpr (s :: ss) ++ "\n" := by
  unfold render
  split
  · obtain ⟨rows, hvisible, hrows⟩ := Program.exists_source_eq s ss
    rw [hrows, hvisible.asLines_newline]
  · exact (Program.sexpr_endsVisibly s ss).asLines

/-! ## Errors and output -/

/-- A text without errors is a program, and any other has the errors that parsing it gives.  Its
output is the tokens, a line for each, if they are asked for, and nothing behind them if there were
errors or the program is empty.  Otherwise the program stands behind them as it is rendered, which
ends in one newline.  Whatever its strings hold, nothing but that newline is cut at its end. -/
theorem process_ofText (options : Options) (text : String) :
    let outcome := process options text
    let result := Program.ofText options.ceiling text
    (∃ p, result = if outcome.errors = [] then .ok p else .error outcome.errors) ∧
      outcome.output =
        (if options.tokens then String.join ((scan text).tokens.map fun t => t.text ++ "\n")
          else "") ++
          (match result with
            | .error _ | .ok [] => ""
            | .ok (s :: ss) =>
              if options.asSource then Program.source (s :: ss)
              else Program.sexpr (s :: ss) ++ "\n") ∧
      ∀ (s : Stmt) (ss : Program),
        trimEnd (Program.sexpr (s :: ss)) = Program.sexpr (s :: ss) ∧
          trimEnd (Program.source (s :: ss)) ++ "\n" = Program.source (s :: ss) := by
  intro outcome result
  have hresult : result = if outcome.errors = []
      then .ok (Parser.ofText options.ceiling text).program.1 else .error outcome.errors := by
    simp only [result, Program.ofText_eq, List.isEmpty_iff]
    rfl
  refine ⟨⟨_, hresult⟩, ?_, fun s ss => ⟨Program.trimEnd_sexpr s ss, Program.trimEnd_source s ss⟩⟩
  have houtput : outcome.output = (if options.tokens then dump (scan text).tokens else "") ++
      if outcome.errors = []
      then asLines (options.render (Parser.ofText options.ceiling text).program.1) else "" := by
    simp only [outcome, process_eq, List.isEmpty_iff]
  rw [houtput, hresult]
  congr 1
  by_cases hclean : outcome.errors = []
  · simp only [hclean, ↓reduceIte]
    cases (Parser.ofText options.ceiling text).program.1 with
    | nil =>
      rw [options.asLines_render]
      rfl
    | cons s ss => exact options.asLines_render_cons s ss
  · simp only [hclean, ↓reduceIte]

end LoxSyntax
