import LoxSyntax.Proofs.Layout.Trees
import LoxSyntax.Session.Outcome

/-!
# Programs are rendered statement by statement

In both forms a program is printed as a line or several for each statement, whatever stands before
and behind: no statement ends in white space, so only the newlines between statements and at the end
can be cut, and one is put back.  Lines of tokens do not show.

* `Options.row` — the text of one statement.
* `EndsVisibly` — texts that nothing is cut from.
* **`Options.asLines_render`** — a program is printed as its statements, a newline behind each.
-/

namespace LoxSyntax

/-- A statement in the form that is asked for. -/
def Options.row (options : Options) (s : Stmt) : String :=
  if options.asSource then s.source 0 else s.sexpr

/-! ## The end of a text -/

/-- The text ends in something else than white space. -/
def EndsVisibly (text : String) : Prop :=
  ∃ c, text.toList.getLast? = some c ∧ isWhiteSpace c = false

/-- A newline at the end is cut. -/
theorem trimEnd_newline (text : String) : trimEnd (text ++ "\n") = trimEnd text := by
  have hnewline : isWhiteSpace '\n' = true := by decide
  simp [trimEnd, hnewline]

namespace EndsVisibly

variable {text : String}

theorem append (h : EndsVisibly text) (front : String) : EndsVisibly (front ++ text) := by
  obtain ⟨c, hlast, hc⟩ := h
  refine ⟨c, ?_, hc⟩
  rw [String.toList_append, List.getLast?_append, hlast]
  rfl

/-- A text is made a line by a newline. -/
theorem asLines (h : EndsVisibly text) : asLines text = text ++ "\n" := by
  obtain ⟨c, hlast, hc⟩ := h
  have hne : text ≠ "" := by
    rintro rfl
    cases hlast
  simp [LoxSyntax.asLines, trimEnd_of_getLast hlast hc, hne]

/-- A newline that is there already makes no difference. -/
theorem asLines_newline (h : EndsVisibly text) :
    LoxSyntax.asLines (text ++ "\n") = text ++ "\n" := by
  rw [LoxSyntax.asLines, trimEnd_newline]
  exact h.asLines

end EndsVisibly

/-! ## Statements -/

theorem Stmt.sexpr_endsVisibly (s : Stmt) : EndsVisibly s.sexpr := by
  have hclosed : EndsVisibly ")" := ⟨')', rfl, by decide⟩
  cases s with
  | declare name initial => cases initial <;> exact hclosed.append _
  | _ => exact hclosed.append _

theorem Stmt.source_endsVisibly (depth : Nat) (s : Stmt) : EndsVisibly (s.source depth) := by
  have hended : EndsVisibly ";" := ⟨';', rfl, by decide⟩
  have hclosed : EndsVisibly "\x7d" := ⟨'\x7d', rfl, by decide⟩
  cases s with
  | expression | print => exact hended.append _
  | declare name initial => cases initial <;> exact hended.append _
  | block body =>
    cases body with
    | nil => exact hclosed.append "\x7b"
    | cons => exact hclosed.append _
  | ifThen _ yes => exact (Stmt.source_endsVisibly depth yes).append _
  | ifElse _ _ no => exact (Stmt.source_endsVisibly depth no).append _
  | loop _ body => exact (Stmt.source_endsVisibly depth body).append _

theorem Options.row_endsVisibly (options : Options) (s : Stmt) : EndsVisibly (options.row s) := by
  unfold row
  split
  · exact s.source_endsVisibly 0
  · exact s.sexpr_endsVisibly

/-! ## Programs -/

/-- Texts between newlines, and a newline behind the last of them. -/
theorem intercalate_newline {rows : List String} (hne : rows ≠ []) :
    "\n".intercalate rows ++ "\n" = String.join (rows.map (· ++ "\n")) := by
  induction rows with
  | nil => exact absurd rfl hne
  | cons row rows ih =>
    cases rows with
    | nil => simp
    | cons row' rows =>
      rw [String.intercalate_cons_cons, String.append_assoc, ih (List.cons_ne_nil _ _),
        ← String.join_cons]
      rfl

theorem intercalate_endsVisibly {rows : List String} (hne : rows ≠ [])
    (h : ∀ row ∈ rows, EndsVisibly row) : EndsVisibly ("\n".intercalate rows) := by
  induction rows with
  | nil => exact absurd rfl hne
  | cons row rows ih =>
    cases rows with
    | nil => simpa using h
    | cons row' rows =>
      rw [String.intercalate_cons_cons]
      exact (ih (by simp) fun r hr => h r (List.mem_cons_of_mem _ hr)).append _

namespace Options

variable (options : Options)

/-- A program is printed as its statements, a newline behind each. -/
theorem asLines_render (p : Program) :
    asLines (options.render p) = String.join (p.map fun s => options.row s ++ "\n") := by
  by_cases hp : p = []
  · subst hp
    unfold render
    split <;> rfl
  have hrows : p.map options.row ≠ [] := by simpa using hp
  have hends := intercalate_endsVisibly hrows (by
    simp only [List.forall_mem_map]
    exact fun s _ => options.row_endsVisibly s)
  have hjoin := intercalate_newline hrows
  rw [List.map_map] at hjoin
  by_cases hform : options.asSource
  · have hsource : options.render p = String.join (p.map fun s => options.row s ++ "\n") := by
      simp [render, row, hform, Program.source]
    have hwhole := hends.asLines_newline
    rw [hjoin] at hwhole
    rw [hsource]
    exact hwhole
  · have hrow : options.row = Stmt.sexpr := by
      funext s
      rw [row, if_neg hform]
    have hsexpr : options.render p = "\n".intercalate (p.map options.row) := by
      rw [render, if_neg hform, hrow]
      rfl
    rw [hsexpr, hends.asLines]
    exact hjoin

theorem asLines_render_append (p q : Program) :
    asLines (options.render (p ++ q)) =
      asLines (options.render p) ++ asLines (options.render q) := by
  rw [asLines_render, asLines_render, asLines_render, List.map_append, String.join_append]

end Options

/-! ## Lines of tokens -/

section Relined

variable (f : UInt32 → UInt32)

theorem Expr.unlined_relined (e : Expr) : (e.relined f).unlined = e.unlined := by
  induction e <;> simp_all [relined, unlined, Token.relined, Token.unlined]

mutual

theorem Stmt.unlined_relined (s : Stmt) : (s.relined f).unlined = s.unlined := by
  match s with
  | .expression e | .print e => simp only [Stmt.relined, Stmt.unlined, e.unlined_relined]
  | .declare _ none => rfl
  | .declare _ (some initial) =>
    simp only [Stmt.relined, Stmt.unlined, initial.unlined_relined, Token.relined, Token.unlined]
  | .block body => simp only [Stmt.relined, Stmt.unlined, Program.unlined_relined body]
  | .ifThen condition yes =>
    simp only [Stmt.relined, Stmt.unlined, condition.unlined_relined, Stmt.unlined_relined yes]
  | .ifElse condition yes no =>
    simp only [Stmt.relined, Stmt.unlined, condition.unlined_relined, Stmt.unlined_relined yes,
      Stmt.unlined_relined no]
  | .loop condition body =>
    simp only [Stmt.relined, Stmt.unlined, condition.unlined_relined, Stmt.unlined_relined body]

theorem Program.unlined_relined (p : Program) :
    Program.unlined (Program.relined f p) = Program.unlined p := by
  match p with
  | [] => rfl
  | s :: ss =>
    simp only [Program.relined, Program.unlined, Stmt.unlined_relined s,
      Program.unlined_relined ss]

end

/-- A program on other lines is printed as it is. -/
theorem Options.render_relined (options : Options) (p : Program) :
    options.render (Program.relined f p) = options.render p := by
  unfold render
  split
  · rw [← Program.source_unlined, Program.unlined_relined, Program.source_unlined]
  · rw [← Program.sexpr_unlined, Program.unlined_relined, Program.sexpr_unlined]

end Relined

end LoxSyntax
