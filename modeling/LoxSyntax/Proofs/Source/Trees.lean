import LoxSyntax.Proofs.Source.Scans
import LoxSyntax.Proofs.Source.Writable
import LoxSyntax.Tree.SourceText

/-!
# The text of a tree scans as what it has kept

Program text puts a blank or a piece of punctuation between any two lexemes that could go on with
each other, so that the text of a tree that can be written, in front of any text that does not go on
with it, scans as what the tree has kept.

* `Expr.beginsApart_source` — no operator in front of an expression takes in its beginning.
* **`Expr.scans`**, **`Stmt.scans`** — the text of a tree in front of more text.
* **`Program.scans`** — the text of a program.
-/

namespace LoxSyntax

/-! ## Beginnings -/

/-- Whether a text begins with something that no operator in front of it takes in. -/
def beginsApart : List Char → Bool
  | [] => false
  | c :: _ => c != '=' && c != '/'

theorem beginsApart_append {w : List Char} (h : beginsApart w) (rest : List Char) :
    beginsApart (w ++ rest) := by
  cases w with
  | nil => cases h
  | cons c w => exact h

theorem startsApart_of_beginsApart {text : List Char} (h : beginsApart text) :
    startsApart text := by
  cases text with
  | nil => rfl
  | cons c text => exact h

theorem beginsApart_of_isWordPart {c : Char} (h : isWordPart c) (rest : List Char) :
    beginsApart (c :: rest) := by
  have hequal : c ≠ '=' := by
    rintro rfl
    exact absurd h (by decide)
  have hslash : c ≠ '/' := by
    rintro rfl
    exact absurd h (by decide)
  simp [beginsApart, hequal, hslash]

theorem Token.beginsApart_name {t : Token} (hspelled : t.isSpelled) (hkind : t.kind = .identifier) :
    beginsApart t.lexeme.toList := by
  obtain ⟨c, cs, hlexeme, hc, -⟩ := exists_word_of_isSpelled hspelled hkind
  rw [hlexeme]
  exact beginsApart_of_isWordPart (isWordPart_of_isWordStart hc) cs

/-- An operator of one operand can follow another. -/
theorem Token.beginsApart_unary {t : Token} (hspelled : t.isSpelled) (hkind : t.kind.isUnary) :
    beginsApart t.lexeme.toList := by
  have hspelling : t.kind.spelling ≠ [] ∧ beginsApart t.kind.spelling := by
    revert hkind
    cases t.kind <;> decide
  rw [(lexeme_of_isSpelled hspelled hspelling.1).1]
  exact hspelling.2

theorem Binary64.beginsApart_text {x : Binary64} (hfinite : x.isFinite)
    (h : x.isNegative = false) : beginsApart x.text.toList := by
  rw [text_of_isFinite hfinite h]
  obtain ⟨whole, hne, hwhole, htext⟩ := x.magnitude.text_eq
  have hbegins : beginsApart whole := by
    obtain ⟨c, cs, rfl⟩ := List.exists_cons_of_ne_nil hne
    exact beginsApart_of_isWordPart (isWordPart_of_isDigit (hwhole c (List.mem_cons_self ..))) cs
  rcases htext with htext | ⟨digits, -, -, htext⟩
  · rw [htext]
    exact hbegins
  · rw [htext]
    exact beginsApart_append hbegins _

/-- No operator in front of an expression takes in the beginning of its text. -/
theorem Expr.beginsApart_source {e : Expr} (h : e.isWritable) : beginsApart e.source.toList := by
  induction e with
  | string text => simp [source, beginsApart]
  | number value =>
    simp only [isWritable, Bool.and_eq_true, Literal.isSpelled, Bool.not_eq_true'] at h
    exact Binary64.beginsApart_text h.2 h.1
  | bool value => cases value <;> simp [source, beginsApart]
  | nil => simp [source, beginsApart]
  | missing => cases h
  | unary op arg _ =>
    simp only [isWritable, Bool.and_eq_true] at h
    rw [source, String.toList_append]
    exact beginsApart_append (Token.beginsApart_unary h.1.1 h.1.2) _
  | binary lhs op rhs ihl _ | logical lhs op rhs ihl _ =>
    simp only [isWritable, Bool.and_eq_true] at h
    simp only [source, String.toList_append, List.append_assoc]
    exact beginsApart_append (ihl h.1.1.1) _
  | conditional condition yes no ihc _ _ =>
    simp only [isWritable, Bool.and_eq_true] at h
    simp only [source, String.toList_append, List.append_assoc]
    exact beginsApart_append (ihc h.1.1) _
  | group inner => simp [source, beginsApart]
  | «variable» name =>
    simp only [isWritable, Bool.and_eq_true, beq_iff_eq] at h
    exact Token.beginsApart_name h.1 h.2
  | assign name value _ =>
    simp only [isWritable, Bool.and_eq_true, beq_iff_eq] at h
    simp only [source, String.toList_append, List.append_assoc]
    exact beginsApart_append (Token.beginsApart_name h.1.1 h.1.2) _

theorem Expr.startsApart_source {e : Expr} (h : e.isWritable) (rest : List Char) :
    startsApart (e.source.toList ++ rest) :=
  startsApart_of_beginsApart (beginsApart_append (beginsApart_source h) rest)

/-! ## Expressions -/

/-- An operator between two operands stands apart from both. -/
theorem Token.scans_between {op : Token} (hspelled : op.isSpelled)
    (hkind : op.kind.precedence?.isSome) {rest : List Char} {items : List Item}
    (h : Scans rest items) :
    Scans (op.between.toList ++ rest) (.token op :: items) ∧
      startsSeparate (op.between.toList ++ rest) := by
  have hkept : op.kind.isKept := by simp [TokenKind.isKept, hkind]
  have hoperator : Scans (op.lexeme.toList ++ ' ' :: rest) (.token op :: items) :=
    h.space.kept hspelled hkept rfl
  by_cases hcomma : op.kind = .comma
  · have hlexeme : op.lexeme.toList = [','] := by
      have hspelling : op.kind.spelling ≠ [] := by
        rw [hcomma]
        decide
      rw [(lexeme_of_isSpelled hspelled hspelling).1, hcomma]
      rfl
    simp only [between, hcomma, if_true, String.toList_append, List.append_assoc]
    exact ⟨hoperator, by simp [hlexeme, startsSeparate, isWordPart]⟩
  · simp only [between, hcomma, if_false, String.toList_append, List.append_assoc]
    exact ⟨hoperator.space, rfl⟩

/-- The text of an expression in front of more text. -/
theorem Expr.scans {e : Expr} (h : e.isWritable) {rest : List Char} {items : List Item}
    (hrest : startsSeparate rest) (hs : Scans rest items) :
    Scans (e.source.toList ++ rest) (e.items ++ items) := by
  induction e generalizing rest items with
  | string text =>
    simp only [source, String.toList_append]
    exact hs.string h
  | number value =>
    simp only [isWritable, Bool.and_eq_true] at h
    exact hs.number h.1 h.2 hrest
  | bool value =>
    cases value with
    | false => exact hs.mark (k := .falseWord) (by decide) rfl hrest
    | true => exact hs.mark (k := .trueWord) (by decide) rfl hrest
  | nil => exact hs.mark (k := .nilWord) (by decide) rfl hrest
  | missing => cases h
  | unary op arg ih =>
    simp only [isWritable, Bool.and_eq_true] at h
    simp only [source, String.toList_append, List.append_assoc]
    exact (ih h.2 hrest hs).unary h.1.1 h.1.2 (arg.startsApart_source h.2 _)
  | binary lhs op rhs ihl ihr | logical lhs op rhs ihl ihr =>
    simp only [isWritable, Bool.and_eq_true] at h
    obtain ⟨hop, hseparate⟩ := Token.scans_between h.1.1.2 h.1.2 (ihr h.2 hrest hs)
    simp only [source, Expr.items, String.toList_append, List.append_assoc, List.cons_append]
    exact ihl h.1.1.1 hseparate hop
  | conditional condition yes no ihc ihy ihn =>
    simp only [isWritable, Bool.and_eq_true] at h
    have hcolon := ((ihn h.2 hrest hs).space.mark (k := .colon) (by decide) rfl rfl).space
    have hquestion := ((ihy h.1.2 rfl hcolon).space.mark (k := .question) (by decide) rfl rfl).space
    simp only [source, Expr.items, String.toList_append, List.append_assoc, List.cons_append]
    exact ihc h.1.1 rfl hquestion
  | group inner ih =>
    have hinner := ih h rfl (hs.mark (k := .rightParen) (by decide) rfl hrest)
    simp only [source, Expr.items, String.toList_append, List.append_assoc, List.cons_append]
    exact hinner.symbol (k := .leftParen) (by decide) rfl (inner.startsApart_source h _)
  | «variable» name =>
    simp only [isWritable, Bool.and_eq_true, beq_iff_eq] at h
    exact hs.kept h.1 (by simp [TokenKind.isKept, h.2]) hrest
  | assign name value ih =>
    simp only [isWritable, Bool.and_eq_true, beq_iff_eq] at h
    have hequal := ((ih h.2 hrest hs).space.mark (k := .equal) (by decide) rfl rfl).space
    simp only [source, Expr.items, String.toList_append, List.append_assoc, List.cons_append]
    exact hequal.kept h.1.1 (by simp [TokenKind.isKept, h.1.2]) rfl

/-! ## Statements -/

section Parts

variable {rest : List Char} {items : List Item}

/-- An expression and its semicolon. -/
theorem Expr.scans_ended {e : Expr} (h : e.isWritable) (hrest : startsSeparate rest)
    (hs : Scans rest items) :
    Scans (e.source.toList ++ ';' :: rest) (e.items ++ .mark .semicolon :: items) :=
  e.scans h rfl (hs.mark (k := .semicolon) (by decide) rfl hrest)

/-- A condition in parentheses behind a word. -/
theorem Expr.scans_condition {c : Expr} (h : c.isWritable) {k : TokenKind}
    (hk : k = .ifWord ∨ k = .whileWord) (hs : Scans rest items) :
    Scans (k.spelling ++ ' ' :: '(' :: (c.source.toList ++ ')' :: ' ' :: rest))
      (.mark k :: .mark .leftParen :: (c.items ++ .mark .rightParen :: items)) := by
  have hright := hs.space.mark (k := .rightParen) (by decide) rfl rfl
  have hleft := (c.scans h rfl hright).symbol (k := .leftParen) (by decide) rfl
    (c.startsApart_source h _)
  refine hleft.space.mark (k := k) ?_ ?_ rfl
  · rcases hk with rfl | rfl <;> decide
  · rcases hk with rfl | rfl <;> rfl

theorem scans_indentation (depth : Nat) (hs : Scans rest items) :
    Scans ((indentation depth).toList ++ rest) items := by
  simp only [indentation, String.toList_ofList]
  exact hs.spaces (4 * depth)

end Parts

mutual

/-- The text of a statement in front of more text. -/
theorem Stmt.scans (s : Stmt) (h : s.isWritable) (depth : Nat) {rest : List Char}
    {items : List Item} (hrest : startsSeparate rest) (hs : Scans rest items) :
    Scans ((s.source depth).toList ++ rest) (s.items ++ items) := by
  match s with
  | .expression e =>
    simp only [Stmt.source, Stmt.items, String.toList_append, List.append_assoc]
    exact e.scans_ended h hrest hs
  | .print e =>
    have hvalue := (e.scans_ended h hrest hs).space.mark (k := .printWord) (by decide) rfl rfl
    simp only [Stmt.source, Stmt.items, String.toList_append, List.append_assoc, List.cons_append]
    exact hvalue
  | .declare name none =>
    simp only [Stmt.isWritable, Bool.and_eq_true, beq_iff_eq] at h
    have hend := hs.mark (k := .semicolon) (by decide) rfl hrest
    have hname := hend.kept h.1 (by simp [TokenKind.isKept, h.2]) rfl
    simp only [Stmt.source, Stmt.items, String.toList_append, List.append_assoc, List.cons_append]
    exact hname.space.mark (k := .varWord) (by decide) rfl rfl
  | .declare name (some initial) =>
    simp only [Stmt.isWritable, Bool.and_eq_true, beq_iff_eq] at h
    have hvalue := (initial.scans_ended h.2 hrest hs).space
    have hequal := (hvalue.mark (k := .equal) (by decide) rfl rfl).space
    have hname := hequal.kept h.1.1 (by simp [TokenKind.isKept, h.1.2]) rfl
    simp only [Stmt.source, Stmt.items, String.toList_append, List.append_assoc, List.cons_append]
    exact hname.space.mark (k := .varWord) (by decide) rfl rfl
  | .block [] =>
    have hright := hs.mark (k := .rightBrace) (by decide) rfl hrest
    simp only [Stmt.source, Stmt.items, Program.items, List.nil_append, List.cons_append]
    exact hright.mark (k := .leftBrace) (by decide) rfl rfl
  | .block (s :: ss) =>
    have hright := hs.mark (k := .rightBrace) (by decide) rfl hrest
    have hline := (scans_indentation depth hright).blank (c := '\n') rfl
    obtain ⟨hlines, hseparate⟩ := Stmt.scans_lines (s :: ss) h (depth + 1) rfl hline
    simp only [Stmt.source, Stmt.items, String.toList_append, List.append_assoc, List.cons_append]
    exact hlines.mark (k := .leftBrace) (by decide) rfl hseparate
  | .ifThen condition yes =>
    simp only [Stmt.isWritable, Bool.and_eq_true] at h
    have hyes := Stmt.scans yes h.2 depth hrest hs
    simp only [Stmt.source, Stmt.items, String.toList_append, List.append_assoc, List.cons_append]
    exact condition.scans_condition h.1 (.inl rfl) hyes
  | .ifElse condition yes no =>
    simp only [Stmt.isWritable, Bool.and_eq_true] at h
    have hno := (Stmt.scans no h.2 depth hrest hs).space
    have helse := (hno.mark (k := .elseWord) (by decide) rfl rfl).space
    have hyes := Stmt.scans yes h.1.2 depth rfl helse
    simp only [Stmt.source, Stmt.items, String.toList_append, List.append_assoc, List.cons_append]
    exact condition.scans_condition h.1.1 (.inl rfl) hyes
  | .loop condition body =>
    simp only [Stmt.isWritable, Bool.and_eq_true] at h
    have hbody := Stmt.scans body h.2 depth hrest hs
    simp only [Stmt.source, Stmt.items, String.toList_append, List.append_assoc, List.cons_append]
    exact condition.scans_condition h.1 (.inr rfl) hbody

/-- The lines of a block in front of more text. -/
theorem Stmt.scans_lines (ss : List Stmt) (h : Program.isWritable ss) (depth : Nat)
    {rest : List Char} {items : List Item} (hrest : startsSeparate rest) (hs : Scans rest items) :
    Scans ((Stmt.sourceLines depth ss).toList ++ rest) (Program.items ss ++ items) ∧
      startsSeparate ((Stmt.sourceLines depth ss).toList ++ rest) := by
  match ss with
  | [] => exact ⟨hs, hrest⟩
  | s :: ss =>
    simp only [Program.isWritable, Bool.and_eq_true] at h
    obtain ⟨hlines, hseparate⟩ := Stmt.scans_lines ss h.2 depth hrest hs
    have hfirst := scans_indentation depth (Stmt.scans s h.1 depth hseparate hlines)
    simp only [Stmt.sourceLines, Program.items, String.toList_append, List.append_assoc]
    exact ⟨hfirst.blank rfl, rfl⟩

end

/-- The text of a program. -/
theorem Program.scans (p : Program) (h : Program.isWritable p) :
    Scans (Program.source p).toList (Program.items p) := by
  induction p with
  | nil => exact .nil
  | cons s ss ih =>
    simp only [Program.isWritable, Bool.and_eq_true] at h
    have hrest := (ih h.2).blank (c := '\n') rfl
    have hsource : (Program.source (s :: ss)).toList =
        (s.source 0).toList ++ '\n' :: (Program.source ss).toList := by
      simp [Program.source, String.join_cons]
    rw [hsource]
    exact Stmt.scans s h.1 0 rfl hrest

end LoxSyntax
