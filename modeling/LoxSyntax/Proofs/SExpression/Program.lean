import LoxSyntax.Proofs.SExpression.Items
import LoxSyntax.Proofs.Source.RoundTrip
import LoxSyntax.Tree.SExpression

/-!
# S-expressions identify programs

The S-expression of what was read from a text scans as the items that it is made of: strings hold no
quote, so that whatever else they hold stays inside of them, and every other lexeme stands in front
of a blank or a parenthesis.  These items tell the program, lines aside.

* `Scans.leftParen`, `Scans.word` — a parenthesis and a head in front of a text.
* **`Expr.scans_sexpr`**, **`Stmt.scans_sexpr`**, **`Program.scans_sexpr`** — the S-expression of a
  tree in front of more text.
* **`Program.unlined_eq_of_sexpr_eq`** — programs that have the same S-expressions.
-/

namespace LoxSyntax

/-! ## Parts of S-expressions -/

/-- An opening parenthesis is a piece, whatever comes behind it. -/
theorem pieces_leftParen (rest : List Char) :
    pieces ('(' :: rest) = ⟨.token .leftParen, ['(']⟩ :: pieces rest := by
  have hpair : ∀ d, symbol? ['(', d] = none := by
    intro d
    simp [symbol?, TokenKind.symbols, TokenKind.spelling]
  have hfirst : Piece.first '(' rest = Piece.symbol '(' rest := rfl
  have hpiece : Piece.first '(' ([] ++ rest) = ⟨.token .leftParen, ['(']⟩ := by
    rw [List.nil_append, hfirst]
    cases rest with
    | nil => rfl
    | cons d rest =>
      simp only [Piece.symbol, List.take_succ_cons, List.take_zero, hpair d]
      rfl
  exact pieces_of_first hpiece

namespace Scans

variable {rest : List Char} {items : List Item}

theorem leftParen (h : Scans rest items) : Scans ('(' :: rest) (.mark .leftParen :: items) := by
  have hlexeme : Scans (['('] ++ rest) (.mark .leftParen :: items) :=
    h.lexeme (pieces_leftParen rest) (Token.item_of_mark rfl rfl)
  exact hlexeme

theorem rightParen (hrest : startsSeparate rest) (h : Scans rest items) :
    Scans (')' :: rest) (.mark .rightParen :: items) :=
  h.mark (k := .rightParen) (by decide) rfl hrest

/-- A head that is a word. -/
theorem word (text : String) (hspelled : (⟨.identifier, text, 0, none⟩ : Token).isSpelled)
    (hrest : startsSeparate rest) (h : Scans rest items) :
    Scans (text.toList ++ rest) (.word text :: items) :=
  h.kept hspelled rfl hrest

/-- What is written for a missing operand. -/
theorem missing (hrest : startsSeparate rest) (h : Scans rest items) :
    Scans ("<error>".toList ++ rest) (Expr.missing.sexprItems ++ items) := by
  have hgreater : Scans ('>' :: rest) (.token ⟨.greater, ">", 0, none⟩ :: items) :=
    h.kept (t := ⟨.greater, ">", 0, none⟩) rfl rfl hrest
  have hword : Scans ("error".toList ++ '>' :: rest) _ := hgreater.word "error" (by decide) rfl
  have hless : Scans (['<'] ++ ("error".toList ++ '>' :: rest))
      (.token ⟨.less, "<", 0, none⟩ :: _) :=
    hword.lexeme (pieces_symbol (k := .less) (by decide) rfl) rfl
  exact hless

end Scans

/-! ## Expressions -/

/-- The S-expression of an expression in front of more text. -/
theorem Expr.scans_sexpr {e : Expr} (hnormal : e.isNormal) (hfinite : e.hasFiniteNumbers)
    (hspelled : e.items.all Item.isSpelled) {rest : List Char} {items : List Item}
    (hrest : startsSeparate rest) (hs : Scans rest items) :
    Scans (e.sexpr.toList ++ rest) (e.sexprItems ++ items) := by
  induction e generalizing rest items with
  | string text =>
    simp only [Expr.items, List.all_cons, List.all_nil, Bool.and_true] at hspelled
    simp only [sexpr, String.toList_append]
    exact hs.string hspelled
  | number value =>
    simp only [Expr.items, List.all_cons, List.all_nil, Bool.and_true] at hspelled
    exact hs.number hspelled hfinite hrest
  | bool value =>
    cases value with
    | false => exact hs.mark (k := .falseWord) (by decide) rfl hrest
    | true => exact hs.mark (k := .trueWord) (by decide) rfl hrest
  | nil => exact hs.mark (k := .nilWord) (by decide) rfl hrest
  | missing => exact hs.missing hrest
  | unary op arg ih =>
    simp only [isNormal, Bool.and_eq_true] at hnormal
    simp only [Expr.items, List.all_cons, Bool.and_eq_true] at hspelled
    have harg := (ih hnormal.1.2 hfinite hspelled.2 rfl (hs.rightParen hrest)).space
    have hop := harg.kept hspelled.1 (by simp [TokenKind.isKept, hnormal.1.1]) rfl
    simp only [sexpr, sexprItems, String.toList_append, List.append_assoc, List.cons_append]
    exact hop.leftParen
  | binary lhs op rhs ihl ihr | logical lhs op rhs ihl ihr =>
    simp only [isNormal, Bool.and_eq_true] at hnormal
    simp only [hasFiniteNumbers, Bool.and_eq_true] at hfinite
    simp only [Expr.items, List.all_append, List.all_cons, Bool.and_eq_true] at hspelled
    have hkept : op.kind.isKept := by simp [TokenKind.isKept, Option.isSome_of_any hnormal.2]
    have hrhs := (ihr hnormal.1.2 hfinite.2 hspelled.2.2 rfl (hs.rightParen hrest)).space
    have hlhs := (ihl hnormal.1.1 hfinite.1 hspelled.1 rfl hrhs).space
    simp only [sexpr, sexprItems, String.toList_append, List.append_assoc, List.cons_append]
    exact (hlhs.kept hspelled.2.1 hkept rfl).leftParen
  | conditional condition yes no ihc ihy ihn =>
    simp only [isNormal, Bool.and_eq_true] at hnormal
    simp only [hasFiniteNumbers, Bool.and_eq_true] at hfinite
    simp only [Expr.items, List.all_append, List.all_cons, Bool.and_eq_true] at hspelled
    have hno := (ihn hnormal.1.2 hfinite.2 hspelled.2.2.2.2 rfl (hs.rightParen hrest)).space
    have hyes := (ihy hnormal.1.1.2 hfinite.1.2 hspelled.2.2.1 rfl hno).space
    have hcondition := (ihc hnormal.1.1.1 hfinite.1.1 hspelled.1 rfl hyes).space
    have hcolon := hcondition.mark (k := .colon) (by decide) rfl rfl
    have hquestion := hcolon.symbol (k := .question) (by decide) rfl rfl
    simp only [sexpr, sexprItems, String.toList_append, List.append_assoc, List.cons_append]
    exact hquestion.leftParen
  | group inner ih =>
    simp only [Expr.items, List.all_append, List.all_cons, Bool.and_eq_true] at hspelled
    have hinner := (ih hnormal hfinite hspelled.2.1 rfl (hs.rightParen hrest)).space
    have hword := hinner.word "group" (by decide) rfl
    simp only [sexpr, sexprItems, String.toList_append, List.append_assoc, List.cons_append]
    exact hword.leftParen
  | «variable» name =>
    simp only [isNormal, beq_iff_eq] at hnormal
    simp only [Expr.items, List.all_cons, List.all_nil, Bool.and_true] at hspelled
    exact hs.kept hspelled (by simp [TokenKind.isKept, hnormal]) hrest
  | assign name value ih =>
    simp only [isNormal, Bool.and_eq_true, beq_iff_eq] at hnormal
    simp only [Expr.items, List.all_cons, Bool.and_eq_true] at hspelled
    have hvalue := (ih hnormal.1.2 hfinite hspelled.2.2 rfl (hs.rightParen hrest)).space
    have hname := (hvalue.kept hspelled.1 (by simp [TokenKind.isKept, hnormal.1.1]) rfl).space
    have hequal := hname.mark (k := .equal) (by decide) rfl rfl
    simp only [sexpr, sexprItems, String.toList_append, List.append_assoc, List.cons_append]
    exact hequal.leftParen

/-! ## Statements -/

mutual

/-- The S-expression of a statement in front of more text. -/
theorem Stmt.scans_sexpr (s : Stmt) (hnormal : s.isNormal) (hfinite : s.hasFiniteNumbers)
    (hspelled : s.items.all Item.isSpelled) {rest : List Char} {items : List Item}
    (hrest : startsSeparate rest) (hs : Scans rest items) :
    Scans (s.sexpr.toList ++ rest) (s.sexprItems ++ items) := by
  have hend := hs.rightParen hrest
  match s with
  | .expression e =>
    simp only [Stmt.items, List.all_append, Bool.and_eq_true] at hspelled
    have hvalue := (e.scans_sexpr hnormal hfinite hspelled.1 rfl hend).space
    have hword := hvalue.word "expr" (by decide) rfl
    simp only [Stmt.sexpr, Stmt.sexprItems, String.toList_append, List.append_assoc,
      List.cons_append]
    exact hword.leftParen
  | .print e =>
    simp only [Stmt.items, List.all_cons, List.all_append, Bool.and_eq_true] at hspelled
    have hvalue := (e.scans_sexpr hnormal hfinite hspelled.2.1 rfl hend).space
    have hword := hvalue.mark (k := .printWord) (by decide) rfl rfl
    simp only [Stmt.sexpr, Stmt.sexprItems, String.toList_append, List.append_assoc,
      List.cons_append]
    exact hword.leftParen
  | .declare name none =>
    simp only [Stmt.isNormal, beq_iff_eq] at hnormal
    simp only [Stmt.items, List.all_cons, Bool.and_eq_true] at hspelled
    have hname := (hend.kept hspelled.2.1 (by simp [TokenKind.isKept, hnormal]) rfl).space
    have hword := hname.mark (k := .varWord) (by decide) rfl rfl
    simp only [Stmt.sexpr, Stmt.sexprItems, String.toList_append, List.append_assoc,
      List.cons_append]
    exact hword.leftParen
  | .declare name (some initial) =>
    simp only [Stmt.isNormal, Bool.and_eq_true, beq_iff_eq] at hnormal
    simp only [Stmt.items, List.all_cons, List.all_append, Bool.and_eq_true] at hspelled
    have hvalue := (initial.scans_sexpr hnormal.2 hfinite hspelled.2.2.2.1 rfl hend).space
    have hname := (hvalue.kept hspelled.2.1 (by simp [TokenKind.isKept, hnormal.1]) rfl).space
    have hword := hname.mark (k := .varWord) (by decide) rfl rfl
    simp only [Stmt.sexpr, Stmt.sexprItems, String.toList_append, List.append_assoc,
      List.cons_append]
    exact hword.leftParen
  | .block body =>
    simp only [Stmt.items, List.all_cons, List.all_append, Bool.and_eq_true] at hspelled
    obtain ⟨hbody, hseparate⟩ :=
      Stmt.scans_sexprTail body hnormal hfinite hspelled.2.1 rfl hend
    have hword := hbody.word "block" (by decide) hseparate
    simp only [Stmt.sexpr, Stmt.sexprItems, String.toList_append, List.append_assoc,
      List.cons_append]
    exact hword.leftParen
  | .ifThen condition yes =>
    simp only [Stmt.isNormal, Bool.and_eq_true] at hnormal
    simp only [Stmt.hasFiniteNumbers, Bool.and_eq_true] at hfinite
    simp only [Stmt.items, List.all_cons, List.all_append, Bool.and_eq_true] at hspelled
    have hyes := (Stmt.scans_sexpr yes hnormal.1.2 hfinite.2 hspelled.2.2.2.2 rfl hend).space
    have hcondition :=
      (condition.scans_sexpr hnormal.1.1 hfinite.1 hspelled.2.2.1 rfl hyes).space
    have hword := hcondition.mark (k := .ifWord) (by decide) rfl rfl
    simp only [Stmt.sexpr, Stmt.sexprItems, String.toList_append, List.append_assoc,
      List.cons_append]
    exact hword.leftParen
  | .ifElse condition yes no =>
    simp only [Stmt.isNormal, Bool.and_eq_true] at hnormal
    simp only [Stmt.hasFiniteNumbers, Bool.and_eq_true] at hfinite
    simp only [Stmt.items, List.all_cons, List.all_append, Bool.and_eq_true] at hspelled
    obtain ⟨-, -, hcondition, -, hyes, -, hno⟩ := hspelled
    have hlast := (Stmt.scans_sexpr no hnormal.1.1.1.2 hfinite.2 hno rfl hend).space
    have hmiddle := (Stmt.scans_sexpr yes hnormal.1.1.1.1.2 hfinite.1.2 hyes rfl hlast).space
    have hfirst :=
      (condition.scans_sexpr hnormal.1.1.1.1.1 hfinite.1.1 hcondition rfl hmiddle).space
    have hword := hfirst.mark (k := .ifWord) (by decide) rfl rfl
    simp only [Stmt.sexpr, Stmt.sexprItems, String.toList_append, List.append_assoc,
      List.cons_append]
    exact hword.leftParen
  | .loop condition body =>
    simp only [Stmt.isNormal, Bool.and_eq_true] at hnormal
    simp only [Stmt.hasFiniteNumbers, Bool.and_eq_true] at hfinite
    simp only [Stmt.items, List.all_cons, List.all_append, Bool.and_eq_true] at hspelled
    have hbody := (Stmt.scans_sexpr body hnormal.1.2 hfinite.2 hspelled.2.2.2.2 rfl hend).space
    have hcondition :=
      (condition.scans_sexpr hnormal.1.1 hfinite.1 hspelled.2.2.1 rfl hbody).space
    have hword := hcondition.mark (k := .whileWord) (by decide) rfl rfl
    simp only [Stmt.sexpr, Stmt.sexprItems, String.toList_append, List.append_assoc,
      List.cons_append]
    exact hword.leftParen

/-- The members of a block, each behind a space, in front of more text. -/
theorem Stmt.scans_sexprTail (ss : List Stmt) (hnormal : Program.isNormal ss)
    (hfinite : Program.hasFiniteNumbers ss) (hspelled : (Program.items ss).all Item.isSpelled)
    {rest : List Char} {items : List Item} (hrest : startsSeparate rest) (hs : Scans rest items) :
    Scans ((Stmt.sexprTail ss).toList ++ rest) (Program.sexprItems ss ++ items) ∧
      startsSeparate ((Stmt.sexprTail ss).toList ++ rest) := by
  match ss with
  | [] => exact ⟨hs, hrest⟩
  | s :: ss =>
    simp only [Program.isNormal, Bool.and_eq_true] at hnormal
    simp only [Program.hasFiniteNumbers, Bool.and_eq_true] at hfinite
    simp only [Program.items, List.all_append, Bool.and_eq_true] at hspelled
    obtain ⟨htail, hseparate⟩ :=
      Stmt.scans_sexprTail ss hnormal.2 hfinite.2 hspelled.2 hrest hs
    have hfirst := Stmt.scans_sexpr s hnormal.1 hfinite.1 hspelled.1 hseparate htail
    simp only [Stmt.sexprTail, Program.sexprItems, String.toList_append, List.append_assoc]
    exact ⟨hfirst.space, rfl⟩

end

/-! ## Programs -/

/-- The S-expressions of a program. -/
theorem Program.scans_sexpr (p : Program) (hnormal : Program.isNormal p)
    (hfinite : Program.hasFiniteNumbers p) (hspelled : (Program.items p).all Item.isSpelled) :
    Scans (Program.sexpr p).toList (Program.sexprItems p) := by
  induction p with
  | nil => exact .nil
  | cons s ss ih =>
    simp only [Program.isNormal, Bool.and_eq_true] at hnormal
    simp only [Program.hasFiniteNumbers, Bool.and_eq_true] at hfinite
    simp only [Program.items, List.all_append, Bool.and_eq_true] at hspelled
    cases ss with
    | nil =>
      have hs := Stmt.scans_sexpr s hnormal.1 hfinite.1 hspelled.1 rfl .nil
      simpa [Program.sexpr, Program.sexprItems] using hs
    | cons t ts =>
      have hrest := (ih hnormal.2 hfinite.2 hspelled.2).blank (c := '\n') rfl
      have hs := Stmt.scans_sexpr s hnormal.1 hfinite.1 hspelled.1 rfl hrest
      have hsexpr : (Program.sexpr (s :: t :: ts)).toList =
          s.sexpr.toList ++ '\n' :: (Program.sexpr (t :: ts)).toList := by
        simp [Program.sexpr, String.intercalate_cons_cons]
      rw [hsexpr]
      exact hs

/-- Normal programs with finite numbers that a text can spell are told by their S-expressions, lines
aside. -/
theorem Program.unlined_eq_of_scans {p q : Program} (hp : Program.isNormal p)
    (hq : Program.isNormal q) {text : List Char} (hsp : Scans text (Program.sexprItems p))
    (hsq : Scans text (Program.sexprItems q)) : Program.unlined p = Program.unlined q := by
  have hitems : Program.sexprItems (Program.unlined p) ++ [] =
      Program.sexprItems (Program.unlined q) ++ [] := by
    rw [Program.sexprItems_unlined, Program.sexprItems_unlined, ← hsp.items_eq, ← hsq.items_eq]
  rw [← Program.isNormal_unlined] at hp hq
  exact (Program.readsOnce _ hp hq (by simp) (by simp) hitems).1

/-- Whatever was read from two texts, errors or not and under whatever ceilings: if all its numbers
are finite and it has the same S-expressions, then it is the same program but for the lines. -/
theorem Parser.unlined_eq_of_sexpr_eq {ceiling ceiling' : Nat} (a b : String) (p q : Program)
    (hp : (ofText ceiling a).program.1 = p) (hq : (ofText ceiling' b).program.1 = q)
    (hpfinite : Program.hasFiniteNumbers p) (hqfinite : Program.hasFiniteNumbers q)
    (h : p.sexpr = q.sexpr) : Program.unlined p = Program.unlined q := by
  obtain ⟨hpnormal, hpspelled, -⟩ := program_ofText ceiling a
  obtain ⟨hqnormal, hqspelled, -⟩ := program_ofText ceiling' b
  rw [hp] at hpnormal hpspelled
  rw [hq] at hqnormal hqspelled
  have hpscans := Program.scans_sexpr p hpnormal hpfinite hpspelled
  have hqscans := Program.scans_sexpr q hqnormal hqfinite hqspelled
  rw [h] at hpscans
  exact Program.unlined_eq_of_scans hpnormal hqnormal hpscans hqscans

/-- A name on some line, and an operator without its left operand. -/
def operatorProgram (line : UInt32) : Program :=
  [.print (.variable ⟨.identifier, "x", line, none⟩), .expression .missing]

theorem Parser.operatorProgram_unlined :
    (ofText 5 "print x;\n* 2;").program.1 = operatorProgram 1 ∧
      (ofText 9 "print\nx; / (a) ;").program.1 = operatorProgram 2 ∧
      Program.hasFiniteNumbers (operatorProgram 1) ∧
      Program.hasFiniteNumbers (operatorProgram 2) ∧
      Program.sexpr (operatorProgram 1) = Program.sexpr (operatorProgram 2) ∧
      Program.unlined (operatorProgram 1) = Program.unlined (operatorProgram 2) := by
  have hfirst : (ofText 5 "print x;\n* 2;").program.1 = operatorProgram 1 := by decide +kernel
  have hsecond : (ofText 9 "print\nx; / (a) ;").program.1 = operatorProgram 2 := by
    decide +kernel
  have hsexpr : Program.sexpr (operatorProgram 1) = Program.sexpr (operatorProgram 2) := rfl
  exact ⟨hfirst, hsecond, rfl, rfl, hsexpr,
    unlined_eq_of_sexpr_eq _ _ _ _ hfirst hsecond rfl rfl hsexpr⟩

end LoxSyntax
