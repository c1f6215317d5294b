import LoxSyntax.Proofs.Tree.Items
import LoxSyntax.Proofs.Tree.Levels
import LoxSyntax.Proofs.Tree.Normal

/-!
# Trees without their lines

A tree knows the lines of its operators and names.  Nothing about its shape depends on them, and any
other lines can be put in their place.

* `Token.unlined`, `Item.unlined`, `Expr.unlined`, `Stmt.unlined`, `Program.unlined` — the same with
  every line set to zero.
* `Program.isNormal_unlined`, `Program.missingCount_unlined`, `Program.levels_unlined` — what does
  not depend on lines.
* **`Program.exists_unlined`** — items that differ from those of a program in their lines alone are
  the items of a program that differs from it in its lines alone.
-/

namespace LoxSyntax

/-! ## Tokens and items -/

/-- The token on no line. -/
def Token.unlined (t : Token) : Token :=
  { t with line := 0 }

namespace Item

/-- The item on no line. -/
def unlined : Item → Item
  | token t => token t.unlined
  | literal value => literal value
  | mark kind => mark kind

theorem eq_of_unlined_mark {i : Item} {k : TokenKind} (h : i.unlined = .mark k) : i = .mark k := by
  cases i <;> cases h
  rfl

theorem eq_of_unlined_literal {i : Item} {value : Literal} (h : i.unlined = .literal value) :
    i = .literal value := by
  cases i <;> cases h
  rfl

theorem exists_of_unlined_token {i : Item} {t : Token} (h : i.unlined = .token t) :
    ∃ u : Token, i = .token u ∧ u.unlined = t := by
  cases i <;> cases h
  exact ⟨_, rfl, rfl⟩

/-! ## Lists of items -/

variable {is js : List Item}

theorem exists_of_map_mark {k : TokenKind} (h : is.map unlined = (.mark k :: js).map unlined) :
    ∃ is', is = .mark k :: is' ∧ is'.map unlined = js.map unlined := by
  obtain ⟨i, is', rfl, hi, hrest⟩ := List.map_eq_cons_iff.1 h
  exact ⟨is', by rw [eq_of_unlined_mark hi], hrest⟩

theorem exists_of_map_literal {value : Literal}
    (h : is.map unlined = (.literal value :: js).map unlined) :
    ∃ is', is = .literal value :: is' ∧ is'.map unlined = js.map unlined := by
  obtain ⟨i, is', rfl, hi, hrest⟩ := List.map_eq_cons_iff.1 h
  exact ⟨is', by rw [eq_of_unlined_literal hi], hrest⟩

theorem exists_of_map_token {t : Token} (h : is.map unlined = (.token t :: js).map unlined) :
    ∃ (u : Token) (is' : List Item), is = .token u :: is' ∧ u.unlined = t.unlined ∧
      is'.map unlined = js.map unlined := by
  obtain ⟨i, is', rfl, hi, hrest⟩ := List.map_eq_cons_iff.1 h
  obtain ⟨u, rfl, hu⟩ := exists_of_unlined_token hi
  exact ⟨u, is', rfl, hu, hrest⟩

theorem exists_of_map_append {js' : List Item} (h : is.map unlined = (js ++ js').map unlined) :
    ∃ is₁ is₂, is = is₁ ++ is₂ ∧ is₁.map unlined = js.map unlined ∧
      is₂.map unlined = js'.map unlined := by
  rw [List.map_append] at h
  exact List.map_eq_append_iff.1 h

end Item

/-- What is kept of a token does not depend on its line. -/
theorem Token.item_unlined (t : Token) : t.unlined.item = t.item.unlined := by
  obtain ⟨kind, lexeme, line, literal⟩ := t
  simp only [item, unlined]
  split
  · rfl
  · rfl
  · split <;> rfl

/-! ## Expressions -/

namespace Expr

/-- The expression with every line set to zero. -/
def unlined : Expr → Expr
  | .string text => .string text
  | .number value => .number value
  | .bool value => .bool value
  | .nil => .nil
  | .unary op arg => .unary op.unlined arg.unlined
  | .binary lhs op rhs => .binary lhs.unlined op.unlined rhs.unlined
  | .logical lhs op rhs => .logical lhs.unlined op.unlined rhs.unlined
  | .conditional condition yes no => .conditional condition.unlined yes.unlined no.unlined
  | .group inner => .group inner.unlined
  | .variable name => .variable name.unlined
  | .assign name value => .assign name.unlined value.unlined
  | .missing => .missing

theorem precedence_unlined (e : Expr) : e.unlined.precedence = e.precedence := by
  cases e <;> rfl

theorem endsInConditional_unlined (e : Expr) :
    e.unlined.endsInConditional = e.endsInConditional := by
  induction e <;> simp_all [unlined, endsInConditional, Token.unlined]

theorem isNormal_unlined (e : Expr) : e.unlined.isNormal = e.isNormal := by
  induction e <;>
    simp_all [unlined, isNormal, Token.unlined, fitBeside, precedence_unlined,
      endsInConditional_unlined]

theorem missingCount_unlined (e : Expr) : e.unlined.missingCount = e.missingCount := by
  induction e <;> simp_all [unlined, missingCount]

theorem levels_unlined (e : Expr) : e.unlined.levels = e.levels := by
  induction e <;> simp_all [unlined, levels]

/-- Other lines can be put in the place of an expression's own. -/
theorem exists_unlined (e : Expr) {is : List Item}
    (h : is.map Item.unlined = e.items.map Item.unlined) :
    ∃ e' : Expr, e'.items = is ∧ e'.unlined = e.unlined := by
  induction e generalizing is with
  | string text | number value =>
    obtain ⟨is', rfl, hrest⟩ := Item.exists_of_map_literal h
    obtain rfl := List.map_eq_nil_iff.1 hrest
    exact ⟨_, rfl, rfl⟩
  | bool value =>
    refine ⟨.bool value, ?_, rfl⟩
    cases value
    all_goals
      obtain ⟨is', rfl, hrest⟩ := Item.exists_of_map_mark h
      obtain rfl := List.map_eq_nil_iff.1 hrest
      rfl
  | nil =>
    obtain ⟨is', rfl, hrest⟩ := Item.exists_of_map_mark h
    obtain rfl := List.map_eq_nil_iff.1 hrest
    exact ⟨.nil, rfl, rfl⟩
  | missing =>
    obtain rfl := List.map_eq_nil_iff.1 h
    exact ⟨.missing, rfl, rfl⟩
  | «variable» name =>
    obtain ⟨u, is', rfl, hu, hrest⟩ := Item.exists_of_map_token h
    obtain rfl := List.map_eq_nil_iff.1 hrest
    exact ⟨.variable u, rfl, congrArg Expr.variable hu⟩
  | unary op arg ih =>
    obtain ⟨u, is', rfl, hu, hrest⟩ := Item.exists_of_map_token h
    obtain ⟨arg', rfl, harg⟩ := ih hrest
    exact ⟨.unary u arg', rfl, by simp only [unlined, hu, harg]⟩
  | binary lhs op rhs ihl ihr =>
    obtain ⟨is₁, is₂, rfl, hleft, hrest⟩ := Item.exists_of_map_append h
    obtain ⟨u, is', rfl, hu, hright⟩ := Item.exists_of_map_token hrest
    obtain ⟨lhs', rfl, hlhs⟩ := ihl hleft
    obtain ⟨rhs', rfl, hrhs⟩ := ihr hright
    exact ⟨.binary lhs' u rhs', rfl, by simp only [unlined, hlhs, hu, hrhs]⟩
  | logical lhs op rhs ihl ihr =>
    obtain ⟨is₁, is₂, rfl, hleft, hrest⟩ := Item.exists_of_map_append h
    obtain ⟨u, is', rfl, hu, hright⟩ := Item.exists_of_map_token hrest
    obtain ⟨lhs', rfl, hlhs⟩ := ihl hleft
    obtain ⟨rhs', rfl, hrhs⟩ := ihr hright
    exact ⟨.logical lhs' u rhs', rfl, by simp only [unlined, hlhs, hu, hrhs]⟩
  | conditional condition yes no ihc ihy ihn =>
    obtain ⟨is₁, is₂, rfl, hc, hbranches⟩ := Item.exists_of_map_append h
    obtain ⟨is₃, rfl, hyesNo⟩ := Item.exists_of_map_mark hbranches
    obtain ⟨is₄, is₅, rfl, hy, hcolon⟩ := Item.exists_of_map_append hyesNo
    obtain ⟨is₆, rfl, hn⟩ := Item.exists_of_map_mark hcolon
    obtain ⟨condition', rfl, hcondition⟩ := ihc hc
    obtain ⟨yes', rfl, hyes⟩ := ihy hy
    obtain ⟨no', rfl, hno⟩ := ihn hn
    exact ⟨.conditional condition' yes' no', rfl, by simp only [unlined, hcondition, hyes, hno]⟩
  | group inner ih =>
    obtain ⟨is₁, rfl, hrest⟩ := Item.exists_of_map_mark h
    obtain ⟨is₂, is₃, rfl, hi, hend⟩ := Item.exists_of_map_append hrest
    obtain ⟨is₄, rfl, hnil⟩ := Item.exists_of_map_mark hend
    obtain rfl := List.map_eq_nil_iff.1 hnil
    obtain ⟨inner', rfl, hinner⟩ := ih hi
    exact ⟨.group inner', rfl, by simp only [unlined, hinner]⟩
  | assign name value ih =>
    obtain ⟨u, is₁, rfl, hu, hrest⟩ := Item.exists_of_map_token h
    obtain ⟨is₂, rfl, hv⟩ := Item.exists_of_map_mark hrest
    obtain ⟨value', rfl, hvalue⟩ := ih hv
    exact ⟨.assign u value', rfl, by simp only [unlined, hu, hvalue]⟩

/-- The same with a semicolon behind the expression. -/
theorem exists_unlined_ended (e : Expr) {is : List Item}
    (h : is.map Item.unlined = (e.items ++ [Item.mark .semicolon]).map Item.unlined) :
    ∃ e' : Expr, is = e'.items ++ [.mark .semicolon] ∧ e'.unlined = e.unlined := by
  obtain ⟨is₁, is₂, rfl, he, hend⟩ := Item.exists_of_map_append h
  obtain ⟨is₃, rfl, hnil⟩ := Item.exists_of_map_mark hend
  obtain rfl := List.map_eq_nil_iff.1 hnil
  obtain ⟨e', rfl, he'⟩ := e.exists_unlined he
  exact ⟨e', rfl, he'⟩

/-- The same for a condition in parentheses and what is behind it. -/
theorem exists_unlined_condition (e : Expr) {k : TokenKind} {is js : List Item}
    (h : is.map Item.unlined =
      (Item.mark k :: .mark .leftParen :: (e.items ++ .mark .rightParen :: js)).map
        Item.unlined) :
    ∃ (e' : Expr) (is' : List Item),
      is = .mark k :: .mark .leftParen :: (e'.items ++ .mark .rightParen :: is') ∧
        e'.unlined = e.unlined ∧ is'.map Item.unlined = js.map Item.unlined := by
  obtain ⟨is₁, rfl, hleft⟩ := Item.exists_of_map_mark h
  obtain ⟨is₂, rfl, hinner⟩ := Item.exists_of_map_mark hleft
  obtain ⟨is₃, is₄, rfl, he, hright⟩ := Item.exists_of_map_append hinner
  obtain ⟨is₅, rfl, hrest⟩ := Item.exists_of_map_mark hright
  obtain ⟨e', rfl, he'⟩ := e.exists_unlined he
  exact ⟨e', is₅, rfl, he', hrest⟩

end Expr

/-! ## Statements -/

mutual

/-- The statement with every line set to zero. -/
def Stmt.unlined : Stmt → Stmt
  | .expression e => .expression e.unlined
  | .print e => .print e.unlined
  | .declare name none => .declare name.unlined none
  | .declare name (some initial) => .declare name.unlined (some initial.unlined)
  | .block body => .block (Program.unlined body)
  | .ifThen condition yes => .ifThen condition.unlined yes.unlined
  | .ifElse condition yes no => .ifElse condition.unlined yes.unlined no.unlined
  | .loop condition body => .loop condition.unlined body.unlined

/-- The program with every line set to zero. -/
def Program.unlined : Program → Program
  | [] => []
  | s :: ss => s.unlined :: Program.unlined ss

end

theorem Stmt.isDeclaration_unlined (s : Stmt) : s.unlined.isDeclaration = s.isDeclaration := by
  rcases s with _ | _ | ⟨_, _ | _⟩ | _ | _ | _ | _ <;> rfl

theorem Stmt.endsInIf_unlined (s : Stmt) : s.unlined.endsInIf = s.endsInIf := by
  match s with
  | .expression _ | .print _ | .declare _ none | .declare _ (some _) | .block _ | .ifThen .. => rfl
  | .ifElse _ _ no => exact Stmt.endsInIf_unlined no
  | .loop _ body => exact Stmt.endsInIf_unlined body

mutual

theorem Stmt.isNormal_unlined (s : Stmt) : s.unlined.isNormal = s.isNormal := by
  match s with
  | .expression e | .print e => simp only [Stmt.unlined, Stmt.isNormal, e.isNormal_unlined]
  | .declare name none => rfl
  | .declare name (some initial) =>
    simp only [Stmt.unlined, Stmt.isNormal, initial.isNormal_unlined, Token.unlined]
  | .block body => exact Program.isNormal_unlined body
  | .ifThen condition yes =>
    simp only [Stmt.unlined, Stmt.isNormal, condition.isNormal_unlined, Stmt.isNormal_unlined yes,
      yes.isDeclaration_unlined]
  | .ifElse condition yes no =>
    simp only [Stmt.unlined, Stmt.isNormal, condition.isNormal_unlined, Stmt.isNormal_unlined yes,
      Stmt.isNormal_unlined no, yes.isDeclaration_unlined, no.isDeclaration_unlined,
      yes.endsInIf_unlined]
  | .loop condition body =>
    simp only [Stmt.unlined, Stmt.isNormal, condition.isNormal_unlined, Stmt.isNormal_unlined body,
      body.isDeclaration_unlined]

theorem Program.isNormal_unlined (p : Program) :
    Program.isNormal (Program.unlined p) = Program.isNormal p := by
  match p with
  | [] => rfl
  | s :: ss =>
    simp only [Program.unlined, Program.isNormal, Stmt.isNormal_unlined s,
      Program.isNormal_unlined ss]

end

mutual

theorem Stmt.missingCount_unlined (s : Stmt) : s.unlined.missingCount = s.missingCount := by
  match s with
  | .expression e | .print e | .declare _ (some e) =>
    simp only [Stmt.unlined, Stmt.missingCount, e.missingCount_unlined]
  | .declare _ none => rfl
  | .block body => exact Program.missingCount_unlined body
  | .ifThen condition yes =>
    simp only [Stmt.unlined, Stmt.missingCount, condition.missingCount_unlined,
      Stmt.missingCount_unlined yes]
  | .ifElse condition yes no =>
    simp only [Stmt.unlined, Stmt.missingCount, condition.missingCount_unlined,
      Stmt.missingCount_unlined yes, Stmt.missingCount_unlined no]
  | .loop condition body =>
    simp only [Stmt.unlined, Stmt.missingCount, condition.missingCount_unlined,
      Stmt.missingCount_unlined body]

theorem Program.missingCount_unlined (p : Program) :
    Program.missingCount (Program.unlined p) = Program.missingCount p := by
  match p with
  | [] => rfl
  | s :: ss =>
    simp only [Program.unlined, Program.missingCount, Stmt.missingCount_unlined s,
      Program.missingCount_unlined ss]

end

mutual

theorem Stmt.levels_unlined (s : Stmt) : s.unlined.levels = s.levels := by
  match s with
  | .expression e | .print e | .declare _ (some e) =>
    simp only [Stmt.unlined, Stmt.levels, e.levels_unlined]
  | .declare _ none => rfl
  | .block body => simp only [Stmt.unlined, Stmt.levels, Program.levels_unlined body]
  | .ifThen condition yes =>
    simp only [Stmt.unlined, Stmt.levels, condition.levels_unlined, Stmt.levels_unlined yes]
  | .ifElse condition yes no =>
    simp only [Stmt.unlined, Stmt.levels, condition.levels_unlined, Stmt.levels_unlined yes,
      Stmt.levels_unlined no]
  | .loop condition body =>
    simp only [Stmt.unlined, Stmt.levels, condition.levels_unlined, Stmt.levels_unlined body]

theorem Program.levels_unlined (p : Program) :
    Program.levels (Program.unlined p) = Program.levels p := by
  match p with
  | [] => rfl
  | s :: ss =>
    simp only [Program.unlined, Program.levels, Stmt.levels_unlined s, Program.levels_unlined ss]

end

mutual

/-- Other lines can be put in the place of a statement's own. -/
theorem Stmt.exists_unlined (s : Stmt) {is : List Item}
    (h : is.map Item.unlined = s.items.map Item.unlined) :
    ∃ s' : Stmt, s'.items = is ∧ s'.unlined = s.unlined := by
  match s with
  | .expression e =>
    obtain ⟨e', rfl, he⟩ := e.exists_unlined_ended h
    exact ⟨.expression e', rfl, by simp only [Stmt.unlined, he]⟩
  | .print e =>
    obtain ⟨is₁, rfl, hvalue⟩ := Item.exists_of_map_mark h
    obtain ⟨e', rfl, he⟩ := e.exists_unlined_ended hvalue
    exact ⟨.print e', rfl, by simp only [Stmt.unlined, he]⟩
  | .declare name none =>
    obtain ⟨is₁, rfl, hname⟩ := Item.exists_of_map_mark h
    obtain ⟨u, is₂, rfl, hu, hend⟩ := Item.exists_of_map_token hname
    obtain ⟨is₃, rfl, hnil⟩ := Item.exists_of_map_mark hend
    obtain rfl := List.map_eq_nil_iff.1 hnil
    exact ⟨.declare u none, rfl, by simp only [Stmt.unlined, hu]⟩
  | .declare name (some initial) =>
    obtain ⟨is₁, rfl, hname⟩ := Item.exists_of_map_mark h
    obtain ⟨u, is₂, rfl, hu, hequal⟩ := Item.exists_of_map_token hname
    obtain ⟨is₃, rfl, hvalue⟩ := Item.exists_of_map_mark hequal
    obtain ⟨e', rfl, he⟩ := initial.exists_unlined_ended hvalue
    exact ⟨.declare u (some e'), rfl, by simp only [Stmt.unlined, hu, he]⟩
  | .block body =>
    obtain ⟨is₁, rfl, hinner⟩ := Item.exists_of_map_mark h
    obtain ⟨is₂, is₃, rfl, hb, hend⟩ := Item.exists_of_map_append hinner
    obtain ⟨is₄, rfl, hnil⟩ := Item.exists_of_map_mark hend
    obtain rfl := List.map_eq_nil_iff.1 hnil
    obtain ⟨body', rfl, hbody⟩ := Program.exists_unlined body hb
    exact ⟨.block body', rfl, by simp only [Stmt.unlined, hbody]⟩
  | .ifThen condition yes =>
    obtain ⟨c', is', rfl, hc, hy⟩ := condition.exists_unlined_condition h
    obtain ⟨yes', rfl, hyes⟩ := Stmt.exists_unlined yes hy
    exact ⟨.ifThen c' yes', rfl, by simp only [Stmt.unlined, hc, hyes]⟩
  | .ifElse condition yes no =>
    obtain ⟨c', is', rfl, hc, hbranches⟩ := condition.exists_unlined_condition h
    obtain ⟨is₁, is₂, rfl, hy, helse⟩ := Item.exists_of_map_append hbranches
    obtain ⟨is₃, rfl, hn⟩ := Item.exists_of_map_mark helse
    obtain ⟨yes', rfl, hyes⟩ := Stmt.exists_unlined yes hy
    obtain ⟨no', rfl, hno⟩ := Stmt.exists_unlined no hn
    exact ⟨.ifElse c' yes' no', rfl, by simp only [Stmt.unlined, hc, hyes, hno]⟩
  | .loop condition body =>
    obtain ⟨c', is', rfl, hc, hb⟩ := condition.exists_unlined_condition h
    obtain ⟨body', rfl, hbody⟩ := Stmt.exists_unlined body hb
    exact ⟨.loop c' body', rfl, by simp only [Stmt.unlined, hc, hbody]⟩

/-- Other lines can be put in the place of a program's own. -/
theorem Program.exists_unlined (p : Program) {is : List Item}
    (h : is.map Item.unlined = (Program.items p).map Item.unlined) :
    ∃ p', Program.items p' = is ∧ Program.unlined p' = Program.unlined p := by
  match p with
  | [] =>
    obtain rfl := List.map_eq_nil_iff.1 h
    exact ⟨[], rfl, rfl⟩
  | s :: ss =>
    obtain ⟨is₁, is₂, rfl, hfirst, hrest⟩ := Item.exists_of_map_append h
    obtain ⟨s', rfl, hs⟩ := Stmt.exists_unlined s hfirst
    obtain ⟨ss', rfl, hss⟩ := Program.exists_unlined ss hrest
    exact ⟨s' :: ss', rfl, by simp only [Program.unlined, hs, hss]⟩

end

end LoxSyntax
