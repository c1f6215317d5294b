import LoxSyntax.Grammar.Precedence

/-!
# Trees in the order of their text

What a tree keeps of the tokens it was read from, in the order of the text.  Operators and names
are kept whole, a literal keeps its value, and of all other tokens only the kind is left, which the
shape of the tree tells.

* `Item` — what is kept of a token.
* `Token.item` — what a tree can keep of a given token.
* `Expr.items`, `Stmt.items`, `Program.items` — what a tree has kept.
-/

namespace LoxSyntax

/-- What a tree keeps of a token. -/
inductive Item
  | token (t : Token)
  | literal (value : Literal)
  | mark (kind : TokenKind)
deriving DecidableEq, Repr

/-- Whether tokens of a kind are kept whole: names and operators. -/
def TokenKind.isKept (k : TokenKind) : Bool :=
  k == .identifier || k.precedence?.isSome || k.isUnary

/-- Whether of a token only its kind is left. -/
def TokenKind.isMark (k : TokenKind) : Bool :=
  !k.isKept && k != .number && k != .string

namespace Token

/-- What a tree can keep of a token. -/
def item (t : Token) : Item :=
  match t.kind, t.literal with
  | .number, some (.number value) => .literal (.number value)
  | .string, some (.string text) => .literal (.string text)
  | kind, _ => if kind.isKept then .token t else .mark kind

/-- What is kept of a name or an operator is all of it. -/
theorem item_of_isKept {t : Token} (h : t.kind.isKept = true) : t.item = .token t := by
  unfold item
  split
  · next hkind _ => simp [hkind, TokenKind.isKept, TokenKind.precedence?, TokenKind.isUnary] at h
  · next hkind _ => simp [hkind, TokenKind.isKept, TokenKind.precedence?, TokenKind.isUnary] at h
  · simp [h]

theorem item_of_identifier {t : Token} (h : t.kind = .identifier) : t.item = .token t :=
  item_of_isKept (by simp [TokenKind.isKept, h])

theorem item_of_operator {t : Token} {p : Precedence} (h : t.kind.precedence? = some p) :
    t.item = .token t :=
  item_of_isKept (by simp [TokenKind.isKept, h])

theorem item_of_unary {t : Token} (h : t.kind.isUnary = true) : t.item = .token t :=
  item_of_isKept (by simp [TokenKind.isKept, h])

theorem item_of_number {t : Token} {value : Binary64} (hkind : t.kind = .number)
    (hvalue : t.literal = some (.number value)) : t.item = .literal (.number value) := by
  simp [item, hkind, hvalue]

theorem item_of_string {t : Token} {text : String} (hkind : t.kind = .string)
    (htext : t.literal = some (.string text)) : t.item = .literal (.string text) := by
  simp [item, hkind, htext]

/-- Of any other token its kind is kept. -/
theorem item_of_mark {t : Token} {k : TokenKind} (hkind : t.kind = k) (hmark : k.isMark = true) :
    t.item = .mark k := by
  simp only [TokenKind.isMark, Bool.and_eq_true, Bool.not_eq_true', bne_iff_ne, ne_eq] at hmark
  obtain ⟨⟨hkept, hnumber⟩, hstring⟩ := hmark
  unfold item
  split
  · next h _ => exact absurd (hkind.symm.trans h) hnumber
  · next h _ => exact absurd (hkind.symm.trans h) hstring
  · simp [hkind, hkept]

/-! ## The token behind an item -/

theorem eq_of_item_token {t u : Token} (h : t.item = .token u) : t = u := by
  unfold item at h
  split at h
  · cases h
  · cases h
  · split at h <;> cases h
    rfl

theorem kind_of_item_mark {t : Token} {k : TokenKind} (h : t.item = .mark k) : t.kind = k := by
  unfold item at h
  split at h
  · cases h
  · cases h
  · split at h <;> cases h
    rfl

theorem of_item_number {t : Token} {value : Binary64} (h : t.item = .literal (.number value)) :
    t.kind = .number ∧ t.literal = some (.number value) := by
  unfold item at h
  split at h
  · next hkind hvalue =>
    cases h
    exact ⟨hkind, hvalue⟩
  · cases h
  · split at h <;> cases h

theorem of_item_string {t : Token} {text : String} (h : t.item = .literal (.string text)) :
    t.kind = .string ∧ t.literal = some (.string text) := by
  unfold item at h
  split at h
  · cases h
  · next hkind htext =>
    cases h
    exact ⟨hkind, htext⟩
  · split at h <;> cases h

end Token

/-! ## Trees -/

/-- What an expression has kept. -/
def Expr.items : Expr → List Item
  | .string text => [.literal (.string text)]
  | .number value => [.literal (.number value)]
  | .bool true => [.mark .trueWord]
  | .bool false => [.mark .falseWord]
  | .nil => [.mark .nilWord]
  | .unary op arg => .token op :: arg.items
  | .binary lhs op rhs => lhs.items ++ .token op :: rhs.items
  | .logical lhs op rhs => lhs.items ++ .token op :: rhs.items
  | .conditional condition yes no =>
    condition.items ++ .mark .question :: (yes.items ++ .mark .colon :: no.items)
  | .group inner => .mark .leftParen :: (inner.items ++ [.mark .rightParen])
  | .variable name => [.token name]
  | .assign name value => .token name :: .mark .equal :: value.items
  | .missing => []

theorem Expr.items_join (p : Precedence) (lhs : Expr) (op : Token) (rhs : Expr) :
    (p.join lhs op rhs).items = lhs.items ++ .token op :: rhs.items := by
  cases p <;> rfl

mutual

/-- What a statement has kept. -/
def Stmt.items : Stmt → List Item
  | .expression e => e.items ++ [.mark .semicolon]
  | .print e => .mark .printWord :: (e.items ++ [.mark .semicolon])
  | .declare name none => [.mark .varWord, .token name, .mark .semicolon]
  | .declare name (some initial) =>
    .mark .varWord :: .token name :: .mark .equal :: (initial.items ++ [.mark .semicolon])
  | .block body => .mark .leftBrace :: (Program.items body ++ [.mark .rightBrace])
  | .ifThen condition yes =>
    .mark .ifWord :: .mark .leftParen :: (condition.items ++ .mark .rightParen :: yes.items)
  | .ifElse condition yes no =>
    .mark .ifWord :: .mark .leftParen ::
      (condition.items ++ .mark .rightParen :: (yes.items ++ .mark .elseWord :: no.items))
  | .loop condition body =>
    .mark .whileWord :: .mark .leftParen :: (condition.items ++ .mark .rightParen :: body.items)

/-- What a program has kept. -/
def Program.items : Program → List Item
  | [] => []
  | s :: ss => s.items ++ Program.items ss

end

theorem Program.items_append (p q : Program) : items (p ++ q) = items p ++ items q := by
  induction p with
  | nil => rfl
  | cons s ss ih => simp only [List.cons_append, items, ih, List.append_assoc]

end LoxSyntax
