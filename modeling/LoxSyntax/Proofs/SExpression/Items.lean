import LoxSyntax.Proofs.Tree.Lines

/-!
# S-expressions as lists of items

An S-expression is made of parentheses, heads, names and literals.  It can be read in one way only:
its head tells the node, except that `-` stands for two of them and that a declaration, an `if` and
a block may have more members or fewer; there the closing parenthesis tells, for no member begins
with one.

* `Expr.sexprItems`, `Stmt.sexprItems`, `Program.sexprItems` — what an S-expression is made of.
* `Program.sexprItems_unlined` — the same without lines.
* **`Expr.readsOnce`**, **`Stmt.readsOnce`** — unique readability: what comes behind an S-expression
  is told apart from it, and the tree is told by it.
-/

namespace LoxSyntax

/-! ## What an S-expression is made of -/

/-- A head that is a word, such as `group`. -/
def Item.word (text : String) : Item :=
  .token ⟨.identifier, text, 0, none⟩

/-- The items of an expression's S-expression. -/
def Expr.sexprItems : Expr → List Item
  | .string text => [.literal (.string text)]
  | .number value => [.literal (.number value)]
  | .bool true => [.mark .trueWord]
  | .bool false => [.mark .falseWord]
  | .nil => [.mark .nilWord]
  | .unary op arg => .mark .leftParen :: .token op :: (arg.sexprItems ++ [.mark .rightParen])
  | .binary lhs op rhs =>
    .mark .leftParen :: .token op :: (lhs.sexprItems ++ (rhs.sexprItems ++ [.mark .rightParen]))
  | .logical lhs op rhs =>
    .mark .leftParen :: .token op :: (lhs.sexprItems ++ (rhs.sexprItems ++ [.mark .rightParen]))
  | .conditional condition yes no =>
    .mark .leftParen :: .mark .question :: .mark .colon ::
      (condition.sexprItems ++ (yes.sexprItems ++ (no.sexprItems ++ [.mark .rightParen])))
  | .group inner =>
    .mark .leftParen :: .word "group" :: (inner.sexprItems ++ [.mark .rightParen])
  | .variable name => [.token name]
  | .assign name value =>
    .mark .leftParen :: .mark .equal :: .token name ::
      (value.sexprItems ++ [.mark .rightParen])
  | .missing =>
    [.token ⟨.less, "<", 0, none⟩, .word "error", .token ⟨.greater, ">", 0, none⟩]

mutual

/-- The items of a statement's S-expression. -/
def Stmt.sexprItems : Stmt → List Item
  | .expression e => .mark .leftParen :: .word "expr" :: (e.sexprItems ++ [.mark .rightParen])
  | .print e => .mark .leftParen :: .mark .printWord :: (e.sexprItems ++ [.mark .rightParen])
  | .declare name none => [.mark .leftParen, .mark .varWord, .token name, .mark .rightParen]
  | .declare name (some initial) =>
    .mark .leftParen :: .mark .varWord :: .token name ::
      (initial.sexprItems ++ [.mark .rightParen])
  | .block body =>
    .mark .leftParen :: .word "block" :: (Program.sexprItems body ++ [.mark .rightParen])
  | .ifThen condition yes =>
    .mark .leftParen :: .mark .ifWord ::
      (condition.sexprItems ++ (yes.sexprItems ++ [.mark .rightParen]))
  | .ifElse condition yes no =>
    .mark .leftParen :: .mark .ifWord ::
      (condition.sexprItems ++ (yes.sexprItems ++ (no.sexprItems ++ [.mark .rightParen])))
  | .loop condition body =>
    .mark .leftParen :: .mark .whileWord ::
      (condition.sexprItems ++ (body.sexprItems ++ [.mark .rightParen]))

/-- The items of several S-expressions. -/
def Program.sexprItems : Program → List Item
  | [] => []
  | s :: ss => s.sexprItems ++ Program.sexprItems ss

end

/-! ## Without lines -/

namespace Item

@[simp] theorem unlined_token (t : Token) : (token t).unlined = token t.unlined := rfl

@[simp] theorem unlined_literal (value : Literal) : (literal value).unlined = literal value := rfl

@[simp] theorem unlined_mark (k : TokenKind) : (mark k).unlined = mark k := rfl

@[simp] theorem unlined_word (text : String) : (word text).unlined = word text := rfl

end Item

theorem Expr.sexprItems_unlined (e : Expr) :
    e.unlined.sexprItems = e.sexprItems.map Item.unlined := by
  induction e with
  | bool value => cases value <;> rfl
  | missing => rfl
  | _ => simp_all [unlined, sexprItems]

mutual

theorem Stmt.sexprItems_unlined (s : Stmt) :
    s.unlined.sexprItems = s.sexprItems.map Item.unlined := by
  match s with
  | .expression e | .print e | .declare _ (some e) =>
    simp [Stmt.unlined, Stmt.sexprItems, e.sexprItems_unlined]
  | .declare _ none => rfl
  | .block body => simp [Stmt.unlined, Stmt.sexprItems, Program.sexprItems_unlined body]
  | .ifThen condition yes =>
    simp [Stmt.unlined, Stmt.sexprItems, condition.sexprItems_unlined,
      Stmt.sexprItems_unlined yes]
  | .ifElse condition yes no =>
    simp [Stmt.unlined, Stmt.sexprItems, condition.sexprItems_unlined,
      Stmt.sexprItems_unlined yes, Stmt.sexprItems_unlined no]
  | .loop condition body =>
    simp [Stmt.unlined, Stmt.sexprItems, condition.sexprItems_unlined,
      Stmt.sexprItems_unlined body]

theorem Program.sexprItems_unlined (p : Program) :
    Program.sexprItems (Program.unlined p) = (Program.sexprItems p).map Item.unlined := by
  match p with
  | [] => rfl
  | s :: ss =>
    simp only [Program.unlined, Program.sexprItems, Stmt.sexprItems_unlined s,
      Program.sexprItems_unlined ss, List.map_append]

end

/-! ## Expressions are read in one way -/

namespace Expr

variable {e f : Expr} {r s : List Item}

/-- No expression begins with a closing parenthesis. -/
theorem sexprItems_append_ne (e : Expr) (r s : List Item) :
    e.sexprItems ++ r ≠ .mark .rightParen :: s := by
  cases e with
  | bool value => cases value <;> simp [sexprItems]
  | _ => simp [sexprItems]

/-! ### Nodes by their heads -/

section Heads

variable (f)

/-- An operator is the head of a node with one operand or with two. -/
theorem of_operator {op : Token} (hop : op.kind ≠ .identifier)
    (h : .mark .leftParen :: .token op :: r = f.sexprItems ++ s) :
    (∃ arg, f = .unary op arg ∧ r = arg.sexprItems ++ .mark .rightParen :: s) ∨
      ∃ lhs rhs, (f = .binary lhs op rhs ∨ f = .logical lhs op rhs) ∧
        r = lhs.sexprItems ++ (rhs.sexprItems ++ .mark .rightParen :: s) := by
  cases f with
  | bool value => cases value <;> simp [sexprItems] at h
  | group inner =>
    simp only [sexprItems, List.cons_append, List.cons.injEq, Item.word, Item.token.injEq] at h
    exact absurd (congrArg Token.kind h.2.1) hop
  | unary op' arg =>
    simp only [sexprItems, List.cons_append, List.cons.injEq, Item.token.injEq, true_and] at h
    obtain ⟨rfl, rfl⟩ := h
    exact .inl ⟨arg, rfl, List.append_assoc ..⟩
  | binary lhs op' rhs | logical lhs op' rhs =>
    simp only [sexprItems, List.cons_append, List.cons.injEq, Item.token.injEq, true_and] at h
    obtain ⟨rfl, rfl⟩ := h
    exact .inr ⟨lhs, rhs, by simp⟩
  | _ => simp [sexprItems] at h

theorem of_question (h : .mark .leftParen :: .mark .question :: r = f.sexprItems ++ s) :
    ∃ condition yes no, f = .conditional condition yes no ∧
      r = .mark .colon :: (condition.sexprItems ++
        (yes.sexprItems ++ (no.sexprItems ++ .mark .rightParen :: s))) := by
  cases f with
  | bool value => cases value <;> simp [sexprItems] at h
  | conditional condition yes no =>
    simp only [sexprItems, List.cons_append, List.append_assoc, List.cons.injEq, true_and] at h
    exact ⟨condition, yes, no, rfl, h⟩
  | _ => simp [sexprItems, Item.word] at h

theorem of_equal (h : .mark .leftParen :: .mark .equal :: r = f.sexprItems ++ s) :
    ∃ name value, f = .assign name value ∧
      r = .token name :: (value.sexprItems ++ .mark .rightParen :: s) := by
  cases f with
  | bool value => cases value <;> simp [sexprItems] at h
  | assign name value =>
    simp only [sexprItems, List.cons_append, List.append_assoc, List.cons.injEq, true_and] at h
    exact ⟨name, value, rfl, h⟩
  | _ => simp [sexprItems, Item.word] at h

variable {f}

/-- The word `group` is no operator. -/
theorem of_group (hf : f.isNormal)
    (h : .mark .leftParen :: .word "group" :: r = f.sexprItems ++ s) :
    ∃ inner, f = .group inner ∧ r = inner.sexprItems ++ .mark .rightParen :: s := by
  cases f with
  | bool value => cases value <;> simp [sexprItems] at h
  | unary op arg | binary lhs op rhs | logical lhs op rhs =>
    simp only [sexprItems, List.cons_append, List.cons.injEq, Item.word, Item.token.injEq] at h
    rw [← h.2.1] at hf
    simp [isNormal, TokenKind.isUnary, TokenKind.precedence?] at hf
  | group inner =>
    simp only [sexprItems, List.cons_append, List.append_assoc, List.cons.injEq, true_and] at h
    exact ⟨inner, rfl, h⟩
  | _ => simp [sexprItems, Item.word] at h

end Heads

/-- Wherever the items of the expression begin a list, no other expression's do. -/
def ReadsOnce (e : Expr) : Prop :=
  ∀ ⦃f : Expr⦄ ⦃r s : List Item⦄, e.isNormal → f.isNormal →
    e.sexprItems ++ r = f.sexprItems ++ s → e = f ∧ r = s

theorem readsOnce_unary {op : Token} {arg : Expr} (ih : arg.ReadsOnce) :
    (unary op arg).ReadsOnce := by
  intro f r s he hf h
  simp only [isNormal, Bool.and_eq_true] at he
  have hop : op.kind ≠ .identifier := fun hkind => by simp [hkind, TokenKind.isUnary] at he
  simp only [sexprItems, List.cons_append, List.append_assoc] at h
  obtain ⟨arg', rfl, hrest⟩ | ⟨lhs, rhs, hnode, hrest⟩ := of_operator f hop h
  · simp only [isNormal, Bool.and_eq_true] at hf
    obtain ⟨rfl, hend⟩ := ih he.1.2 hf.1.2 hrest
    exact ⟨rfl, (List.cons.inj hend).2⟩
  · -- the second operand would have to begin with the parenthesis
    have hlhs : lhs.isNormal := by rcases hnode with rfl | rfl <;> simp_all [isNormal]
    obtain ⟨-, hend⟩ := ih he.1.2 hlhs hrest
    exact absurd hend.symm (rhs.sexprItems_append_ne _ _)

/-- The operator of two operands tells which node it makes of them. -/
theorem readsOnce_join {lhs rhs : Expr} {op : Token} (ihl : lhs.ReadsOnce) (ihr : rhs.ReadsOnce)
    (hnode : e = .binary lhs op rhs ∨ e = .logical lhs op rhs) : e.ReadsOnce := by
  intro f r s he hf h
  obtain ⟨p, hp, rfl⟩ := exists_join_of_isNormal hnode he
  rw [isNormal_join hp, Bool.and_eq_true, Bool.and_eq_true] at he
  have hop : op.kind ≠ .identifier := fun hkind => by simp [hkind, TokenKind.precedence?] at hp
  have hitems : (p.join lhs op rhs).sexprItems ++ r = .mark .leftParen :: .token op ::
      (lhs.sexprItems ++ (rhs.sexprItems ++ .mark .rightParen :: r)) := by
    rcases hnode with hnode | hnode <;> simp [hnode, sexprItems]
  rw [hitems] at h
  obtain ⟨arg, rfl, hrest⟩ | ⟨lhs', rhs', hnode', hrest⟩ := of_operator f hop h
  · simp only [isNormal, Bool.and_eq_true] at hf
    obtain ⟨-, hend⟩ := ihl he.1.1 hf.1.2 hrest
    exact absurd hend (rhs.sexprItems_append_ne _ _)
  · obtain ⟨p', hp', rfl⟩ := exists_join_of_isNormal hnode' hf
    obtain rfl : p = p' := Option.some.inj (hp.symm.trans hp')
    rw [isNormal_join hp, Bool.and_eq_true, Bool.and_eq_true] at hf
    obtain ⟨rfl, hrhs⟩ := ihl he.1.1 hf.1.1 hrest
    obtain ⟨rfl, hend⟩ := ihr he.1.2 hf.1.2 hrhs
    exact ⟨rfl, (List.cons.inj hend).2⟩

/-- An expression is told apart from whatever comes behind it, and told by its items. -/
theorem readsOnce (e : Expr) : e.ReadsOnce := by
  induction e with
  | unary op arg ih => exact readsOnce_unary ih
  | binary lhs op rhs ihl ihr => exact readsOnce_join ihl ihr (.inl rfl)
  | logical lhs op rhs ihl ihr => exact readsOnce_join ihl ihr (.inr rfl)
  | conditional condition yes no ihc ihy ihn =>
    intro f r s he hf h
    simp only [sexprItems, List.cons_append, List.append_assoc] at h
    obtain ⟨condition', yes', no', rfl, hrest⟩ := of_question f h
    simp only [isNormal, Bool.and_eq_true] at he hf
    obtain ⟨rfl, hyes⟩ := ihc he.1.1.1 hf.1.1.1 (List.cons.inj hrest).2
    obtain ⟨rfl, hno⟩ := ihy he.1.1.2 hf.1.1.2 hyes
    obtain ⟨rfl, hend⟩ := ihn he.1.2 hf.1.2 hno
    exact ⟨rfl, (List.cons.inj hend).2⟩
  | group inner ih =>
    intro f r s he hf h
    simp only [sexprItems, List.cons_append, List.append_assoc] at h
    obtain ⟨inner', rfl, hrest⟩ := of_group hf h
    have hinner' : inner'.isNormal := hf
    obtain ⟨rfl, hend⟩ := ih he hinner' hrest
    exact ⟨rfl, (List.cons.inj hend).2⟩
  | assign name value ih =>
    intro f r s he hf h
    simp only [sexprItems, List.cons_append, List.append_assoc] at h
    obtain ⟨name', value', rfl, hrest⟩ := of_equal f h
    simp only [isNormal, Bool.and_eq_true] at he hf
    simp only [List.cons.injEq, Item.token.injEq] at hrest
    obtain ⟨rfl, hrest⟩ := hrest
    obtain ⟨rfl, hend⟩ := ih he.1.2 hf.1.2 hrest
    exact ⟨rfl, (List.cons.inj hend).2⟩
  -- the others are atoms, told by their first item
  | bool value =>
    intro f r s _ _ h
    cases f with
    | bool value' => cases value <;> cases value' <;> simp_all [sexprItems]
    | _ => cases value <;> simp [sexprItems] at h
  | missing =>
    intro f r s _ hf h
    cases f with
    | bool value => cases value <;> simp [sexprItems] at h
    | «variable» name =>
      simp only [sexprItems, List.cons_append, List.cons.injEq, Item.token.injEq] at h
      rw [isNormal, ← h.1] at hf
      cases hf
    | _ => simp_all [sexprItems]
  | «variable» name =>
    intro f r s he _ h
    cases f with
    | bool value => cases value <;> simp [sexprItems] at h
    | missing =>
      simp only [sexprItems, List.cons_append, List.cons.injEq, Item.token.injEq] at h
      rw [isNormal, h.1] at he
      cases he
    | _ => simp_all [sexprItems]
  | string _ | number _ | nil =>
    intro f r s _ _ h
    cases f with
    | bool value => cases value <;> simp [sexprItems] at h
    | _ => simp_all [sexprItems]

end Expr

/-! ## Statements are read in one way -/

namespace Stmt

variable {s t : Stmt} {r r' : List Item}

/-- The item behind the parenthesis that every statement begins with. -/
def head : Stmt → Item
  | .expression _ => .word "expr"
  | .print _ => .mark .printWord
  | .declare .. => .mark .varWord
  | .block _ => .word "block"
  | .ifThen .. | .ifElse .. => .mark .ifWord
  | .loop .. => .mark .whileWord

theorem exists_sexprItems (s : Stmt) :
    ∃ is, s.sexprItems = .mark .leftParen :: s.head :: is := by
  rcases s with _ | _ | ⟨_, _ | _⟩ | _ | _ | _ | _ <;> exact ⟨_, rfl⟩

theorem head_eq (h : s.sexprItems ++ r = t.sexprItems ++ r') : s.head = t.head := by
  obtain ⟨is, hs⟩ := s.exists_sexprItems
  obtain ⟨js, ht⟩ := t.exists_sexprItems
  rw [hs, ht] at h
  exact (List.cons.inj (List.cons.inj h).2).1

/-- What begins with no opening parenthesis is no beginning of a statement. -/
theorem sexprItems_append_ne (s : Stmt) (hr : r.head? ≠ some (.mark .leftParen)) :
    s.sexprItems ++ r' ≠ r := by
  rintro rfl
  obtain ⟨is, hs⟩ := s.exists_sexprItems
  simp [hs] at hr

end Stmt

mutual

/-- A statement is told apart from whatever comes behind it, and told by its items. -/
theorem Stmt.readsOnce (s : Stmt) {t : Stmt} {r r' : List Item} (hs : s.isNormal)
    (ht : t.isNormal) (h : s.sexprItems ++ r = t.sexprItems ++ r') : s = t ∧ r = r' := by
  have hhead := Stmt.head_eq h
  match s with
  | .expression e =>
    cases t with
    | expression f =>
      simp only [Stmt.sexprItems, List.cons_append, List.append_assoc, List.cons.injEq,
        true_and] at h
      obtain ⟨rfl, hend⟩ := e.readsOnce hs ht h
      exact ⟨rfl, (List.cons.inj hend).2⟩
    | _ => simp [Stmt.head, Item.word] at hhead
  | .print e =>
    cases t with
    | print f =>
      simp only [Stmt.sexprItems, List.cons_append, List.append_assoc, List.cons.injEq,
        true_and] at h
      obtain ⟨rfl, hend⟩ := e.readsOnce hs ht h
      exact ⟨rfl, (List.cons.inj hend).2⟩
    | _ => simp [Stmt.head, Item.word] at hhead
  | .declare name o =>
    cases t with
    | declare name' o' =>
      -- whether there is a value is told by the parenthesis, with which no expression begins
      cases o with
      | none =>
        cases o' with
        | none => simp_all [Stmt.sexprItems]
        | some f =>
          simp only [Stmt.sexprItems, List.cons_append, List.append_assoc, List.cons.injEq,
            true_and] at h
          exact absurd h.2.symm (f.sexprItems_append_ne _ _)
      | some e =>
        cases o' with
        | none =>
          simp only [Stmt.sexprItems, List.cons_append, List.append_assoc, List.cons.injEq,
            true_and] at h
          exact absurd h.2 (e.sexprItems_append_ne _ _)
        | some f =>
          simp only [Stmt.sexprItems, List.cons_append, List.append_assoc, List.cons.injEq,
            Item.token.injEq, true_and] at h
          simp only [Stmt.isNormal, Bool.and_eq_true] at hs ht
          obtain ⟨rfl, hrest⟩ := h
          obtain ⟨rfl, hend⟩ := e.readsOnce hs.2 ht.2 hrest
          exact ⟨rfl, (List.cons.inj hend).2⟩
    | _ => simp [Stmt.head, Item.word] at hhead
  | .block body =>
    cases t with
    | block body' =>
      simp only [Stmt.sexprItems, List.cons_append, List.append_assoc, List.cons.injEq,
        true_and] at h
      obtain ⟨rfl, hend⟩ := Program.readsOnce body hs ht (by simp) (by simp) h
      exact ⟨rfl, (List.cons.inj hend).2⟩
    | _ => simp [Stmt.head, Item.word] at hhead
  | .ifThen condition yes =>
    cases t with
    | ifThen condition' yes' =>
      simp only [Stmt.isNormal, Bool.and_eq_true] at hs ht
      simp only [Stmt.sexprItems, List.cons_append, List.append_assoc, List.cons.injEq,
        true_and] at h
      obtain ⟨rfl, hyes⟩ := condition.readsOnce hs.1.1 ht.1.1 h
      obtain ⟨rfl, hend⟩ := Stmt.readsOnce yes hs.1.2 ht.1.2 hyes
      exact ⟨rfl, (List.cons.inj hend).2⟩
    | ifElse condition' yes' no' =>
      simp only [Stmt.isNormal, Bool.and_eq_true] at hs ht
      simp only [Stmt.sexprItems, List.cons_append, List.append_assoc, List.cons.injEq,
        true_and] at h
      obtain ⟨rfl, hyes⟩ := condition.readsOnce hs.1.1 ht.1.1.1.1.1 h
      obtain ⟨rfl, hend⟩ := Stmt.readsOnce yes hs.1.2 ht.1.1.1.1.2 hyes
      exact absurd hend.symm (no'.sexprItems_append_ne (by simp))
    | _ => simp [Stmt.head, Item.word] at hhead
  | .ifElse condition yes no =>
    cases t with
    | ifThen condition' yes' =>
      simp only [Stmt.isNormal, Bool.and_eq_true] at hs ht
      simp only [Stmt.sexprItems, List.cons_append, List.append_assoc, List.cons.injEq,
        true_and] at h
      obtain ⟨rfl, hyes⟩ := condition.readsOnce hs.1.1.1.1.1 ht.1.1 h
      obtain ⟨rfl, hend⟩ := Stmt.readsOnce yes hs.1.1.1.1.2 ht.1.2 hyes
      exact absurd hend (no.sexprItems_append_ne (by simp))
    | ifElse condition' yes' no' =>
      simp only [Stmt.isNormal, Bool.and_eq_true] at hs ht
      simp only [Stmt.sexprItems, List.cons_append, List.append_assoc, List.cons.injEq,
        true_and] at h
      obtain ⟨rfl, hyes⟩ := condition.readsOnce hs.1.1.1.1.1 ht.1.1.1.1.1 h
      obtain ⟨rfl, hno⟩ := Stmt.readsOnce yes hs.1.1.1.1.2 ht.1.1.1.1.2 hyes
      obtain ⟨rfl, hend⟩ := Stmt.readsOnce no hs.1.1.1.2 ht.1.1.1.2 hno
      exact ⟨rfl, (List.cons.inj hend).2⟩
    | _ => simp [Stmt.head, Item.word] at hhead
  | .loop condition body =>
    cases t with
    | loop condition' body' =>
      simp only [Stmt.isNormal, Bool.and_eq_true] at hs ht
      simp only [Stmt.sexprItems, List.cons_append, List.append_assoc, List.cons.injEq,
        true_and] at h
      obtain ⟨rfl, hbody⟩ := condition.readsOnce hs.1.1 ht.1.1 h
      obtain ⟨rfl, hend⟩ := Stmt.readsOnce body hs.1.2 ht.1.2 hbody
      exact ⟨rfl, (List.cons.inj hend).2⟩
    | _ => simp [Stmt.head, Item.word] at hhead

/-- Statements are told apart from what begins no statement, and told by their items. -/
theorem Program.readsOnce (p : Program) {q : Program} {r r' : List Item} (hp : Program.isNormal p)
    (hq : Program.isNormal q) (hr : r.head? ≠ some (.mark .leftParen))
    (hr' : r'.head? ≠ some (.mark .leftParen))
    (h : Program.sexprItems p ++ r = Program.sexprItems q ++ r') : p = q ∧ r = r' := by
  match p, q with
  | [], [] => exact ⟨rfl, h⟩
  | [], t :: ts =>
    simp only [Program.sexprItems, List.append_assoc] at h
    exact absurd h.symm (t.sexprItems_append_ne hr)
  | s :: ss, [] =>
    simp only [Program.sexprItems, List.append_assoc] at h
    exact absurd h (s.sexprItems_append_ne hr')
  | s :: ss, t :: ts =>
    simp only [Program.isNormal, Bool.and_eq_true] at hp hq
    simp only [Program.sexprItems, List.append_assoc] at h
    obtain ⟨rfl, hrest⟩ := Stmt.readsOnce s hp.1 hq.1 h
    obtain ⟨rfl, hend⟩ := Program.readsOnce ss hp.2 hq.2 hr hr' hrest
    exact ⟨rfl, hend⟩

end

end LoxSyntax
