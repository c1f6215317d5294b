import LoxSyntax.Proofs.Session.Calls
import LoxSyntax.Proofs.Tree.Items
import LoxSyntax.Tree.Rows

/-!
# The nodes of a tree

What lies directly below a node are its children, and what is true of a node if it is true of its
children is true of all nodes.  The order of the children is that of the text, and a node is known
by what it is, what it holds besides its children, and the children.

* `Tree.children` — the children of a node.
* `Tree.inductionOn` — induction from the children to the node.
* `Tree.rows_eq` — the rows of a node are its own and those of its children.
* `Tree.children_items` — the children in the order of their text.
* **`Tree.eq_of_children`** — a node is known by its row and its children.
* `Tree.number_mem_items`, `Program.number_mem_items` — the nodes that hold numbers.
-/

namespace LoxSyntax

/-! ## Children -/

/-- The children of an expression. -/
def Expr.children : Expr → List Expr
  | .unary _ arg => [arg]
  | .binary lhs _ rhs | .logical lhs _ rhs => [lhs, rhs]
  | .conditional condition yes no => [condition, yes, no]
  | .group inner => [inner]
  | .assign _ value => [value]
  | .string _ | .number _ | .bool _ | .nil | .variable _ | .missing => []

/-- The children of a statement. -/
def Stmt.children : Stmt → List Tree
  | .expression e | .print e => [.expression e]
  | .declare _ initial => initial.toList.map .expression
  | .block body => body.map .statement
  | .ifThen condition yes => [.expression condition, .statement yes]
  | .ifElse condition yes no => [.expression condition, .statement yes, .statement no]
  | .loop condition body => [.expression condition, .statement body]

namespace Tree

def children : Tree → List Tree
  | expression e => e.children.map .expression
  | statement s => s.children

def tag : Tree → Tag
  | expression e => e.tag
  | statement s => s.tag

def detail : Tree → Detail
  | expression e => e.detail
  | statement s => s.detail

def row (depth : Nat) (t : Tree) : Row :=
  ⟨depth, t.tag, t.detail⟩

/-- The rows of a tree at `depth`. -/
def rows (stop : Tag → Bool) (depth : Nat) : Tree → List Row
  | expression e => e.rows stop depth
  | statement s => s.rows stop depth

/-- What a tree has kept of its text. -/
def items : Tree → List Item
  | expression e => e.items
  | statement s => s.items

/-! ## From the children to the node -/

variable {t u : Tree}

theorem sizeOf_lt_of_mem_children (h : u ∈ t.children) : sizeOf u < sizeOf t := by
  rcases t with e | s
  · obtain ⟨e', he', rfl⟩ := List.mem_map.1 h
    suffices sizeOf e' < sizeOf e by simpa using this
    cases e <;> simp only [Expr.children, List.mem_cons, List.not_mem_nil, or_false] at he'
    case unary | group | assign => subst he'; simp <;> omega
    case binary | logical => rcases he' with rfl | rfl <;> simp <;> omega
    case conditional => rcases he' with rfl | rfl | rfl <;> simp <;> omega
  · cases s with
    | expression e | print e =>
      obtain rfl := List.mem_singleton.1 h
      simp
    | declare name initial =>
      obtain ⟨e, he, rfl⟩ := List.mem_map.1 h
      obtain rfl : initial = some e := by simpa using he
      simp
      omega
    | block body =>
      obtain ⟨s, hs, rfl⟩ := List.mem_map.1 h
      have := List.sizeOf_lt_of_mem hs
      simp
      omega
    | ifThen condition yes | loop condition body =>
      simp only [children, Stmt.children, List.mem_cons, List.not_mem_nil, or_false] at h
      rcases h with rfl | rfl <;> simp <;> omega
    | ifElse condition yes no =>
      simp only [children, Stmt.children, List.mem_cons, List.not_mem_nil, or_false] at h
      rcases h with rfl | rfl | rfl <;> simp <;> omega

/-- What is true of a node if it is true of its children is true of all nodes. -/
@[elab_as_elim]
theorem inductionOn {motive : Tree → Prop} (t : Tree)
    (node : ∀ t, (∀ u ∈ t.children, motive u) → motive t) : motive t :=
  node t fun u hu =>
    have := sizeOf_lt_of_mem_children hu
    inductionOn u node
termination_by sizeOf t

/-! ## Rows and text by children -/

theorem rowsAt_eq (stop : Tag → Bool) (depth : Nat) (p : Program) :
    Program.rowsAt stop depth p = (p.map statement).flatMap fun t => t.rows stop depth := by
  rw [Program.rowsAt_eq_flatMap, List.flatMap_map]
  rfl

/-- The rows of a node are its own and, unless it is stopped at, those of its children. -/
theorem rows_eq (stop : Tag → Bool) (depth : Nat) (t : Tree) :
    t.rows stop depth =
      (t.row depth).above stop (t.children.flatMap fun u => u.rows stop (depth + 1)) := by
  rcases t with e | s
  · cases e <;> simp [rows, row, children, Expr.children, Expr.rows, Expr.rowsBelow, Expr.row, tag,
      detail]
  · cases s with
    | declare name initial =>
      cases initial <;> simp [rows, row, children, Stmt.children, Stmt.rows, Stmt.rowsBelow,
        Stmt.row, tag, detail]
    | block body =>
      simp only [rows, row, children, Stmt.children, Stmt.rows, Stmt.rowsBelow, Stmt.row, tag,
        detail, rowsAt_eq]
    | _ => simp [rows, row, children, Stmt.children, Stmt.rows, Stmt.rowsBelow, Stmt.row, tag,
        detail]

theorem items_eq (p : Program) : Program.items p = (p.map statement).flatMap items := by
  induction p with
  | nil => rfl
  | cons s ss ih => rw [Program.items, ih, List.map_cons, List.flatMap_cons, items]

/-- The children of a node stand one behind the other in its text. -/
theorem children_items (t : Tree) : (t.children.flatMap items).Sublist t.items := by
  rcases t with e | s
  · cases e <;> simp [children, Expr.children, items, Expr.items]
  · have mark_between {k : TokenKind} (xs ys : List Item) :
        (xs ++ ys).Sublist (xs ++ .mark k :: ys) :=
      (List.sublist_cons_self _ _).append_left xs
    cases s with
    | expression e | print e => simp [children, Stmt.children, items, Stmt.items]
    | declare name initial =>
      cases initial with
      | none => exact List.nil_sublist _
      | some e =>
        simp only [children, Stmt.children, items, Stmt.items, Option.toList_some, List.map_cons,
          List.map_nil, List.flatMap_singleton]
        exact (((List.sublist_append_left _ _).cons _).cons _).cons _
    | block body => simp [children, Stmt.children, items, Stmt.items, items_eq]
    | ifThen condition yes | loop condition body =>
      simp only [children, Stmt.children, items, Stmt.items, List.flatMap_cons, List.flatMap_nil,
        List.append_nil]
      exact ((mark_between _ _).cons _).cons _
    | ifElse condition yes no =>
      simp only [children, Stmt.children, items, Stmt.items, List.flatMap_cons, List.flatMap_nil,
        List.append_nil]
      exact ((((mark_between _ _).append_left _).trans (mark_between _ _)).cons _).cons _

/-! ## A node by its children -/

theorem expression_eq {e e' : Expr} (htag : e.tag = e'.tag) (hdetail : e.detail = e'.detail)
    (hchildren : e.children = e'.children) : e = e' := by
  cases e <;> cases e' <;> simp_all [Expr.tag, Expr.detail, Expr.children]

theorem statement_eq {s s' : Stmt} (htag : s.tag = s'.tag) (hdetail : s.detail = s'.detail)
    (hchildren : s.children = s'.children) : s = s' := by
  cases s with
  | declare name initial =>
    cases s' with
    | declare name' initial' =>
      cases initial <;> cases initial' <;> simp_all [Stmt.detail, Stmt.children]
    | _ => cases htag
  | block body =>
    cases s' with
    | block body' =>
      exact congrArg _ ((List.map_inj_right fun _ _ => statement.inj).1 hchildren)
    | _ => cases htag
  | _ => cases s' <;> simp_all [Stmt.tag, Stmt.detail, Stmt.children]

/-- What a node is tells statements from expressions. -/
theorem tag_ne (e : Expr) (s : Stmt) : e.tag ≠ s.tag := by
  cases e <;> cases s <;> nofun

/-- A node is known by what it is, what it holds and its children. -/
theorem eq_of_children (htag : t.tag = u.tag) (hdetail : t.detail = u.detail)
    (hchildren : t.children = u.children) : t = u := by
  cases t with
  | expression e =>
    cases u with
    | expression e' =>
      have hchildren := (List.map_inj_right fun _ _ => expression.inj).1 hchildren
      exact congrArg _ (expression_eq htag hdetail hchildren)
    | statement s => exact absurd htag (tag_ne e s)
  | statement s =>
    cases u with
    | expression e => exact absurd htag.symm (tag_ne e s)
    | statement s' => exact congrArg _ (statement_eq htag hdetail hchildren)

end Tree

/-! ## What is kept of nodes -/

section Kept

variable {stop : Tag → Bool} {value : Binary64} {d depth : Nat}

theorem Row.mem_above {row r : Row} {below : List Row} (h : r ∈ row.above stop below) :
    r = row ∨ r ∈ below := by
  refine (List.mem_cons.1 h).imp_right fun hbelow => ?_
  split at hbelow
  · exact absurd hbelow List.not_mem_nil
  · exact hbelow

/-- A tree has kept the number of every node in it that holds one. -/
theorem Tree.number_mem_items {t : Tree}
    (h : ⟨d, .number, .number value⟩ ∈ t.rows stop depth) :
    .literal (.number value) ∈ t.items := by
  induction t using Tree.inductionOn generalizing depth with
  | node t ih =>
    rw [rows_eq] at h
    rcases Row.mem_above h with heq | hbelow
    · rcases t with e | s
      · cases e <;> cases heq
        exact List.mem_singleton_self _
      · cases s <;> cases heq
    · obtain ⟨u, hu, hbelow⟩ := List.mem_flatMap.1 hbelow
      exact t.children_items.mem (List.mem_flatMap.2 ⟨u, hu, ih u hu hbelow⟩)

theorem Program.number_mem_items (p : Program)
    (h : ⟨d, .number, .number value⟩ ∈ Program.rowsAt stop depth p) :
    .literal (.number value) ∈ Program.items p := by
  rw [Tree.rowsAt_eq] at h
  obtain ⟨t, ht, hnode⟩ := List.mem_flatMap.1 h
  rw [Tree.items_eq]
  exact List.mem_flatMap.2 ⟨t, ht, Tree.number_mem_items hnode⟩

end Kept

end LoxSyntax
