import LoxSyntax.Proofs.Traversal.Paths

/-!
# The rows of a program

What lies below a node is recorded behind its row, in rows of a greater depth, up to the next row
that is no deeper than its own.  So to stop at a node leaves out the rows between the two, and
where nothing is left out the depths tell the whole shape of a program.

* `Row.pruned` — rows without those below a row that is stopped at.
* `Tree.pruned_append` — stopping while the rows are recorded, or leaving rows out afterwards.
* `Tree.rows_append_inj` — a tree and the rows behind it told apart.
* **`Program.rows_recorded`** — the rows of a program are those of the nodes that are reached, and
  all of its rows determine it.
-/

namespace LoxSyntax

variable {stop : Tag → Bool} {depth : Nat} {t u : Tree} {ts us : List Tree} {rest rest' : List Row}

/-! ## Rows and what is behind them -/

/-- The first of some rows is less deep than `depth`. -/
def Row.Shallow (depth : Nat) (rows : List Row) : Prop :=
  ∀ r ∈ rows.head?, r.depth < depth

namespace Tree

/-- The rows of a tree begin with its own. -/
theorem head?_rows (stop : Tag → Bool) (depth : Nat) (t : Tree) :
    (t.rows stop depth).head? = some (t.row depth) := by
  rw [rows_eq]
  rfl

theorem le_depth_of_mem_rows {r : Row} (h : r ∈ t.rows stop depth) : depth ≤ r.depth := by
  induction t using Tree.inductionOn generalizing depth with
  | node t ih =>
    rw [rows_eq] at h
    rcases Row.mem_above h with rfl | h
    · exact Nat.le_refl depth
    · obtain ⟨u, hu, h⟩ := List.mem_flatMap.1 h
      exact Nat.le_of_succ_le (ih u hu h)

/-- The rows of some trees at `depth`, and those behind them, are no deeper at first. -/
theorem shallow_flatMap_append (stop : Tag → Bool) (ts : List Tree)
    (h : Row.Shallow depth rest) :
    Row.Shallow (depth + 1) ((ts.flatMap fun t => t.rows stop depth) ++ rest) := by
  intro r hr
  cases ts with
  | nil => exact Nat.lt_succ_of_lt (h r hr)
  | cons t ts =>
    rw [List.flatMap_cons, List.append_assoc, List.head?_append, head?_rows] at hr
    cases hr
    exact Nat.lt_succ_self depth

end Tree

/-! ## Leaving rows out -/

/-- Rows without those below a row that is stopped at. -/
def Row.pruned (stop : Tag → Bool) : List Row → List Row
  | [] => []
  | r :: rows =>
    r :: pruned stop (if stop r.tag then rows.dropWhile (r.depth < ·.depth) else rows)
termination_by rows => rows.length
decreasing_by
  split
  · exact Nat.lt_succ_of_le (List.dropWhile_sublist _).length_le
  · exact Nat.lt_succ_self _

namespace Tree

/-- The rows of some trees are those below a row that is less deep. -/
theorem dropWhile_flatMap_append (ts : List Tree) (h : Row.Shallow (depth + 1) rest) :
    ((ts.flatMap fun t => t.rows stop (depth + 1)) ++ rest).dropWhile (depth < ·.depth) = rest := by
  rw [List.dropWhile_append_of_pos]
  · cases rest with
    | nil => rfl
    | cons r rest =>
      have hr : r.depth ≤ depth := Nat.le_of_lt_succ (h r rfl)
      exact List.dropWhile_cons_of_neg (by simpa using hr)
  · intro r hr
    obtain ⟨t, -, hr⟩ := List.mem_flatMap.1 hr
    exact decide_eq_true (le_depth_of_mem_rows hr)

theorem pruned_flatMap_append
    (h : ∀ t ∈ ts, ∀ {rest}, Row.Shallow (depth + 1) rest →
      Row.pruned stop (t.rows (fun _ => false) depth ++ rest) =
        t.rows stop depth ++ Row.pruned stop rest)
    (hrest : Row.Shallow depth rest) :
    Row.pruned stop ((ts.flatMap fun t => t.rows (fun _ => false) depth) ++ rest) =
      (ts.flatMap fun t => t.rows stop depth) ++ Row.pruned stop rest := by
  induction ts with
  | nil => rfl
  | cons t ts ih =>
    simp only [List.flatMap_cons, List.append_assoc]
    rw [h t List.mem_cons_self (shallow_flatMap_append _ ts hrest),
      ih fun u hu => h u (List.mem_cons_of_mem t hu)]

/-- To leave rows out of all rows of a tree is to stop while they are recorded. -/
theorem pruned_append (stop : Tag → Bool) (t : Tree) (hrest : Row.Shallow (depth + 1) rest) :
    Row.pruned stop (t.rows (fun _ => false) depth ++ rest) =
      t.rows stop depth ++ Row.pruned stop rest := by
  induction t using Tree.inductionOn generalizing depth rest with
  | node t ih =>
    rw [rows_eq, rows_eq]
    simp only [Row.above, Bool.false_eq_true, ↓reduceIte, List.cons_append]
    rw [Row.pruned]
    congr 1
    split
    · exact congrArg _ (dropWhile_flatMap_append t.children hrest)
    · exact pruned_flatMap_append (fun u hu {_} => ih u hu) hrest

/-! ## Telling trees from rows -/

/-- Rows that begin less deep than a tree do not begin with those of the tree. -/
theorem rows_append_ne (hrest : Row.Shallow depth rest) :
    rest ≠ t.rows stop depth ++ rest' := by
  rintro rfl
  have hlt := hrest (t.row depth) (by rw [List.head?_append, head?_rows]; rfl)
  exact Nat.lt_irrefl depth hlt

theorem flatMap_append_inj
    (h : ∀ t ∈ ts, ∀ {u rest rest'}, Row.Shallow (depth + 1) rest → Row.Shallow (depth + 1) rest' →
      t.rows (fun _ => false) depth ++ rest = u.rows (fun _ => false) depth ++ rest' →
      t = u ∧ rest = rest')
    (hrest : Row.Shallow depth rest) (hrest' : Row.Shallow depth rest')
    (heq : (ts.flatMap fun t => t.rows (fun _ => false) depth) ++ rest =
      (us.flatMap fun u => u.rows (fun _ => false) depth) ++ rest') :
    ts = us ∧ rest = rest' := by
  induction ts generalizing us with
  | nil =>
    cases us with
    | nil => exact ⟨rfl, heq⟩
    | cons u us =>
      rw [List.flatMap_cons, List.append_assoc] at heq
      exact absurd heq (rows_append_ne hrest)
  | cons t ts ih =>
    cases us with
    | nil =>
      rw [List.flatMap_cons, List.append_assoc] at heq
      exact absurd heq.symm (rows_append_ne hrest')
    | cons u us =>
      rw [List.flatMap_cons, List.flatMap_cons, List.append_assoc, List.append_assoc] at heq
      obtain ⟨rfl, hrows⟩ := h t List.mem_cons_self (shallow_flatMap_append _ ts hrest)
        (shallow_flatMap_append _ us hrest') heq
      obtain ⟨rfl, rfl⟩ := ih (fun v hv => h v (List.mem_cons_of_mem t hv)) hrows
      exact ⟨rfl, rfl⟩

/-- All rows of a tree, and where they end, determine the tree. -/
theorem rows_append_inj (hrest : Row.Shallow (depth + 1) rest)
    (hrest' : Row.Shallow (depth + 1) rest')
    (heq : t.rows (fun _ => false) depth ++ rest = u.rows (fun _ => false) depth ++ rest') :
    t = u ∧ rest = rest' := by
  induction t using Tree.inductionOn generalizing u depth rest rest' with
  | node t ih =>
    rw [rows_eq, rows_eq] at heq
    simp only [Row.above, Bool.false_eq_true, ↓reduceIte, List.cons_append, List.cons.injEq] at heq
    obtain ⟨hrow, hbelow⟩ := heq
    obtain ⟨-, htag, hdetail⟩ := Row.mk.inj hrow
    obtain ⟨hchildren, hrows⟩ :=
      flatMap_append_inj (fun v hv {_ _ _} => ih v hv) hrest hrest' hbelow
    exact ⟨eq_of_children htag hdetail hchildren, hrows⟩

end Tree

/-! ## Programs -/

/-- Whatever kinds of node a traversal stops at, its rows are those of the nodes that lie below no
node of these kinds, each once, at its depth, before what lies below it and otherwise in the order
of the text; they are all rows without those below a node that is stopped at.  If the traversal
stops nowhere, the rows determine the program. -/
theorem Program.rows_recorded (p : Program) :
    (∀ stop, (∃ paths, Recorded stop (p.map .statement) 0 paths (p.rows stop)) ∧
      p.rows stop = Row.pruned stop (p.rows fun _ => false)) ∧
      (∀ path path' t u, nodeAt? (p.map .statement) path = some t →
        nodeAt? (p.map .statement) path' = some u → path < path' → ¬ path <+: path' →
        (t.items ++ u.items).Sublist p.items) ∧
      ∀ q : Program, (q.rows fun _ => false) = (p.rows fun _ => false) ↔ q = p := by
  have hrows (stop : Tag → Bool) (p : Program) :
      p.rows stop = ((p.map Tree.statement).flatMap fun t => t.rows stop 0) ++ [] := by
    rw [List.append_nil]
    exact Tree.rowsAt_eq stop 0 p
  have hnil : Row.Shallow 0 [] := fun _ h => nomatch h
  refine ⟨fun stop => ⟨?recorded, ?pruned⟩, ?ordered,
    fun q => ⟨fun heq => ?determined, fun heq => congrArg _ heq⟩⟩
  case recorded =>
    rw [hrows, List.append_nil]
    exact exists_recorded stop _ 0
  case pruned =>
    rw [hrows, hrows, Tree.pruned_flatMap_append (fun t _ {_} => Tree.pruned_append stop t) hnil,
      Row.pruned]
  case ordered =>
    intro path path' t u ht hu hlt habove
    exact Tree.items_eq p ▸ nodeAt?_items_sublist ht hu hlt habove
  case determined =>
    rw [hrows, hrows] at heq
    obtain ⟨hstatements, -⟩ := Tree.flatMap_append_inj (fun _ _ {_ _ _} => Tree.rows_append_inj)
      hnil hnil heq
    exact (List.map_inj_right fun _ _ => Tree.statement.inj).1 hstatements

/-- The program `print (true); print nil;`. -/
def groupProgram : Program :=
  [.print (.group (.bool true)), .print .nil]

/-- A traversal that stops at groups leaves `true` out and goes on with what is behind it. -/
theorem groupProgram_recorded :
    groupProgram.rows (· == .group) =
        [⟨0, .print, .none⟩, ⟨1, .group, .none⟩, ⟨0, .print, .none⟩, ⟨1, .nil, .none⟩] ∧
      (∃ paths, Recorded (· == .group) (groupProgram.map .statement) 0 paths
        (groupProgram.rows (· == .group))) ∧
      (Tree.items (.expression (.group (.bool true))) ++
        Tree.items (.statement (.print .nil))).Sublist groupProgram.items := by
  obtain ⟨hrows, hordered, -⟩ := groupProgram.rows_recorded
  have htext := hordered [0, 0] [1] _ _ rfl rfl (by decide) (by decide)
  exact ⟨by decide, (hrows _).1, htext⟩

end LoxSyntax
