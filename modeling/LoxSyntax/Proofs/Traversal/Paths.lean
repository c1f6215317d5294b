import LoxSyntax.Proofs.Traversal.Nodes
import Mathlib.Data.List.Flatten
import Mathlib.Data.List.Forall2
import Mathlib.Data.List.Induction

/-!
# Nodes by their paths

A node of some trees is found by a path: the number of its tree, then the number of a child at each
step down.  The nodes in the order of their paths, compared as words are, are in the order of the
text, each before what lies below it.  A traversal reaches those that lie below no node that it
stops at, and its rows are theirs, in this order.

* `nodeAt?` — the node behind a path.
* `Reached` — the nodes above which the traversal does not stop.
* **`nodeAt?_items_sublist`** — nodes in the order of their paths are in the order of the text.
* `Recorded`, **`exists_recorded`** — the rows are those of the nodes that are reached, once each
  and in order.
-/

namespace LoxSyntax

variable {stop : Tag → Bool} {ts us : List Tree} {t u : Tree} {path below : List Nat}
  {depth : Nat} {rows rowsBelow : List Row} {paths pathsBelow : List (List Nat)}

/-! ## Paths -/

/-- The node of `ts` behind a path. -/
def nodeAt? : List Tree → List Nat → Option Tree
  | _, [] => none
  | ts, i :: path => ts[i]?.bind fun t => if path = [] then some t else nodeAt? t.children path

theorem nodeAt?_root {i : Nat} (h : ts[i]? = some t) : nodeAt? ts [i] = some t := by
  simp only [nodeAt?, h, Option.bind_some, ↓reduceIte]

theorem nodeAt?_below {i : Nat} (h : ts[i]? = some t) (hpath : path ≠ []) :
    nodeAt? ts (i :: path) = nodeAt? t.children path := by
  simp only [nodeAt?, h, Option.bind_some, hpath, ↓reduceIte]

theorem nodeAt?_append (h : nodeAt? ts path = some t) : nodeAt? (ts ++ us) path = some t := by
  cases path with
  | nil => cases h
  | cons i path =>
    obtain ⟨v, hv, ht⟩ := Option.bind_eq_some_iff.1 h
    obtain ⟨hi, -⟩ := List.getElem?_eq_some_iff.1 hv
    rw [nodeAt?, List.getElem?_append_left hi, hv]
    exact ht

theorem lt_length_of_nodeAt? {i : Nat} (h : nodeAt? ts (i :: path) = some t) : i < ts.length := by
  obtain ⟨v, hv, -⟩ := Option.bind_eq_some_iff.1 h
  exact (List.getElem?_eq_some_iff.1 hv).1

/-! ## Order of the text -/

theorem items_sublist_of_getElem? {i : Nat} (h : ts[i]? = some t) :
    t.items.Sublist (ts.flatMap Tree.items) := by
  have ht : [t].Sublist ts := List.singleton_sublist.2 (List.mem_of_getElem? h)
  simpa using ht.flatMap Tree.items

/-- The text of a node is part of the text of its trees. -/
theorem items_sublist_of_nodeAt? (h : nodeAt? ts path = some t) :
    t.items.Sublist (ts.flatMap Tree.items) := by
  induction path generalizing ts with
  | nil => cases h
  | cons i path ih =>
    obtain ⟨v, hv, ht⟩ := Option.bind_eq_some_iff.1 h
    split at ht
    · cases ht
      exact items_sublist_of_getElem? hv
    · exact ((ih ht).trans v.children_items).trans (items_sublist_of_getElem? hv)

/-- The text of a node is all in front of that of a node behind it, unless the second node lies
below the first. -/
theorem nodeAt?_items_sublist {path' : List Nat} (ht : nodeAt? ts path = some t)
    (hu : nodeAt? ts path' = some u) (hlt : path < path') (habove : ¬ path <+: path') :
    (t.items ++ u.items).Sublist (ts.flatMap Tree.items) := by
  induction path generalizing ts path' with
  | nil => cases ht
  | cons i path ih =>
    rcases path' with _ | ⟨j, path'⟩
    · cases hu
    rcases List.cons_lt_cons_iff.1 hlt with hij | ⟨rfl, hrest⟩
    · have hi : nodeAt? (ts.take j) (i :: path) = some t := by
        obtain ⟨v, hv, ht⟩ := Option.bind_eq_some_iff.1 ht
        rw [nodeAt?, List.getElem?_take_of_lt hij, hv]
        exact ht
      have hj : nodeAt? (ts.drop j) (0 :: path') = some u := by
        rw [nodeAt?, List.getElem?_drop]
        exact hu
      rw [← List.take_append_drop j ts, List.flatMap_append]
      exact (items_sublist_of_nodeAt? hi).append (items_sublist_of_nodeAt? hj)
    · have hpath : path ≠ [] := fun h => habove (h ▸ List.cons_prefix_cons.2 ⟨rfl, List.nil_prefix⟩)
      have hpath' : path' ≠ [] := by
        rintro rfl
        exact List.not_lt_nil _ hrest
      obtain ⟨v, hv, -⟩ := Option.bind_eq_some_iff.1 ht
      rw [nodeAt?_below hv hpath] at ht
      rw [nodeAt?_below hv hpath'] at hu
      have hchildren := ih ht hu hrest fun h => habove (List.cons_prefix_cons.2 ⟨rfl, h⟩)
      exact (hchildren.trans v.children_items).trans (items_sublist_of_getElem? hv)

/-! ## Reached nodes -/

/-- There is a node behind the path, and the traversal stops at none of those above it. -/
def Reached (stop : Tag → Bool) (ts : List Tree) (path : List Nat) : Prop :=
  (nodeAt? ts path).isSome ∧
    ∀ above, above <+: path → above ≠ path → ∀ t, nodeAt? ts above = some t → stop t.tag = false

/-- A tree is reached, for nothing lies above it. -/
theorem reached_root {i : Nat} (h : ts[i]? = some t) : Reached stop ts [i] := by
  refine ⟨by simp [nodeAt?_root h], fun above habove hne v hv => ?_⟩
  rcases List.prefix_cons_iff.1 habove with rfl | ⟨_, rfl, hnil⟩
  · cases hv
  · exact absurd (by rw [List.prefix_nil.1 hnil]) hne

/-- What lies below a tree is reached where the traversal does not stop at the tree. -/
theorem reached_below {i : Nat} (h : ts[i]? = some t) (hpath : path ≠ []) :
    Reached stop ts (i :: path) ↔ stop t.tag = false ∧ Reached stop t.children path := by
  simp only [Reached, nodeAt?_below h hpath]
  constructor
  · rintro ⟨hsome, hopen⟩
    refine ⟨hopen [i] (List.cons_prefix_cons.2 ⟨rfl, List.nil_prefix⟩) ?_ t (nodeAt?_root h),
      hsome, fun above habove hne v hv => ?_⟩
    · exact fun heq => hpath (List.cons.inj heq).2.symm
    · have hnil : above ≠ [] := by
        rintro rfl
        cases hv
      exact hopen (i :: above) (List.cons_prefix_cons.2 ⟨rfl, habove⟩)
        (fun heq => hne (List.cons.inj heq).2) v ((nodeAt?_below h hnil).trans hv)
  · rintro ⟨hstop, hsome, hopen⟩
    refine ⟨hsome, fun above habove hne v hv => ?_⟩
    rcases List.prefix_cons_iff.1 habove with rfl | ⟨above, rfl, hbetween⟩
    · cases hv
    by_cases hnil : above = []
    · subst hnil
      cases (nodeAt?_root h).symm.trans hv
      exact hstop
    · rw [nodeAt?_below h hnil] at hv
      exact hopen above hbetween (fun heq => hne (heq ▸ rfl)) v hv

theorem reached_cons {i : Nat} (h : ts[i]? = some t) :
    Reached stop ts (i :: path) ↔
      path = [] ∨ stop t.tag = false ∧ Reached stop t.children path := by
  by_cases hpath : path = []
  · subst hpath
    exact iff_of_true (reached_root h) (.inl rfl)
  · rw [reached_below h hpath, or_iff_right hpath]

theorem Reached.lt_length {i : Nat} (h : Reached stop ts (i :: path)) : i < ts.length := by
  obtain ⟨v, hv⟩ := Option.isSome_iff_exists.1 h.1
  exact lt_length_of_nodeAt? hv

theorem Reached.ne_nil (h : Reached stop ts path) : path ≠ [] := by
  rintro rfl
  exact absurd h.1 (by simp [nodeAt?])

/-- With one more tree, the nodes of that tree are reached besides those reached before. -/
theorem reached_concat :
    Reached stop (ts ++ [t]) path ↔
      Reached stop ts path ∨ ∃ below, path = ts.length :: below ∧
        (below = [] ∨ stop t.tag = false ∧ Reached stop t.children below) := by
  cases path with
  | nil => simp [Reached, nodeAt?]
  | cons i path =>
    have hlast : (ts ++ [t])[ts.length]? = some t := List.getElem?_concat_length
    simp only [List.cons.injEq]
    constructor
    · intro h
      rcases Nat.lt_or_eq_of_le (Nat.le_of_lt_succ (by simpa using h.lt_length)) with hi | rfl
      · have hv := List.getElem?_eq_getElem hi
        exact .inl ((reached_cons hv).2 ((reached_cons (List.getElem?_append_left hi ▸ hv)).1 h))
      · exact .inr ⟨path, ⟨rfl, rfl⟩, (reached_cons hlast).1 h⟩
    · rintro (h | ⟨_, ⟨rfl, rfl⟩, h⟩)
      · have hi := h.lt_length
        have hv := List.getElem?_eq_getElem hi
        exact (reached_cons (List.getElem?_append_left hi ▸ hv)).2 ((reached_cons hv).1 h)
      · exact (reached_cons hlast).2 h

/-! ## Recorded nodes -/

/-- The rows are those of the nodes that are reached, in the order of their paths and once each, at
the depth of a node below its trees. -/
structure Recorded (stop : Tag → Bool) (ts : List Tree) (depth : Nat) (paths : List (List Nat))
    (rows : List Row) : Prop where
  ordered : paths.Pairwise (· < ·)
  mem_iff : ∀ path, path ∈ paths ↔ Reached stop ts path
  matched : List.Forall₂
    (fun path row => ∃ t, nodeAt? ts path = some t ∧ row = t.row (depth + path.tail.length))
    paths rows

theorem Recorded.nil : Recorded stop [] depth [] [] where
  ordered := .nil
  mem_iff path := by cases path <;> simp [Reached, nodeAt?]
  matched := .nil

/-- One more tree adds its own row and, unless the traversal stops there, those of its children. -/
theorem Recorded.concat (h : Recorded stop ts depth paths rows)
    (ht : Recorded stop t.children (depth + 1) pathsBelow rowsBelow) :
    Recorded stop (ts ++ [t]) depth
      (paths ++ [ts.length] :: if stop t.tag then [] else pathsBelow.map (ts.length :: ·))
      (rows ++ (t.row depth).above stop rowsBelow) := by
  have hlast : (ts ++ [t])[ts.length]? = some t := List.getElem?_concat_length
  have hmem (path : List Nat) :
      path ∈ (if stop t.tag then [] else pathsBelow.map (ts.length :: ·)) ↔
        ∃ below, path = ts.length :: below ∧
          stop t.tag = false ∧ Reached stop t.children below := by
    cases stop t.tag <;> simp [ht.mem_iff, and_comm, eq_comm]
  refine ⟨?ordered, fun path => ?mem_iff, ?matched⟩
  case ordered =>
    refine List.pairwise_append.2 ⟨h.ordered, List.pairwise_cons.2 ⟨fun path hpath => ?_, ?_⟩, ?_⟩
    · obtain ⟨below, rfl, -, hbelow⟩ := (hmem path).1 hpath
      obtain ⟨j, below, rfl⟩ := List.exists_cons_of_ne_nil hbelow.ne_nil
      exact List.cons_lt_cons_iff.2 (.inr ⟨rfl, List.nil_lt_cons j below⟩)
    · split
      · exact .nil
      · exact List.pairwise_map.2 <| ht.ordered.imp fun hlt =>
          List.cons_lt_cons_iff.2 (.inr ⟨rfl, hlt⟩)
    · intro path hpath path' hpath'
      have hreached := (h.mem_iff path).1 hpath
      obtain ⟨i, path, rfl⟩ := List.exists_cons_of_ne_nil hreached.ne_nil
      obtain ⟨below, rfl⟩ : ∃ below, path' = ts.length :: below := by
        rcases List.mem_cons.1 hpath' with rfl | hpath'
        · exact ⟨[], rfl⟩
        · obtain ⟨below, rfl, -⟩ := (hmem path').1 hpath'
          exact ⟨below, rfl⟩
      exact List.cons_lt_cons_iff.2 (.inl hreached.lt_length)
  case mem_iff =>
    rw [reached_concat, List.mem_append, List.mem_cons, h.mem_iff, hmem]
    simp only [and_or_left, exists_or, exists_eq_right]
  case matched =>
    refine List.rel_append (h.matched.imp ?_) (.cons ⟨t, nodeAt?_root hlast, rfl⟩ ?_)
    · rintro path row ⟨v, hv, rfl⟩
      exact ⟨v, nodeAt?_append hv, rfl⟩
    · show List.Forall₂ _ _ (if stop t.tag then [] else rowsBelow)
      split
      · exact .nil
      · refine List.forall₂_map_left_iff.2 (ht.matched.imp ?_)
        rintro path row ⟨v, hv, rfl⟩
        rcases path with _ | ⟨j, path⟩
        · cases hv
        refine ⟨v, (nodeAt?_below hlast (List.cons_ne_nil j path)).trans hv, ?_⟩
        simp only [List.tail_cons, List.length_cons, Nat.add_right_comm, Nat.add_assoc]

theorem exists_recorded_of_children
    (h : ∀ t ∈ ts, ∃ paths, Recorded stop t.children (depth + 1) paths
      (t.children.flatMap fun u => u.rows stop (depth + 1))) :
    ∃ paths, Recorded stop ts depth paths (ts.flatMap fun t => t.rows stop depth) := by
  induction ts using List.reverseRecOn with
  | nil => exact ⟨[], .nil⟩
  | append_singleton ts t ih =>
    obtain ⟨paths, hpaths⟩ := ih fun u hu => h u (List.mem_append_left _ hu)
    obtain ⟨pathsBelow, hbelow⟩ := h t (List.mem_append_right _ (List.mem_singleton_self t))
    rw [List.flatMap_append, List.flatMap_singleton, Tree.rows_eq]
    exact ⟨_, hpaths.concat hbelow⟩

/-- The rows of some trees are those of the nodes that are reached. -/
theorem exists_recorded (stop : Tag → Bool) (ts : List Tree) (depth : Nat) :
    ∃ paths, Recorded stop ts depth paths (ts.flatMap fun t => t.rows stop depth) := by
  refine exists_recorded_of_children fun t _ => ?_
  clear * -
  induction t using Tree.inductionOn generalizing depth with
  | node t ih => exact exists_recorded_of_children fun u hu => ih u hu (depth + 1)

end LoxSyntax
