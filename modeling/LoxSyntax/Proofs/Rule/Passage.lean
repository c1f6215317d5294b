import LoxSyntax.Proofs.Rule.Widening

/-!
# What a run passes

A rule is made of steps, so a run of it passes one cursor after another, also where it fails half
way and where recovery skips tokens.  From each of these cursors to the next there is no more than
one move: a token is read, or a level is opened or closed, or the cursor stays.

* `Cursor.Moves`, `Cursor.Path` — moves, and several moves in a row.
* `Cursor.resumption` — the cursors that recovery passes.
* `Rule.Passes` — the cursors that a run passes, one for each step that the rule is made of.
* `Rule.Widens.exists_passes` — every run of a rule of the grammar passes some cursors.
* **`Rule.Passes.path`** — they are a path to the cursor that the rule leaves.
-/

namespace LoxSyntax

namespace Cursor

/-! ## Moves -/

/-- The same cursor with a level closed. -/
def shallower (c : Cursor) : Cursor :=
  { c with depth := c.depth - 1 }

/-- A cursor stays, reads a token, or opens or closes a level.  A level is opened only below the
ceiling, and only an open one is closed. -/
inductive Moves : Cursor → Cursor → Prop
  | stay (c : Cursor) : Moves c c
  | read {c : Cursor} {t : Token} {ts : List Token} (h : c.unread = t :: ts) : Moves c (c.upTo ts)
  | deepen {c : Cursor} (h : c.depth < c.ceiling) : Moves c c.deeper
  | close {c : Cursor} (h : 0 < c.depth) : Moves c c.shallower

/-- Moves from one cursor to another, over the cursors in between and the last one. -/
inductive Path : Cursor → List Cursor → Cursor → Prop
  | nil (c : Cursor) : Path c [] c
  | cons {c d c' : Cursor} {ds : List Cursor} (h : Moves c d) (hrest : Path d ds c') :
      Path c (d :: ds) c'

namespace Path

variable {c c' c'' : Cursor} {ds es : List Cursor}

theorem single (h : Moves c c') : Path c [c'] c' :=
  .cons h (.nil c')

theorem append (h : Path c ds c') (h' : Path c' es c'') : Path c (ds ++ es) c'' := by
  induction h with
  | nil => exact h'
  | cons hmove _ ih => exact .cons hmove (ih h')

end Path

/-! ## Recovery -/

/-- The cursors behind each token that is skipped up to the next statement. -/
def skips (c : Cursor) (skipped : Token) : List Token → List Cursor
  | [] => []
  | t :: rest =>
    if skipped.kind = .semicolon ∨ t.kind.startsStatement then []
    else c.upTo rest :: c.skips t rest

/-- The cursors that recovery passes, one behind each token that it skips. -/
def resumption (c : Cursor) : List Cursor :=
  match c.unread with
  | [] => []
  | t :: rest => c.upTo rest :: c.skips t rest

theorem skips_path (c : Cursor) (skipped : Token) (ts : List Token) :
    Path (c.upTo ts) (c.skips skipped ts) (c.upTo (Place.skipToStatement skipped ts)) := by
  induction ts generalizing skipped with
  | nil => exact .nil _
  | cons t ts ih =>
    rw [skips, Place.skipToStatement]
    split
    · exact .nil _
    · exact .cons (.read (c.upTo_unread _)) (ih t)

/-- Recovery reads one token after another. -/
theorem resumption_path (c : Cursor) :
    Path c c.resumption { c with toPlace := c.toPlace.resume } := by
  rcases hc : c.unread with _ | ⟨t, ts⟩
  · have hstay : ({ c with toPlace := c.toPlace.resume } : Cursor) = c := by
      simp only [Place.resume, hc]
    rw [hstay, resumption, hc]
    exact .nil c
  · have hresume : ({ c with toPlace := c.toPlace.resume } : Cursor) =
        c.upTo (Place.skipToStatement t ts) := by
      simp only [Place.resume, hc, upTo]
    rw [hresume, resumption, hc]
    exact .cons (.read hc) (c.skips_path t ts)

end Cursor

namespace Rule

variable {α β : Type}

/-! ## Runs -/

/-- A run of the rule passes these cursors, the last of which it leaves: one for each step that the
rule is made of, one for each level that is opened or closed, and one for each token that recovery
skips. -/
inductive Passes : {α : Type} → Rule α → Cursor → List Cursor → Prop
  | step {α : Type} {rule : Rule α} (h : Step rule) (c : Cursor) :
      Passes rule c [(rule c).cursor]
  | failed {α β : Type} {rule : Rule α} {next : α → Rule β} {c : Cursor} {ds : List Cursor}
      (h : Passes rule c ds) (hnone : (rule c).result = none) : Passes (rule >>= next) c ds
  | bind {α β : Type} {rule : Rule α} {next : α → Rule β} {c : Cursor} {ds es : List Cursor}
      {a : α} (h : Passes rule c ds) (hsome : (rule c).result = some a)
      (hnext : Passes (next a) (rule c).cursor es) : Passes (rule >>= next) c (ds ++ es)
  | full {α : Type} (rule : Rule α) {c : Cursor} (h : ¬ c.depth < c.ceiling) :
      Passes (nested rule) c [c]
  | nested {α : Type} {rule : Rule α} {c : Cursor} {ds : List Cursor} (hlt : c.depth < c.ceiling)
      (h : Passes rule c.deeper ds) :
      Passes (nested rule) c (c.deeper :: ds ++ [(rule c.deeper).cursor.shallower])
  | succeeded {α : Type} {rule : Rule α} {c : Cursor} {ds : List Cursor} {a : α}
      (h : Passes rule c ds) (hsome : (rule c).result = some a) : Passes (recovered rule) c ds
  | resumed {α : Type} {rule : Rule α} {c : Cursor} {ds : List Cursor}
      (h : Passes rule c ds) (hnone : (rule c).result = none) :
      Passes (recovered rule) c (ds ++ (rule c).cursor.resumption)

/-- Every run passes some cursors. -/
theorem Widens.exists_passes {rule rule' : Rule α} (h : Widens rule rule') (c : Cursor) :
    ∃ ds, Passes rule c ds := by
  induction h generalizing c with
  | step h => exact ⟨_, .step h c⟩
  | cut => exact ⟨_, .step (.fail rfl) c⟩
  | @bind α β rule rule' next next' _ _ ih₁ ih₂ =>
    obtain ⟨ds, hds⟩ := ih₁ c
    cases hresult : (rule c).result with
    | none => exact ⟨ds, .failed hds hresult⟩
    | some a =>
      obtain ⟨es, hes⟩ := ih₂ a (rule c).cursor
      exact ⟨ds ++ es, .bind hds hresult hes⟩
  | @nested α rule rule' _ ih =>
    by_cases hlt : c.depth < c.ceiling
    · obtain ⟨ds, hds⟩ := ih c.deeper
      exact ⟨_, .nested hlt hds⟩
    · exact ⟨_, .full rule hlt⟩
  | @recovered α rule rule' _ ih =>
    obtain ⟨ds, hds⟩ := ih c
    cases hresult : (rule c).result with
    | none => exact ⟨_, .resumed hds hresult⟩
    | some a => exact ⟨ds, .succeeded hds hresult⟩

/-- A step moves at most once. -/
theorem Step.moves {rule : Rule α} (h : Step rule) (c : Cursor) : c.Moves (rule c).cursor := by
  cases h with
  | skip =>
    change c.Moves (c.upTo c.unread.tail)
    cases hc : c.unread with
    | nil =>
      have hstay : c.upTo [] = c := congrArg c.upTo hc.symm
      rw [List.tail_nil, hstay]
      exact .stay c
    | cons t ts => exact .read hc
  | eat? accepts =>
    by_cases h : ∃ t ts, c.unread = t :: ts ∧ accepts t.kind
    · obtain ⟨t, ts, hts, ht⟩ := h
      rw [eat?_of_accepts hts ht]
      exact .read hts
    · have hnot : ∀ t ts, c.unread = t :: ts → accepts t.kind = false := by
        intro t ts hts
        simpa using fun ht => h ⟨t, ts, hts, ht⟩
      rw [eat?_of_not_accepts hnot]
      exact .stay c
  | _ => exact .stay c

namespace Passes

variable {rule : Rule α} {c : Cursor} {ds : List Cursor}

/-- A run moves at most once from each cursor that it passes to the next, up to the one it leaves.
The levels opened on the way are closed, and no token is read twice. -/
theorem path_and_upTo (h : Passes rule c ds) :
    c.Path ds (rule c).cursor ∧ ∃ us, us <:+ c.unread ∧ (rule c).cursor = c.upTo us := by
  induction h with
  | step h c => exact ⟨.single (h.moves c), h.exists_upTo c⟩
  | @failed α β rule next c ds _ hnone ih =>
    rw [bind_reply, hnone]
    exact ih
  | @bind α β rule next c ds es a _ hsome _ ih ih' =>
    obtain ⟨hpath, us, hus, hcursor⟩ := ih
    obtain ⟨hpath', vs, hvs, hcursor'⟩ := ih'
    rw [bind_reply, hsome]
    refine ⟨hpath.append hpath', vs, ?_, ?_⟩
    · rw [hcursor] at hvs
      exact hvs.trans hus
    · rw [hcursor', hcursor]
      rfl
  | @full α rule c hfull =>
    rw [nested_of_not_lt rule hfull]
    exact ⟨.single (.stay c), c.unread, List.suffix_refl _, rfl⟩
  | @nested α rule c ds hlt _ ih =>
    obtain ⟨hpath, us, hus, hcursor⟩ := ih
    rw [nested_of_lt rule hlt]
    refine ⟨?_, us, hus, ?_⟩
    · have hopen : 0 < (rule c.deeper).cursor.depth := by
        rw [hcursor]
        exact Nat.succ_pos c.depth
      exact .cons (.deepen hlt) (hpath.append (.single (.close hopen)))
    · rw [Reply.shallower, hcursor]
      rfl
  | @succeeded α rule c ds a _ hsome ih =>
    rw [recovered_reply, hsome]
    exact ih
  | @resumed α rule c ds _ hnone ih =>
    obtain ⟨hpath, us, hus, hcursor⟩ := ih
    rw [recovered_reply, hnone]
    refine ⟨hpath.append (Cursor.resumption_path _), (c.upTo us).toPlace.resume.unread, ?_, ?_⟩
    · exact (Place.resume_unread_suffix _).trans ((List.tail_suffix us).trans hus)
    · rw [hcursor, Place.resume_eq]
      rfl

/-- The cursors that a run passes are a path to the cursor that it leaves. -/
theorem path (h : Passes rule c ds) : c.Path ds (rule c).cursor :=
  h.path_and_upTo.1

end Passes

end Rule

end LoxSyntax
