import LoxSyntax.Proofs.Rule.Passage

/-!
# Where a failure is raised

A rule fails because one of its steps does.  The run gets there over some cursors, and what happens
on the way ends in the report of that step.  All the rules around the step fail then as well, and do
nothing else: they close the levels that they opened, read nothing and report nothing.

* `Rule.Raises` — the cursors that a run passes on the way to the step that fails, and what happens.
* `Rule.Widens.exists_raises` — every failure is raised somewhere.
* `Rule.Raises.path` — the way there.
* **`Rule.Raises.reply`** — nothing is read, and nothing happens, on the way back.
* **`Rule.Raises.exists_passes`** — the whole run.
-/

namespace LoxSyntax

namespace Rule

variable {α β : Type} {rule : Rule α} {c d : Cursor} {ds : List Cursor} {ev : List Event}

/-- A step that fails reads nothing. -/
theorem Step.cursor_of_none (h : Step rule) (hnone : (rule c).result = none) :
    (rule c).cursor = c := by
  cases h with
  | eat? accepts =>
    rcases hts : c.unread with _ | ⟨t, ts⟩
    · simp [Rule.eat?, hts] at hnone
    · by_cases ht : accepts t.kind <;> simp [Rule.eat?, hts, ht] at hnone
  | failAt | fail => rfl
  | _ => cases hnone

/-- `rule.Raises c ds d ev`: a run of the rule from `c` passes `ds` up to `d`, where a step of it
fails.  That step reports why, as the last event of `ev`, which is what happens up to there. -/
inductive Raises : {α : Type} → Rule α → Cursor → List Cursor → Cursor → List Event → Prop
  | step {α : Type} {rule : Rule α} {c : Cursor} (h : Step rule) (hnone : (rule c).result = none) :
      Raises rule c [] c (rule c).events
  | first {α β : Type} {rule : Rule α} {next : α → Rule β} {c d : Cursor} {ds : List Cursor}
      {ev : List Event} (h : Raises rule c ds d ev) : Raises (rule >>= next) c ds d ev
  | behind {α β : Type} {rule : Rule α} {next : α → Rule β} {c d : Cursor} {ds es : List Cursor}
      {ev : List Event} {a : α} (hrule : Passes rule c ds) (hsome : (rule c).result = some a)
      (h : Raises (next a) (rule c).cursor es d ev) :
      Raises (rule >>= next) c (ds ++ es) d ((rule c).events ++ ev)
  | full {α : Type} (rule : Rule α) {c : Cursor} (h : ¬ c.depth < c.ceiling) :
      Raises (nested rule) c [] c [.diagnosed ⟨.tooMuchNesting, c.toPlace⟩]
  | nested {α : Type} {rule : Rule α} {c d : Cursor} {ds : List Cursor} {ev : List Event}
      (hlt : c.depth < c.ceiling) (h : Raises rule c.deeper ds d ev) :
      Raises (nested rule) c (c.deeper :: ds) d ev

/-- Every failure is raised somewhere. -/
theorem Widens.exists_raises {rule rule' : Rule α} (h : Widens rule rule') {c : Cursor}
    (hnone : (rule c).result = none) : ∃ ds d ev, Raises rule c ds d ev := by
  induction h generalizing c with
  | step h => exact ⟨_, _, _, .step h hnone⟩
  | cut => exact ⟨_, _, _, .step (.fail rfl) rfl⟩
  | @bind α β rule rule' next next' hrule _ ih₁ ih₂ =>
    cases hresult : (rule c).result with
    | none =>
      obtain ⟨ds, d, ev, h⟩ := ih₁ hresult
      exact ⟨ds, d, ev, .first h⟩
    | some a =>
      obtain ⟨ds, hds⟩ := hrule.exists_passes c
      rw [bind_reply, hresult] at hnone
      obtain ⟨es, d, ev, h⟩ := ih₂ a hnone
      exact ⟨_, d, _, .behind hds hresult h⟩
  | @nested α rule rule' _ ih =>
    by_cases hlt : c.depth < c.ceiling
    · rw [nested_of_lt rule hlt] at hnone
      obtain ⟨ds, d, ev, h⟩ := ih hnone
      exact ⟨_, d, ev, .nested hlt h⟩
    · exact ⟨_, _, _, .full rule hlt⟩
  | recovered _ _ =>
    rw [recovered_reply] at hnone
    split at hnone <;> cases hnone

namespace Raises

/-- The way to the step that fails. -/
theorem path (h : Raises rule c ds d ev) : c.Path ds d := by
  induction h with
  | step | full => exact .nil _
  | first _ ih => exact ih
  | behind hrule _ _ ih => exact hrule.path.append ih
  | nested hlt _ ih => exact .cons (.deepen hlt) ih

/-- On the way to the step that fails no token is read twice. -/
theorem unread_suffix (h : Raises rule c ds d ev) : d.unread <:+ c.unread := by
  induction h with
  | step | full => exact List.suffix_refl _
  | first _ ih | nested _ _ ih => exact ih
  | @behind α β rule next c d ds es ev a hrule _ _ ih =>
    obtain ⟨-, us, hus, hcursor⟩ := hrule.path_and_upTo
    rw [hcursor, Cursor.upTo_unread] at ih
    exact ih.trans hus

/-- What is raised is a problem that ends a rule. -/
theorem exists_concat (h : Raises rule c ds d ev) :
    ∃ before diagnostic, ev = before ++ [.diagnosed diagnostic] ∧
      diagnostic.problem.isStructural = true := by
  induction h with
  | step h hnone => exact h.exists_concat _ hnone
  | first _ ih | nested _ _ ih => exact ih
  | behind _ _ _ ih =>
    obtain ⟨before, diagnostic, rfl, hstructural⟩ := ih
    exact ⟨_ ++ before, diagnostic, (List.append_assoc ..).symm, hstructural⟩
  | full => exact ⟨[], _, rfl, rfl⟩

/-- The rules around the step that fails close the levels they opened, read nothing and report
nothing. -/
theorem reply (h : Raises rule c ds d ev) : rule c = ⟨none, c.upTo d.unread, ev⟩ := by
  induction h with
  | @step α rule c h hnone =>
    rcases hreply : rule c with ⟨result, c', ev⟩
    obtain rfl : result = none := by rw [hreply] at hnone; exact hnone
    obtain rfl : c' = c := by simpa [hreply] using h.cursor_of_none hnone
    rfl
  | first _ ih => exact bind_of_none ih
  | @behind α β rule next c d ds es ev a hrule hsome _ ih =>
    obtain ⟨-, us, -, hcursor⟩ := hrule.path_and_upTo
    rw [hcursor, Cursor.upTo_upTo] at ih
    rw [bind_reply, hsome, hcursor]
    simp only [ih]
  | full rule h => exact nested_of_not_lt rule h
  | nested hlt _ ih =>
    rw [nested_of_lt _ hlt, ih]
    rfl

/-- The run goes on from the step that fails without a move to another token. -/
theorem exists_passes (h : Raises rule c ds d ev) :
    ∃ unwound, Passes rule c (ds ++ unwound) ∧ ∀ e ∈ unwound, e.unread = d.unread := by
  induction h with
  | @step α rule c h hnone =>
    refine ⟨[(rule c).cursor], .step h c, fun e he => ?_⟩
    rw [List.mem_singleton.1 he, h.cursor_of_none hnone]
  | first h ih =>
    obtain ⟨unwound, hpasses, hunread⟩ := ih
    exact ⟨unwound, .failed hpasses (congrArg Reply.result h.reply), hunread⟩
  | behind hrule hsome _ ih =>
    obtain ⟨unwound, hpasses, hunread⟩ := ih
    exact ⟨unwound, List.append_assoc .. ▸ .bind hrule hsome hpasses, hunread⟩
  | @full α rule c h => exact ⟨[c], .full rule h, fun e he => by rw [List.mem_singleton.1 he]⟩
  | @nested α rule c d ds ev hlt h ih =>
    obtain ⟨unwound, hpasses, hunread⟩ := ih
    refine ⟨unwound ++ [(rule c.deeper).cursor.shallower], ?_, fun e he => ?_⟩
    · simpa using Passes.nested hlt hpasses
    · rcases List.mem_append.1 he with he | he
      · exact hunread e he
      · rw [List.mem_singleton.1 he, h.reply]
        rfl

end Raises

end Rule

end LoxSyntax
