import LoxSyntax.Proofs.Reading.Statement
import LoxSyntax.Proofs.Rule.Reply

/-!
# The declarations of a program

A program is a loop: it attempts one declaration after another, each from where the one before has
stopped, until nothing is left.  Its statements are those of the attempts that could be read, and
what happens on the way is what happens in the attempts.

* `Grammar.Attempts` — the places where the declarations of a program begin.
* `Grammar.exists_attempts` — every attempt reads a token, so the loop ends.
* **`Grammar.Attempts.program_result`**, `Grammar.Attempts.program_events` — a program by its
  attempts.
-/

namespace LoxSyntax

namespace Grammar

open Rule

/-- A declaration or a statement, without recovery. -/
def declared (expr : Rule Expr) (stmt : Rule Stmt) : Rule Stmt := do
  if ← eat .varWord then variableDeclaration expr else stmt

/-- What a declaration replies, but for the recovery. -/
theorem declarationOf_reply (expr : Rule Expr) (stmt : Rule Stmt) (c : Cursor) :
    declarationOf expr stmt c =
      { recovered (declared expr stmt) c with
        events := .declaring c.toPlace :: (recovered (declared expr stmt) c).events } := by
  rw [declarationOf, place_bind, note_bind]
  rfl

/-- From `c` on, declarations begin at these places, and behind the last of them nothing is left. -/
inductive Attempts : Cursor → List Cursor → Prop
  | done {c} (stop : nextKind c.unread = .eof) : Attempts c []
  | next {c ds} (start : nextKind c.unread ≠ .eof) (rest : Attempts (declaration c).cursor ds) :
      Attempts c (c :: ds)

/-- The statement that the attempt of a declaration gives, if it can be read. -/
def attempted (d : Cursor) : Option Stmt :=
  (declaration d).result.join

/-- What a declaration replies before it recovers. -/
def unrecovered (d : Cursor) : Reply Stmt :=
  declared (atRoom d.room .expression) (statementAt d.room) d

theorem declaration_of_some {d : Cursor} {s : Stmt} (h : (unrecovered d).result = some s) :
    declaration d = ⟨some (some s), (unrecovered d).cursor,
      .declaring d.toPlace :: (unrecovered d).events⟩ := by
  rw [declaration, declarationOf_reply, recovered_reply]
  change (declared (atRoom d.room .expression) (statementAt d.room) d).result = some s at h
  rw [h]
  rfl

/-- A declaration that cannot be read is left out. -/
theorem declaration_of_none {d : Cursor} (h : (unrecovered d).result = none) :
    declaration d = ⟨some none,
      { (unrecovered d).cursor with toPlace := (unrecovered d).cursor.toPlace.resume },
      .declaring d.toPlace ::
        ((unrecovered d).events ++ [.recovering (unrecovered d).cursor.toPlace])⟩ := by
  rw [declaration, declarationOf_reply, recovered_reply]
  change (declared (atRoom d.room .expression) (statementAt d.room) d).result = none at h
  rw [h]
  rfl

theorem attempted_eq (d : Cursor) : attempted d = (unrecovered d).result := by
  cases h : (unrecovered d).result with
  | some s => rw [attempted, declaration_of_some h]; rfl
  | none => rw [attempted, declaration_of_none h]; rfl

/-- A declaration is read or left out, and in front of the end a token is read for it. -/
theorem exists_gives_declaration (c : Cursor) :
    ∃ o us ev, declaration.Gives c o (c.upTo us) ev ∧ us <:+ c.unread ∧
      (c.unread ≠ [] → us.length < c.unread.length) := by
  obtain ⟨o, c', ev, hgives⟩ :=
    exists_gives_declarationOf (atRoom c.room .expression) (statementAt c.room) c
  obtain ⟨us, hus, hcursor⟩ := (declarationOf_widens
    (atRoom_widens (Nat.le_refl c.room) .expression)
    (statementAt_widens (Nat.le_refl c.room))).exists_upTo c
  rw [hgives] at hcursor
  obtain rfl : c' = c.upTo us := hcursor
  refine ⟨o, us, ev, hgives, hus, fun hne => ?_⟩
  obtain ⟨us', hcursor, hreads⟩ := declarationOf_reads (atRoom_follows c.room .expression)
    (statementAt_reads c.room) (atRoom_widens (Nat.le_refl c.room) .expression)
    (statementAt_widens (Nat.le_refl c.room)) rfl (fun _ => hne) hgives
  obtain rfl : us = us' := congrArg (·.unread) hcursor
  exact hreads.length_le

/-- Where a declaration is left out, that was recovered from. -/
theorem recovering_mem_of_none {d : Cursor} (h : attempted d = none) :
    .recovering (unrecovered d).cursor.toPlace ∈ (declaration d).events := by
  rw [declaration_of_none ((attempted_eq d).symm.trans h)]
  simp

theorem exists_attempts (c : Cursor) : ∃ ds, Attempts c ds := by
  generalize hlen : c.unread.length = n
  induction n using Nat.strongRecOn generalizing c with
  | _ n ih =>
    by_cases hstop : nextKind c.unread = .eof
    · exact ⟨[], .done hstop⟩
    · have hne : c.unread ≠ [] := by
        rintro hnil
        exact hstop (by rw [hnil]; rfl)
      obtain ⟨o, us, ev, hgives, -, hlt⟩ := exists_gives_declaration c
      obtain ⟨ds, hds⟩ := ih us.length (hlen ▸ hlt hne) (c.upTo us) rfl
      refine ⟨c :: ds, .next hstop ?_⟩
      rw [hgives]
      exact hds

namespace Attempts

variable {c : Cursor} {ds : List Cursor}

/-- There are no more attempts than tokens, and so there are rounds enough for them. -/
theorem declarationsOf_reply (h : Attempts c ds) :
    ∀ rounds : List Token, c.unread.length ≤ rounds.length →
      (declarationsOf declaration .eof rounds c).result = some (ds.filterMap attempted) ∧
      (declarationsOf declaration .eof rounds c).events =
        ds.flatMap fun d => (declaration d).events := by
  induction h with
  | done stop =>
    intro rounds _
    cases rounds with
    | nil => exact ⟨rfl, rfl⟩
    | cons _ rounds =>
      rw [declarationsOf_cons, if_pos (.inl stop)]
      exact ⟨rfl, rfl⟩
  | @next c ds start rest ih =>
    intro rounds hlen
    obtain ⟨o, us, ev, hgives, -, hlt⟩ := exists_gives_declaration c
    have hne : c.unread ≠ [] := by
      rintro hnil
      exact start (by rw [hnil]; rfl)
    have hshorter := hlt hne
    cases rounds with
    | nil => exact absurd (List.length_eq_zero_iff.1 (Nat.le_zero.1 hlen)) hne
    | cons _ rounds =>
      rw [List.length_cons] at hlen
      rw [hgives] at ih
      obtain ⟨hresult, hevents⟩ := ih rounds (by rw [Cursor.upTo_unread]; omega)
      rw [declarationsOf_cons, if_neg (by simpa using start), bind_of_some hgives]
      have hfirst : attempted c = o := by rw [attempted, hgives]; rfl
      constructor
      · show Option.map _ (declarationsOf declaration .eof rounds (c.upTo us)).result = _
        rw [hresult, List.filterMap_cons, hfirst]
        cases o <;> rfl
      · show ev ++ (declarationsOf declaration .eof rounds (c.upTo us)).events = _
        rw [hevents, List.flatMap_cons, hgives]

/-- The statements of a program are those of the attempts that could be read. -/
theorem program_result (h : Attempts c ds) :
    (program c).result = some (ds.filterMap attempted) :=
  (h.declarationsOf_reply c.unread (Nat.le_refl _)).1

/-- What happens in a program happens in its attempts. -/
theorem program_events (h : Attempts c ds) :
    (program c).events = ds.flatMap fun d => (declaration d).events :=
  (h.declarationsOf_reply c.unread (Nat.le_refl _)).2

end Attempts

end Grammar

end LoxSyntax
