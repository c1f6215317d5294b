import LoxSyntax.Proofs.Sentence.Program
import LoxSyntax.Proofs.Session.Rules

/-!
# Calls under another ceiling

A ceiling on the nesting only ever cuts calls off.  A call that was not cut off is answered in the
same way under every higher ceiling, and it stops at the same place with the same errors.  From a
ceiling that grows with the number of tokens on, no call is cut off, and so all those ceilings are
the same to every sequence of calls.

* `Parser.withCeiling` — the same parser under another ceiling.
* `Call.Agrees` — a call that two parsers answer alike.
* `Call.agrees_of_uncut` — what is not cut off is answered alike under a higher ceiling.
* `Call.uncut_of_room` — room enough for every token.
* **`Parser.agrees_withCeiling`** — both, for a call behind any other calls.
-/

namespace LoxSyntax

open Rule Grammar

/-! ## Errors that tell of nesting -/

/-- The message tells too much nesting from all other problems. -/
theorem Problem.message_eq_iff {problem : Problem} :
    problem.message = "Too much nesting." ↔ problem = .tooMuchNesting := by
  constructor
  · intro h
    cases problem with
    | tooMuchNesting => rfl
    | expected landmark => cases landmark <;> exact absurd h (by decide)
    | _ => exact absurd h (by decide)
  · rintro rfl
    rfl

/-- Among the errors of some events one tells of nesting just where one of the events does. -/
theorem forall_message_ne_iff {ev : List Event} :
    (∀ e ∈ errorsOf ev, e.message ≠ "Too much nesting.") ↔
      ∀ event ∈ ev, event.isNesting = false := by
  rw [forall_mem_errorsOf]
  constructor
  · intro h event hevent
    cases event with
    | diagnosed d =>
      simpa [Event.isNesting] using fun hproblem => h d hevent (Problem.message_eq_iff.2 hproblem)
    | _ => rfl
  · intro h d hd hmessage
    have hquiet := h _ hd
    rw [Event.isNesting, Problem.message_eq_iff.1 hmessage] at hquiet
    cases hquiet

/-! ## One call -/

/-- The same parser, as if it had been made with another ceiling. -/
def Parser.withCeiling (p : Parser) (ceiling : Nat) : Parser :=
  { p with cursor := p.cursor.withCeiling ceiling }

namespace Call

variable {p q : Parser} {call : Call}

/-- The call does not complain about nesting. -/
def Uncut (call : Call) (p : Parser) : Prop :=
  ∀ e ∈ call.reported p, e.message ≠ "Too much nesting."

/-- Two parsers answer a call with the same trees, report the same errors and stop at the same
place, with as many levels open. -/
structure Agrees (call : Call) (p q : Parser) : Prop where
  trees : (call.run q).1 = (call.run p).1
  reported : call.reported q = call.reported p
  cursor : (call.run q).2.cursor = (call.run p).2.cursor.withCeiling q.cursor.ceiling

theorem uncut_iff : call.Uncut p ↔ call.rule.Quiet p.cursor := by
  rw [Uncut, reported_eq]
  exact forall_message_ne_iff

/-- A call that is not cut off is answered alike at the same cursor under a higher ceiling. -/
theorem agrees_of_uncut (huncut : call.Uncut p) {ceiling : Nat}
    (hle : p.cursor.ceiling ≤ ceiling) (hq : q.cursor = p.cursor.withCeiling ceiling) :
    call.Agrees p q := by
  have hroom : p.cursor.room ≤ (p.cursor.withCeiling ceiling).room :=
    Nat.sub_le_sub_right hle p.cursor.depth
  have htracks : (call.rule p.cursor).Tracks ceiling (call.rule (p.cursor.withCeiling ceiling)) :=
    (call.ruleAt_widens hroom p.cursor.unread).tracks p.cursor hle
  rcases htracks with ⟨-, hfull⟩ | ⟨before, complaint, after, hevents, hnesting, -, -⟩
  · refine ⟨?_, ?_, ?_⟩
    · rw [run_fst, run_fst, hq, hfull]
    · rw [reported_eq, reported_eq, hq, hfull]
    · rw [run_cursor, run_cursor, hq, hfull]
      rfl
  · have hquiet : complaint.isNesting = false :=
      uncut_iff.1 huncut complaint (by rw [hevents]; exact List.mem_append_right _ (.head _))
    rw [hnesting] at hquiet
    cases hquiet

/-- Where two levels may be opened for each unread token and three besides, no call is cut off. -/
theorem uncut_of_room (h : 2 * p.cursor.unread.length + 3 ≤ p.cursor.room) : call.Uncut p :=
  uncut_iff.2 ((call.ruleAt_fits p.cursor.room p.cursor.unread).quiet p.cursor rfl h)

/-- Agreement holds in both directions. -/
theorem Agrees.symm (h : call.Agrees p q) : call.Agrees q p where
  trees := h.trees.symm
  reported := h.reported.symm
  cursor := by
    obtain ⟨us, -, hus⟩ := call.exists_rule_cursor p.cursor
    rw [h.cursor, call.run_cursor p, hus]
    rfl

end Call

namespace Parser

/-! ## Several calls -/

section Room

variable {p : Parser} (h : 2 * p.cursor.unread.length + 3 ≤ p.cursor.room)

include h

/-- Behind other calls there is as much room, and there are no more tokens. -/
theorem room_after (calls : List Call) :
    2 * (p.after calls).cursor.unread.length + 3 ≤ (p.after calls).cursor.room := by
  obtain ⟨us, hus, hcursor⟩ := p.exists_after_cursor calls
  have hlen := hus.length_le
  rw [hcursor, Cursor.upTo_unread, Cursor.upTo_room]
  omega

/-- With room enough, calls leave the same cursor under every higher ceiling. -/
theorem after_cursor_of_room {q : Parser} {ceiling : Nat} (hle : p.cursor.ceiling ≤ ceiling)
    (hq : q.cursor = p.cursor.withCeiling ceiling) (calls : List Call) :
    (q.after calls).cursor = (p.after calls).cursor.withCeiling ceiling := by
  induction calls generalizing p q with
  | nil => exact hq
  | cons call calls ih =>
    have huncut : call.Uncut p := Call.uncut_of_room h
    have hagrees := Call.agrees_of_uncut huncut hle hq
    have hcursor := hagrees.cursor
    rw [hq] at hcursor
    have hceiling : (call.run p).2.cursor.ceiling ≤ ceiling := by
      obtain ⟨us, -, hus⟩ := call.exists_rule_cursor p.cursor
      rw [call.run_cursor p, hus]
      exact hle
    exact ih (room_after h [call]) hceiling hcursor

/-- With room enough, a call behind the same other calls is answered alike under every higher
ceiling. -/
theorem agrees_after_of_room {q : Parser} {ceiling : Nat} (hle : p.cursor.ceiling ≤ ceiling)
    (hq : q.cursor = p.cursor.withCeiling ceiling) (calls : List Call) (call : Call) :
    call.Agrees (p.after calls) (q.after calls) := by
  obtain ⟨us, -, hcursor⟩ := p.exists_after_cursor calls
  refine Call.agrees_of_uncut (Call.uncut_of_room (room_after h calls)) ?_
    (after_cursor_of_room h hle hq calls)
  rw [hcursor]
  exact hle

end Room

/-- A call that is not cut off is answered alike under every higher ceiling.  With two levels for
each token up to the end of the text, and three besides, no call is cut off, whatever the calls
before, and all ceilings from there on are answered alike. -/
theorem agrees_withCeiling (tokens : List Token) (calls : List Call) (call : Call) :
    let enough := 2 * (tokens.takeWhile (·.kind != .eof)).length + 3
    (∀ ceiling ceiling', ceiling ≤ ceiling' →
      let p := (ofTokens ceiling tokens).after calls
      call.Uncut p → call.Agrees p (p.withCeiling ceiling')) ∧
    (∀ ceiling ceiling', enough ≤ ceiling → enough ≤ ceiling' →
      let p := (ofTokens ceiling tokens).after calls
      call.Uncut p ∧ call.Agrees p ((ofTokens ceiling' tokens).after calls)) := by
  intro enough
  have hroom : ∀ ceiling, enough ≤ ceiling →
      2 * (ofTokens ceiling tokens).cursor.unread.length + 3 ≤
        (ofTokens ceiling tokens).cursor.room := by
    intro ceiling hle
    show 2 * (Place.ofTokens tokens).unread.length + 3 ≤ ceiling
    rw [Place.unread_ofTokens]
    exact hle
  constructor
  · intro ceiling ceiling' hle p huncut
    obtain ⟨us, -, hcursor⟩ := (ofTokens ceiling tokens).exists_after_cursor calls
    refine Call.agrees_of_uncut huncut ?_ rfl
    show ((ofTokens ceiling tokens).after calls).cursor.ceiling ≤ ceiling'
    rw [hcursor]
    exact hle
  · intro ceiling ceiling' h h' p
    refine ⟨Call.uncut_of_room (room_after (hroom ceiling h) calls), ?_⟩
    rcases Nat.le_total ceiling ceiling' with hle | hle
    · exact agrees_after_of_room (hroom ceiling h) hle rfl calls call
    · exact (agrees_after_of_room (hroom ceiling' h') hle rfl calls call).symm

end Parser

/-- The tokens of `(-;`. -/
def openTokens : List Token :=
  [⟨.leftParen, "(", 1, none⟩, ⟨.minus, "-", 1, none⟩, ⟨.semicolon, ";", 1, none⟩]

/-- Six levels suffice to find out that an operand is lacking in them, and nine for any call. -/
theorem openTokens_agrees :
    (Call.program.Uncut (Parser.ofTokens 6 openTokens) ∧
      Call.program.Agrees (Parser.ofTokens 6 openTokens) (Parser.ofTokens 128 openTokens)) ∧
    Call.statement.Uncut ((Parser.ofTokens 9 openTokens).after [.expression]) ∧
      Call.statement.Agrees ((Parser.ofTokens 9 openTokens).after [.expression])
        ((Parser.ofTokens 128 openTokens).after [.expression]) := by
  have huncut : Call.program.Uncut (Parser.ofTokens 6 openTokens) := by
    unfold Call.Uncut
    decide +kernel
  have hraised := (Parser.agrees_withCeiling openTokens [] .program).1 6 128 (by decide) huncut
  have henough := (Parser.agrees_withCeiling openTokens [.expression] .statement).2 9 128
    (by decide) (by decide)
  exact ⟨⟨huncut, hraised⟩, henough⟩

end LoxSyntax
