import LoxSyntax.Proofs.Sentence.Program
import LoxSyntax.Proofs.Session.Rules

/-!
# Parsers made anew

A parser carries nothing from one call to the next but its place in the tokens and the errors
reported so far, and no call looks at these errors.  So whatever has been done with a parser, the
next call is answered as by a new parser that is made from the tokens still unread.

* `Action`, `Parser.session` — what is done with a parser, calls and changes to the report.
* `Parser.index` — how many tokens have been read.
* `Place.ofTokens_append` — where a list of tokens begins that has others in front of it.
* `Parser.session_cursor` — a session leaves a place in the tokens, and all levels closed.
* **`Parser.run_session`** — a call behind a session, and the same call of a new parser.
-/

namespace LoxSyntax

/-! ## Lists of tokens -/

theorem getLast?_completed (tokens : List Token) :
    ∃ last, (completed tokens).getLast? = some last ∧ last.kind = .eof := by
  unfold completed
  split
  · exact ⟨Token.eof 1, rfl, rfl⟩
  · next last hlast =>
    split
    · next heof => exact ⟨last, hlast, heof⟩
    · exact ⟨Token.eof last.line, List.getLast?_concat, rfl⟩

/-- Nothing is put behind the end of the text. -/
theorem completed_of_getLast? {tokens : List Token} {last : Token}
    (hlast : tokens.getLast? = some last) (heof : last.kind = .eof) :
    completed tokens = tokens := by
  simp only [completed, hlast, heof, ↓reduceIte]

theorem completed_completed (tokens : List Token) :
    completed (completed tokens) = completed tokens := by
  obtain ⟨last, hlast, heof⟩ := getLast?_completed tokens
  exact completed_of_getLast? hlast heof

/-- What is put behind some tokens is told by the last of them. -/
theorem completed_append (front : List Token) {tokens : List Token} (h : tokens ≠ []) :
    completed (front ++ tokens) = front ++ completed tokens := by
  have hlast : (front ++ tokens).getLast? = tokens.getLast? := by
    rw [List.getLast?_append, List.getLast?_eq_some_getLast h]
    rfl
  unfold completed
  rw [hlast]
  split
  · next hnone => exact absurd (List.getLast?_eq_none_iff.1 hnone) h
  · split
    · rfl
    · exact List.append_assoc ..

/-- What is put behind some tokens is not in front of the end. -/
theorem takeWhile_completed (tokens : List Token) :
    (completed tokens).takeWhile (·.kind != .eof) = tokens.takeWhile (·.kind != .eof) :=
  Place.unread_ofTokens tokens

theorem ne_eof_of_mem_text {tokens : List Token} {t : Token}
    (h : t ∈ tokens.takeWhile (·.kind != .eof)) : t.kind ≠ .eof := by
  simpa using List.all_eq_true.1 List.all_takeWhile t h

/-- The tokens up to the end of the text are not all of a completed list. -/
theorem length_text_lt (tokens : List Token) :
    (tokens.takeWhile (·.kind != .eof)).length < (completed tokens).length := by
  obtain ⟨last, hlast, heof⟩ := getLast?_completed tokens
  rw [← takeWhile_completed]
  refine Nat.lt_of_le_of_ne (List.takeWhile_prefix _).length_le fun hlen => ?_
  have hmem := List.mem_of_getLast? hlast
  rw [← (List.takeWhile_prefix _).eq_of_length hlen] at hmem
  exact ne_eof_of_mem_text hmem heof

namespace Place

theorem ofTokens_completed (tokens : List Token) :
    ofTokens (completed tokens) = ofTokens tokens := by
  simp only [ofTokens, completed_completed]

/-- What stands in front of some tokens is read before them, up to the same end. -/
theorem ofTokens_append {front tokens : List Token} (hfront : ∀ t ∈ front, t.kind ≠ .eof)
    (h : tokens ≠ []) :
    ofTokens (front ++ tokens) =
      ⟨front ++ (ofTokens tokens).unread, (ofTokens tokens).endLine⟩ := by
  have hnone : front.find? (·.kind == .eof) = none := by simpa using hfront
  simp only [ofTokens, completed_append front h, List.find?_append, hnone, Option.none_or,
    Place.mk.injEq, and_true]
  exact List.takeWhile_append_of_pos (by simpa using hfront)

end Place

/-! ## Sessions -/

/-- What is done with a parser: it is called, or its report is changed. -/
inductive Action
  | call (call : Call)
  | addError (e : SyntaxError)
  | clearErrors
deriving DecidableEq, Repr

def Action.run (p : Parser) : Action → Parser
  | call c => (c.run p).2
  | addError e => p.addError e
  | clearErrors => p.clearErrors

namespace Parser

/-- The parser behind several actions. -/
def session (actions : List Action) (p : Parser) : Parser :=
  actions.foldl Action.run p

/-- The index of the next token: how many of the tokens in front of the end have been read. -/
def index (p : Parser) : Nat :=
  (p.tokens.takeWhile (·.kind != .eof)).length - p.cursor.unread.length

/-- A call changes nothing in the tokens. -/
theorem run_tokens (p : Parser) (call : Call) : (call.run p).2.tokens = p.tokens := by
  cases call <;> rfl

/-- Whatever is done with a parser, it keeps its tokens, and its cursor is the one that it was made
with but for what has been read since. -/
theorem session_cursor (actions : List Action) (p : Parser) :
    (p.session actions).tokens = p.tokens ∧
      ∃ us, us <:+ p.cursor.unread ∧ (p.session actions).cursor = p.cursor.upTo us := by
  induction actions generalizing p with
  | nil => exact ⟨rfl, p.cursor.unread, List.suffix_refl _, rfl⟩
  | cons action actions ih =>
    obtain ⟨htokens, us, hus, hcursor⟩ := ih (action.run p)
    cases action with
    | call c =>
      obtain ⟨vs, hvs, hfirst⟩ := c.exists_rule_cursor p.cursor
      rw [← c.run_cursor p] at hfirst
      change us <:+ (c.run p).2.cursor.unread at hus
      rw [hfirst] at hus
      refine ⟨htokens.trans (p.run_tokens c), us, hus.trans hvs, hcursor.trans ?_⟩
      change (c.run p).2.cursor.upTo us = _
      rw [hfirst, Cursor.upTo_upTo]
    | addError e | clearErrors => exact ⟨htokens, us, hus, hcursor⟩

section Renewal

variable {ceiling : Nat} {tokens : List Token} {p : Parser} {us : List Token}
  (htokens : p.tokens = completed tokens)
  (hus : us <:+ tokens.takeWhile (·.kind != .eof))
  (hcursor : p.cursor = (ofTokens ceiling tokens).cursor.upTo us)

include htokens hus hcursor

/-- The index tells where in the tokens the unread ones begin. -/
theorem take_index_append : (completed tokens).take p.index ++ us =
    tokens.takeWhile (·.kind != .eof) ∧ p.index < (completed tokens).length := by
  have hlt := length_text_lt tokens
  obtain ⟨used, hused⟩ := hus
  have hindex : p.index = used.length := by
    rw [index, htokens, takeWhile_completed, hcursor, Cursor.upTo_unread, ← hused,
      List.length_append]
    exact Nat.add_sub_cancel ..
  obtain ⟨rest, hrest⟩ := List.takeWhile_prefix (l := completed tokens) (·.kind != .eof)
  rw [takeWhile_completed, ← hused, List.append_assoc] at hrest
  refine ⟨?_, ?_⟩
  · rw [hindex, ← hrest, List.take_left, hused]
  · rw [hindex]
    rw [← hused, List.length_append] at hlt
    omega

/-- A parser made from the unread tokens has the same cursor. -/
theorem ofTokens_drop_cursor : (ofTokens ceiling (p.tokens.drop p.index)).cursor = p.cursor := by
  obtain ⟨htake, hlt⟩ := take_index_append htokens hus hcursor
  have hread : ∀ t ∈ (completed tokens).take p.index, t.kind ≠ .eof :=
    fun t ht => ne_eof_of_mem_text (htake ▸ List.mem_append_left us ht)
  have hne : (completed tokens).drop p.index ≠ [] := by simpa using hlt
  have hwhole := Place.ofTokens_append hread hne
  rw [List.take_append_drop, Place.ofTokens_completed] at hwhole
  have hunread : (Place.ofTokens ((completed tokens).drop p.index)).unread = us := by
    have h := Place.unread_ofTokens tokens
    rw [hwhole, ← htake] at h
    exact List.append_cancel_left h
  have hplace : Place.ofTokens ((completed tokens).drop p.index) =
      ⟨us, (Place.ofTokens tokens).endLine⟩ := by
    rw [hwhole, ← hunread]
  rw [htokens, hcursor]
  simp only [ofTokens, hplace]
  rfl

end Renewal

/-- Behind any session the next call is answered, with trees or a failure, as by a new parser made
from the tokens from the next one on.  It reads as many tokens, and it adds the same errors behind
those that were reported already. -/
theorem run_session (ceiling : Nat) (tokens : List Token) (actions : List Action) (call : Call) :
    let p := (ofTokens ceiling tokens).session actions
    let fresh := ofTokens ceiling (p.tokens.drop p.index)
    p.tokens = completed tokens ∧
      p.cursor.unread = (p.tokens.drop p.index).takeWhile (·.kind != .eof) ∧
      (call.run p).1 = (call.run fresh).1 ∧
      (call.run p).2.index = p.index + (call.run fresh).2.index ∧
      (call.run p).2.report.errors = p.report.errors ++ (call.run fresh).2.report.errors := by
  intro p fresh
  obtain ⟨htokens, us, hus, hcursor⟩ := (ofTokens ceiling tokens).session_cursor actions
  change p.tokens = completed tokens at htokens
  change p.cursor = (ofTokens ceiling tokens).cursor.upTo us at hcursor
  change us <:+ (Place.ofTokens tokens).unread at hus
  rw [Place.unread_ofTokens] at hus
  have hfresh : fresh.cursor = p.cursor := ofTokens_drop_cursor htokens hus hcursor
  have hunread : p.cursor.unread = (p.tokens.drop p.index).takeWhile (·.kind != .eof) :=
    (congrArg (·.unread) hfresh).symm.trans (Place.unread_ofTokens _)
  refine ⟨htokens, hunread, by rw [call.run_fst, call.run_fst, hfresh], ?_, ?_⟩
  · obtain ⟨vs, hvs, hleft⟩ := call.exists_rule_cursor p.cursor
    have hrest : fresh.tokens.takeWhile (·.kind != .eof) = p.cursor.unread :=
      congrArg (·.unread) hfresh
    have htext : p.tokens.takeWhile (·.kind != .eof) = tokens.takeWhile (·.kind != .eof) :=
      htokens ▸ takeWhile_completed tokens
    have hlen := hvs.length_le
    have hlen' := hus.length_le
    simp only [index, run_tokens, call.run_cursor, hfresh, hleft, hrest, htext,
      Cursor.upTo_unread]
    rw [hcursor, Cursor.upTo_unread] at hlen ⊢
    omega
  · rw [call.run_errors, call.run_errors, hfresh]
    rfl

end Parser

end LoxSyntax
