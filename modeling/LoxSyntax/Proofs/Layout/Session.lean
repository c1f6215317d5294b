import LoxSyntax.Proofs.Layout.Grammar
import LoxSyntax.Proofs.Layout.Trees
import LoxSyntax.Proofs.Session.Renewal
import LoxSyntax.Proofs.Session.Unwinding

/-!
# Parsing is blind to layout

Where the tokens of a text stand on its lines makes no difference to a parser: whatever is done with
it, its calls are answered with the same trees but for their lines, they stop at the same token,
and they report the same, though on other lines.  White space, comments and stray characters move
tokens to other lines and do nothing else, so they make no difference to what a text is written as
again.

* `Tree.relined`, `Tree.unlined` — trees of answers with other lines, and without them.
* `Call.rule_relines` — the rule of a call on other lines.
* `Parser.session_unlined` — sessions with tokens on different lines stay in step.
* **`Parser.layout_blind`** — calls on lists of tokens, and programs of texts.
-/

namespace LoxSyntax

open Rule Grammar

/-! ## Trees of answers -/

namespace Tree

/-- The tree with the lines of its tokens changed. -/
def relined (f : UInt32 → UInt32) : Tree → Tree
  | expression e => expression (e.relined f)
  | statement s => statement (s.relined f)

/-- The tree with every line set to zero. -/
def unlined : Tree → Tree
  | expression e => expression e.unlined
  | statement s => statement s.unlined

theorem relined_zero : relined (fun _ => 0) = unlined := by
  funext t
  cases t with
  | expression e => exact congrArg expression e.relined_zero
  | statement s => exact congrArg statement s.relined_zero

theorem map_statement_relined (f : UInt32 → UInt32) (p : Program) :
    (Program.relined f p).map statement = (p.map statement).map (relined f) := by
  induction p with
  | nil => rfl
  | cons s ss ih => rw [Program.relined, List.map_cons, ih]; rfl

end Tree

/-! ## The rules of calls -/

namespace Call

variable {f : UInt32 → UInt32}

theorem ruleAt_relines (m : Nat) (rounds : List Token) (call : Call) :
    Relines f (List.map (Tree.relined f)) (call.ruleAt m rounds)
      (call.ruleAt m (rounds.map (Token.relined f))) := by
  have he := atRoom_relines (f := f) m .expression
  have hs := statementAt_relines (f := f) m
  cases call with
  | expression => exact he.map fun _ => rfl
  | statement => exact hs.map fun _ => rfl
  | declaration => exact (declarationOf_relines he hs).map fun o => by cases o <;> rfl
  | program =>
    exact (declarationsOf_relines (declarationOf_relines he hs) .eof rounds).map fun p =>
      (Tree.map_statement_relined f p).symm

/-- On other lines a call does the same, with its trees on those lines. -/
theorem rule_relines (call : Call) : Relines f (List.map (Tree.relined f)) call.rule call.rule :=
  fun c => call.ruleAt_relines c.room c.unread c

end Call

/-! ## Places and errors without lines -/

/-- The cursor with every line set to zero. -/
def Cursor.unlined (c : Cursor) : Cursor :=
  c.relined fun _ => 0

/-- An error but for its line. -/
def SyntaxError.unlined (e : SyntaxError) : String × String :=
  (e.context, e.message)

/-- How a place is named depends on its lexeme only. -/
theorem Diagnostic.unlined_error_relined (f : UInt32 → UInt32) (d : Diagnostic) :
    (Diagnostic.error ⟨d.problem, d.place.relined f⟩).unlined = d.error.unlined := by
  rcases d with ⟨problem, ⟨_ | ⟨t, ts⟩, endLine⟩⟩ <;> rfl

theorem unlined_errorsOf_relined (f : UInt32 → UInt32) (ev : List Event) :
    (errorsOf (ev.map (Event.relined f))).map SyntaxError.unlined =
      (errorsOf ev).map SyntaxError.unlined := by
  induction ev with
  | nil => rfl
  | cons event ev ih =>
    cases event with
    | diagnosed d =>
      have hfirst := d.unlined_error_relined f
      have hevents : errorsOf ((Event.diagnosed d :: ev).map (Event.relined f)) =
          Diagnostic.error ⟨d.problem, d.place.relined f⟩ :: errorsOf (ev.map (Event.relined f)) :=
        rfl
      rw [hevents, List.map_cons, hfirst, ih]
      rfl
    | _ => exact ih

/-- Lists of tokens that differ in their lines only begin at the same place. -/
theorem Place.relined_ofTokens {tokens tokens' : List Token}
    (h : tokens.map Token.unlined = tokens'.map Token.unlined) :
    (Place.ofTokens tokens).relined (fun _ => 0) =
      (Place.ofTokens tokens').relined (fun _ => 0) := by
  have hunread : ∀ ts : List Token, (Place.ofTokens ts).unread.map (Token.relined fun _ => 0) =
      (ts.map Token.unlined).takeWhile (·.kind != .eof) := by
    intro ts
    rw [Place.unread_ofTokens, List.takeWhile_map]
    rfl
  rw [Place.relined, Place.relined, hunread, hunread, h]

/-- What a call replies without lines depends on the tokens without lines. -/
theorem Call.rule_unlined {c c' : Cursor} (h : c.unlined = c'.unlined) (call : Call) :
    (call.rule c).relined (fun _ => 0) (List.map (Tree.relined fun _ => 0)) =
      (call.rule c').relined (fun _ => 0) (List.map (Tree.relined fun _ => 0)) := by
  rw [← call.rule_relines c, ← call.rule_relines c']
  exact congrArg call.rule h

/-! ## Parsers in step -/

namespace Parser

variable {p p' : Parser}

/-- A call leaves parsers in step that are in step. -/
theorem run_unlined (h : p.cursor.unlined = p'.cursor.unlined) (call : Call) :
    (call.run p).2.cursor.unlined = (call.run p').2.cursor.unlined := by
  rw [call.run_cursor, call.run_cursor]
  exact congrArg Reply.cursor (call.rule_unlined h)

/-- Whatever is done with parsers whose tokens differ in their lines only, they stay in step. -/
theorem session_unlined (h : p.cursor.unlined = p'.cursor.unlined) (actions : List Action) :
    (p.session actions).cursor.unlined = (p'.session actions).cursor.unlined := by
  induction actions generalizing p p' with
  | nil => exact h
  | cons action actions ih =>
    cases action with
    | call c => exact ih (run_unlined h c)
    | addError e | clearErrors => exact ih h

theorem index_eq (htokens : p.tokens.map Token.unlined = p'.tokens.map Token.unlined)
    (h : p.cursor.unlined = p'.cursor.unlined) : p.index = p'.index := by
  have hunread := congrArg (fun c : Cursor => c.unread.length) h
  have htext := congrArg (fun ts : List Token => (ts.takeWhile (·.kind != .eof)).length) htokens
  simp only [List.takeWhile_map, List.length_map] at htext
  simp only [Cursor.unlined, Cursor.relined_unread, List.length_map] at hunread
  rw [index, index, hunread]
  exact congrArg (· - _) htext

/-- Tokens on different lines, completed, are tokens on different lines. -/
theorem completed_unlined {tokens tokens' : List Token}
    (h : tokens.map Token.unlined = tokens'.map Token.unlined) :
    (completed tokens).map Token.unlined = (completed tokens').map Token.unlined := by
  have hlast : tokens.getLast?.map Token.unlined = tokens'.getLast?.map Token.unlined := by
    rw [← List.getLast?_map, ← List.getLast?_map, h]
  unfold completed
  rcases hlast₁ : tokens.getLast? with _ | t <;> rcases hlast₂ : tokens'.getLast? with _ | t' <;>
    simp only [hlast₁, hlast₂, Option.map_none, Option.map_some] at hlast
  · rfl
  · cases hlast
  · cases hlast
  · have hkind : t.kind = t'.kind := by
      simpa [Token.unlined] using congrArg Token.kind (Option.some.inj hlast)
    dsimp only
    rw [hkind]
    split
    · exact h
    · rw [List.map_append, List.map_append, h]
      rfl

/-- Parsers made from tokens on different lines begin in step, and stay so. -/
theorem session_twins (ceiling : Nat) {tokens tokens' : List Token}
    (h : tokens.map Token.unlined = tokens'.map Token.unlined) (actions : List Action) :
    let p := (ofTokens ceiling tokens).session actions
    let p' := (ofTokens ceiling tokens').session actions
    p.tokens.map Token.unlined = p'.tokens.map Token.unlined ∧
      p.cursor.unlined = p'.cursor.unlined := by
  have hbegin : (ofTokens ceiling tokens).cursor.unlined =
      (ofTokens ceiling tokens').cursor.unlined := by
    simp only [ofTokens, Cursor.unlined, Cursor.relined, Place.relined_ofTokens h]
  refine ⟨?_, session_unlined hbegin actions⟩
  rw [(session_cursor actions _).1, (session_cursor actions _).1]
  exact completed_unlined h

end Parser

/-! ## Answers -/

namespace Call

variable {p p' : Parser}

theorem run_trees_unlined (h : p.cursor.unlined = p'.cursor.unlined) (call : Call) :
    (call.run p).1.map Tree.unlined = (call.run p').1.map Tree.unlined := by
  have hresult := congrArg Reply.result (call.rule_unlined h)
  rw [Tree.relined_zero] at hresult
  rw [call.run_fst, call.run_fst]
  rcases hr : (call.rule p.cursor).result with _ | ts <;>
    rcases hr' : (call.rule p'.cursor).result with _ | ts' <;>
      simp_all [Reply.relined]

theorem failed_unlined (h : p.cursor.unlined = p'.cursor.unlined) (call : Call) :
    call.Failed p ↔ call.Failed p' := by
  have hresult := congrArg Reply.result (call.rule_unlined h)
  rw [call.failed_iff, call.failed_iff]
  rcases hr : (call.rule p.cursor).result with _ | ts <;>
    rcases hr' : (call.rule p'.cursor).result with _ | ts' <;>
      simp_all [Reply.relined]

theorem reported_unlined (h : p.cursor.unlined = p'.cursor.unlined) (call : Call) :
    (call.reported p).map SyntaxError.unlined = (call.reported p').map SyntaxError.unlined := by
  have hevents := congrArg Reply.events (call.rule_unlined h)
  rw [call.reported_eq, call.reported_eq, ← unlined_errorsOf_relined fun _ => 0]
  rw [← unlined_errorsOf_relined (fun _ => 0) (call.rule p'.cursor).events]
  exact congrArg (fun ev => (errorsOf ev).map SyntaxError.unlined) hevents

end Call

/-! ## Programs -/

/-- Programs are the same but for their lines if their statements are, as answers. -/
theorem Program.unlined_eq_of_map {p q : Program}
    (h : (p.map Tree.statement).map Tree.unlined = (q.map Tree.statement).map Tree.unlined) :
    unlined p = unlined q := by
  rw [← Tree.relined_zero, ← Tree.map_statement_relined, ← Tree.map_statement_relined] at h
  rw [← relined_zero, ← relined_zero]
  exact (List.map_inj_right fun _ _ hs => Tree.statement.inj hs).1 h

/-- Lists of tokens that differ in their lines only are parsed alike: after any session each call is
answered with the same trees but for their lines, or fails on both; it goes from the same token to
the same token; and it reports the same contexts and messages in the same order.  So texts whose
tokens differ in their lines only have programs that differ in their lines only, and these are
written alike in both forms. -/
theorem Parser.layout_blind :
    (∀ (ceiling : Nat) (tokens tokens' : List Token) (actions : List Action) (call : Call),
      tokens.map Token.unlined = tokens'.map Token.unlined →
      let p := (ofTokens ceiling tokens).session actions
      let p' := (ofTokens ceiling tokens').session actions
      (call.run p).1.map Tree.unlined = (call.run p').1.map Tree.unlined ∧
        (call.Failed p ↔ call.Failed p') ∧
        p.index = p'.index ∧
        (call.run p).2.index = (call.run p').2.index ∧
        (call.reported p).map SyntaxError.unlined = (call.reported p').map SyntaxError.unlined) ∧
    ∀ (ceiling : Nat) (a b : String),
      (scan a).tokens.map Token.unlined = (scan b).tokens.map Token.unlined →
      let p := (ofText ceiling a).program.1
      let q := (ofText ceiling b).program.1
      Program.unlined p = Program.unlined q ∧ p.sexpr = q.sexpr ∧ p.source = q.source := by
  refine ⟨fun ceiling tokens tokens' actions call h => ?_, fun ceiling a b h => ?_⟩
  · obtain ⟨htokens, hcursor⟩ := session_twins ceiling h actions
    refine ⟨call.run_trees_unlined hcursor, call.failed_unlined hcursor,
      index_eq htokens hcursor, index_eq ?_ (run_unlined hcursor call),
      call.reported_unlined hcursor⟩
    rw [run_tokens, run_tokens]
    exact htokens
  · have hcursor : (ofText ceiling a).cursor.unlined = (ofText ceiling b).cursor.unlined :=
      (session_twins ceiling h []).2
    have hprogram := Program.unlined_eq_of_map (Call.run_trees_unlined hcursor .program)
    refine ⟨hprogram, ?_, ?_⟩
    · exact (Program.sexpr_unlined _).symm.trans
        ((congrArg Program.sexpr hprogram).trans (Program.sexpr_unlined _))
    · exact (Program.source_unlined _).symm.trans
        ((congrArg Program.source hprogram).trans (Program.source_unlined _))

/-- The tokens of `a = ;`, the name on one line and the rest on another. -/
def valuelessTokens (first second : UInt32) : List Token :=
  [⟨.identifier, "a", first, none⟩, ⟨.equal, "=", second, none⟩, ⟨.semicolon, ";", second, none⟩]

/-- The value is missing on whatever line it should stand, and a comment and a stray character
between two statements are not seen. -/
theorem valuelessTokens_blind :
    (valuelessTokens 1 1).map Token.unlined = (valuelessTokens 2 7).map Token.unlined ∧
      (Call.program.reported (Parser.ofTokens 8 (valuelessTokens 1 1))).map SyntaxError.unlined =
        (Call.program.reported (Parser.ofTokens 8 (valuelessTokens 2 7))).map
          SyntaxError.unlined ∧
      (scan "a;b;").tokens.map Token.unlined = (scan "a; // c\n@ b;").tokens.map Token.unlined ∧
      (Parser.ofText 8 "a;b;").program.1.source =
        (Parser.ofText 8 "a; // c\n@ b;").program.1.source := by
  have htokens : (valuelessTokens 1 1).map Token.unlined =
      (valuelessTokens 2 7).map Token.unlined := rfl
  have htexts : (scan "a;b;").tokens.map Token.unlined =
      (scan "a; // c\n@ b;").tokens.map Token.unlined := by decide +kernel
  obtain ⟨-, -, -, -, hreported⟩ := Parser.layout_blind.1 8 _ _ [] .program htokens
  obtain ⟨-, -, hsource⟩ := Parser.layout_blind.2 8 _ _ htexts
  exact ⟨htokens, hreported, htexts, hsource⟩

end LoxSyntax
