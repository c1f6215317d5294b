import LoxSyntax.Proofs.Operand.Missing
import LoxSyntax.Proofs.Traversal.Paths

/-!
# Expressions are read to their end

The rule of a level does not stop where the expression could go on: the next token is no operator of
the level or of a tighter one, and behind a whole expression it is none at all.  A conditional takes
in all that follows its last branch.  So no equals sign follows it, it is the left operand of no
comma, and whatever rule stops where a conditional has stopped has nothing left to go on with, be it
that the value which ended so was dropped.

* `Grammar.exists_reads_of_ofLevel` — what the rule of a level reads, as a derivation.
* `Expr.CommasClosed`, `Expr.commasClosed_of_isNormal` — the left operands of commas.
* `Grammar.ofLevel_of_conditional` — a conditional is all that the looser levels read.
* **`Grammar.ofLevel_maximal`** — where the rules of the levels stop.
-/

namespace LoxSyntax

open Rule

/-! ## The left operands of commas -/

theorem Program.isNormal_of_mem {p : Program} (hp : p.isNormal) {s : Stmt} (hs : s ∈ p) :
    s.isNormal := by
  induction p with
  | nil => cases hs
  | cons s' ss ih =>
    simp only [isNormal, Bool.and_eq_true] at hp
    rcases List.mem_cons.1 hs with rfl | hs
    · exact hp.1
    · exact ih hp.2 hs

namespace Tree

/-- The children of a normal node are normal. -/
theorem isNormal_of_mem_children {t u : Tree} (ht : t.isNormal) (hu : u ∈ t.children) :
    u.isNormal := by
  rcases t with e | s
  · obtain ⟨e', he', rfl⟩ := List.mem_map.1 hu
    cases e <;>
      simp only [isNormal, Expr.isNormal, Expr.children, Bool.and_eq_true, List.mem_cons,
        List.not_mem_nil, or_false] at ht he' ⊢ <;>
      grind
  · cases s with
    | declare name initial =>
      obtain ⟨e, he, rfl⟩ := List.mem_map.1 hu
      obtain rfl : initial = some e := by simpa using he
      simp only [isNormal, Stmt.isNormal, Bool.and_eq_true] at ht
      exact ht.2
    | block body =>
      obtain ⟨s, hs, rfl⟩ := List.mem_map.1 hu
      exact Program.isNormal_of_mem ht hs
    | _ =>
      simp only [isNormal, Stmt.isNormal, children, Stmt.children, Bool.and_eq_true, List.mem_cons,
        List.not_mem_nil, or_false] at ht hu
      grind [isNormal]

end Tree

/-- What lies in normal trees is normal. -/
theorem isNormal_of_nodeAt? {ts : List Tree} {path : List Nat} {t : Tree}
    (hts : ∀ u ∈ ts, u.isNormal) (h : nodeAt? ts path = some t) : t.isNormal := by
  induction path generalizing ts with
  | nil => cases h
  | cons i path ih =>
    obtain ⟨v, hv, ht⟩ := Option.bind_eq_some_iff.1 h
    have hnormal := hts v (List.mem_of_getElem? hv)
    split at ht
    · cases ht
      exact hnormal
    · exact ih (fun u hu => Tree.isNormal_of_mem_children hnormal hu) ht

/-- No comma in the tree has a left operand that ends in a conditional. -/
def Expr.CommasClosed (e : Expr) : Prop :=
  ∀ path lhs op rhs, nodeAt? [.expression e] path = some (.expression (.binary lhs op rhs)) →
    op.kind = .comma → lhs.endsInConditional = false

theorem Expr.commasClosed_of_isNormal (e : Expr) (h : e.isNormal) : e.CommasClosed := by
  intro path lhs op rhs hnode hop
  have htree : (Tree.expression e).isNormal := h
  have hbinary : (Expr.binary lhs op rhs).isNormal :=
    isNormal_of_nodeAt? (List.forall_mem_singleton.2 htree) hnode
  have hcomma : op.kind.precedence? = some .comma := by rw [hop]; rfl
  have hbeside := (isNormal_join hcomma lhs rhs).symm.trans hbinary
  simp only [Bool.and_eq_true, fitBeside] at hbeside
  simpa using hbeside.2.2

/-! ## What the levels read -/

namespace Grammar

variable {c : Cursor} {p : Precedence} {e : Expr}

/-- What the rule of a level replies with has a derivation. -/
theorem exists_reads_of_ofLevel (h : (ofLevel (atRoom c.room) p c).result = some e) :
    ∃ us ev, ofLevel (atRoom c.room) p c = ⟨some e, c.upTo us, ev⟩ ∧
      Expr.Reads c.endLine c.room (.level p) c.unread e us ev := by
  have hgives : (ofLevel (atRoom c.room) p).Gives c e
      (ofLevel (atRoom c.room) p c).cursor (ofLevel (atRoom c.room) p c).events := by
    rw [Gives, ← h]
  obtain ⟨us, hcursor, hreads⟩ :=
    (ofLevel_follows (atRoom_follows c.room) p).reads hgives rfl
  exact ⟨us, _, hcursor ▸ hgives, hreads⟩

/-- Where a conditional is read, the looser levels read no more. -/
theorem ofLevel_of_conditional {condition yes no : Expr}
    (h : (ofLevel (atRoom c.room) .conditional c).result = some (.conditional condition yes no)) :
    ofLevel (atRoom c.room) .assignment c = ofLevel (atRoom c.room) .conditional c ∧
      ofLevel (atRoom c.room) .comma c = ofLevel (atRoom c.room) .conditional c := by
  obtain ⟨us, ev, hgives, hreads⟩ := exists_reads_of_ofLevel h
  have hnext := hreads.continuation?_eq_none rfl
  have hassignment : Expr.Reads c.endLine c.room (.level .assignment) c.unread
      (.conditional condition yes no) us ev :=
    .unassigned hreads fun heq => by simp [heq, TokenKind.continuation?] at hnext
  have hcomma : Expr.Reads c.endLine c.room (.level .comma) c.unread
      (.conditional condition yes no) us ev :=
    .close rfl (.operand rfl hassignment) fun hop => by
      rw [TokenKind.continuation?_of_precedence? hop] at hnext
      cases hnext
  have hfollows := ofLevel_follows (atRoom_follows c.room)
  rw [hgives]
  exact ⟨(hfollows .assignment).gives hassignment rfl, (hfollows .comma).gives hcomma rfl⟩

/-! ## Where the levels stop -/

/-- Behind what the rule of a level has read, with errors or not, stands no operator of this level
or of a tighter one; behind a whole expression, and behind what ends in a conditional, stands none
at all.  A conditional is all that the looser levels read where it stands, so that no equals sign
follows it and it is the left operand of no comma, and no rule that stops where it has stopped has
an operator in front of it. -/
theorem ofLevel_maximal (c : Cursor) :
    let reply (p : Precedence) := ofLevel (atRoom c.room) p c
    (∀ p e, (reply p).result = some e →
      (∀ q, (reply p).cursor.kind.continuation? = some q → q < p) ∧
        (e.endsInConditional → (reply p).cursor.kind.continuation? = none) ∧ e.CommasClosed) ∧
      (∀ e, (expression c).result = some e →
        (expression c).cursor.kind.continuation? = none ∧ e.CommasClosed) ∧
      ∀ condition yes no, (reply .conditional).result = some (.conditional condition yes no) →
        reply .assignment = reply .conditional ∧ reply .comma = reply .conditional ∧
          ∀ d p, (ofLevel (atRoom d.room) p d).cursor.unread = (reply .conditional).cursor.unread →
            (ofLevel (atRoom d.room) p d).cursor.kind.continuation? = none := by
  intro reply
  refine ⟨fun p e h => ?level, fun e h => ?expression, fun condition yes no h => ?conditional⟩
  case level =>
    obtain ⟨us, ev, hgives, hreads⟩ := exists_reads_of_ofLevel h
    have hkind : (reply p).cursor.kind = nextKind us := by
      simp only [reply, hgives, Cursor.kind_eq_nextKind, Cursor.upTo_unread]
    rw [hkind]
    exact ⟨hreads.stops, hreads.continuation?_eq_none, e.commasClosed_of_isNormal hreads.isNormal⟩
  case expression =>
    have hgives : expression.Gives c e (expression c).cursor (expression c).events := by
      rw [Gives, ← h]
    obtain ⟨us, hcursor, hreads⟩ := expression_follows.1 hgives
    rw [hcursor, Cursor.kind_eq_nextKind]
    exact ⟨hreads.continuation?_of_expression, e.commasClosed_of_isNormal hreads.isNormal⟩
  case conditional =>
    obtain ⟨hassignment, hcomma⟩ := ofLevel_of_conditional h
    refine ⟨hassignment, hcomma, fun d p hunread => ?_⟩
    obtain ⟨us, ev, hgives, hreads⟩ := exists_reads_of_ofLevel h
    rw [Cursor.kind_eq_nextKind, hunread]
    simp only [reply, hgives, Cursor.upTo_unread]
    exact hreads.continuation?_eq_none rfl

/-- The tokens of `nil = a ? b : c, d)`. -/
def droppedTokens : List Token :=
  [⟨.nilWord, "nil", 1, none⟩, ⟨.equal, "=", 1, none⟩, ⟨.identifier, "a", 1, none⟩,
    ⟨.question, "?", 1, none⟩, ⟨.identifier, "b", 1, none⟩, ⟨.colon, ":", 1, none⟩,
    ⟨.identifier, "c", 1, none⟩, ⟨.comma, ",", 1, none⟩, ⟨.identifier, "d", 1, none⟩,
    ⟨.rightParen, ")", 1, none⟩]

/-- The comma is taken in by the conditional, although that is the value of no variable and is
dropped. -/
theorem droppedTokens_maximal :
    let c := (Parser.ofTokens 8 droppedTokens).cursor
    let d := (c.upTo (droppedTokens.drop 2)).deeper
    let reply := ofLevel (atRoom c.room) .assignment c
    reply.result = some .nil ∧ reply.cursor.unread = droppedTokens.drop 9 ∧
      (∃ condition yes no, (ofLevel (atRoom d.room) .conditional d).result =
        some (.conditional condition yes no)) ∧
      (∀ q, reply.cursor.kind.continuation? = some q → q < .assignment) ∧
      reply.cursor.kind.continuation? = none := by
  intro c d reply
  have hreply : reply.result = some .nil := by decide +kernel
  have hconditional : (ofLevel (atRoom d.room) .conditional d).result =
      some (.conditional (.variable ⟨.identifier, "a", 1, none⟩)
        (.variable ⟨.identifier, "b", 1, none⟩)
        (.binary (.variable ⟨.identifier, "c", 1, none⟩) ⟨.comma, ",", 1, none⟩
          (.variable ⟨.identifier, "d", 1, none⟩))) := by
    decide +kernel
  have hunread : reply.cursor.unread = droppedTokens.drop 9 := by decide +kernel
  have hsame : reply.cursor.unread = (ofLevel (atRoom d.room) .conditional d).cursor.unread := by
    decide +kernel
  -- the runs are known by now, and are not to be evaluated again
  clear_value c d
  obtain ⟨hlevel, -, -⟩ := (ofLevel_maximal c).1 .assignment _ hreply
  obtain ⟨-, -, hstop⟩ := (ofLevel_maximal d).2.2 _ _ _ hconditional
  exact ⟨hreply, hunread, ⟨_, _, _, hconditional⟩, hlevel, hstop c .assignment hsame⟩

end Grammar

end LoxSyntax
