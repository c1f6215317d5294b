import LoxSyntax.Proofs.Reading.Statement
import LoxSyntax.Proofs.Tree.Items

/-!
# Where names and values come from

Reading makes up no operators, no names and no values: whatever a tree has kept besides the marks
that its shape tells is what a token had to be kept of.  A dropped operand or a declaration that was
skipped only means that less is kept.

* `KeptFrom` — items that come from some tokens, marks aside.
* **`Expr.Reads.keptFrom`**, **`Stmt.Reads.keptFrom`** — what was read has kept nothing else.
-/

namespace LoxSyntax

/-- Every item but the marks is what is kept of one of the tokens. -/
def KeptFrom (ts : List Token) (is : List Item) : Prop :=
  ∀ i ∈ is, (∃ k, i = .mark k) ∨ ∃ t ∈ ts, t.item = i

namespace KeptFrom

variable {ts us : List Token} {is js : List Item}

theorem nil (ts : List Token) : KeptFrom ts [] :=
  fun _ hi => absurd hi List.not_mem_nil

theorem mark (k : TokenKind) (h : KeptFrom ts is) : KeptFrom ts (.mark k :: is) :=
  List.forall_mem_cons.2 ⟨.inl ⟨k, rfl⟩, h⟩

theorem kept {i : Item} {t : Token} (ht : t ∈ ts) (hitem : t.item = i) (h : KeptFrom ts is) :
    KeptFrom ts (i :: is) :=
  List.forall_mem_cons.2 ⟨.inr ⟨t, ht, hitem⟩, h⟩

theorem append (h : KeptFrom ts is) (h' : KeptFrom ts js) : KeptFrom ts (is ++ js) :=
  List.forall_mem_append.2 ⟨h, h'⟩

theorem of_suffix (hsuffix : us <:+ ts) (h : KeptFrom us is) : KeptFrom ts is :=
  fun i hi => (h i hi).imp_right fun ⟨t, ht, hitem⟩ => ⟨t, hsuffix.subset ht, hitem⟩

theorem tail {t : Token} (h : KeptFrom ts is) : KeptFrom (t :: ts) is :=
  h.of_suffix (List.suffix_cons t ts)

end KeptFrom

/-! ## Expressions -/

/-- An expression that was read has kept nothing but what there was. -/
theorem Expr.Reads.keptFrom {endLine : UInt32} {m : Nat} {scope : Scope} {ts us : List Token}
    {e : Expr} {ev : List Event} (h : Expr.Reads endLine m scope ts e us ev) :
    KeptFrom ts e.items := by
  induction h with
  | operand _ _ ih | close _ _ _ ih | unassigned _ _ ih | invalidTarget _ _ _ _ ih _
  | unbranched _ _ ih | bare _ _ ih | opened _ ih => exact ih
  | join left hop _ ih ih' =>
    rw [items_join]
    have hop' := left.suffix.subset (List.mem_cons_self ..)
    have hrhs := ih'.of_suffix ((List.suffix_cons _ _).trans left.suffix)
    exact ih.append (.kept hop' (Token.item_of_operator hop) hrhs)
  | @assign m ts x equals us v vs ev ev' target _ _ ih ih' =>
    have hvalue := ih'.of_suffix ((List.suffix_cons _ _).trans target.suffix)
    exact ih.append (.mark .equal hvalue)
  | conditional hcondition _ hyes _ _ ih ih' ih'' =>
    have hus := (List.suffix_cons _ _).trans hcondition.suffix
    have hvs := ((List.suffix_cons _ _).trans hyes.suffix).trans hus
    have hno := ih''.of_suffix hvs
    exact ih.append (.mark .question ((ih'.of_suffix hus).append (.mark .colon hno)))
  | unary hop _ ih => exact .kept (List.mem_cons_self ..) (Token.item_of_unary hop) ih.tail
  | no => exact .mark .falseWord (.nil _)
  | yes => exact .mark .trueWord (.nil _)
  | nil => exact .mark .nilWord (.nil _)
  | number ht hvalue =>
    exact .kept (List.mem_cons_self ..) (Token.item_of_number ht hvalue) (.nil _)
  | string ht htext =>
    exact .kept (List.mem_cons_self ..) (Token.item_of_string ht htext) (.nil _)
  | group _ _ _ ih => exact .mark .leftParen (ih.tail.append (.mark .rightParen (.nil _)))
  | name hx => exact .kept (List.mem_cons_self ..) (Token.item_of_identifier hx) (.nil _)
  | missing => exact .nil _

/-! ## Statements -/

section Statements

variable {endLine : UInt32} {m : Nat} {ts us : List Token} {ev : List Event}

theorem Expr.ReadsEnded.keptFrom {e : Expr} (h : Expr.ReadsEnded endLine m ts e us ev) :
    KeptFrom ts e.items := by
  obtain ⟨_, hreads, -⟩ := h
  exact hreads.keptFrom

theorem Expr.ReadsOptional.keptFrom {kind : TokenKind} {o : Option Expr}
    (h : Expr.ReadsOptional endLine m kind ts o us ev) : ∀ e ∈ o, KeptFrom ts e.items := by
  cases h with
  | none => exact fun e he => nomatch he
  | some _ value =>
    rintro e ⟨⟩
    exact value.keptFrom

theorem Stmt.ReadsVariable.keptFrom {s : Stmt} (h : Stmt.ReadsVariable endLine m ts s us ev) :
    KeptFrom ts s.items := by
  cases h with
  | bare hname =>
    exact .mark .varWord (.kept (List.mem_cons_self ..) (Token.item_of_identifier hname)
      (.mark .semicolon (.nil _)))
  | valued hname _ value =>
    have hvalue := value.keptFrom.append (.mark .semicolon (.nil _))
    exact .mark .varWord (.kept (List.mem_cons_self ..) (Token.item_of_identifier hname)
      (.mark .equal hvalue.tail.tail))

theorem Stmt.ReadsInitial.keptFrom {o : Option Stmt}
    (h : Stmt.ReadsInitial endLine m ts o us ev) : ∀ s ∈ o, KeptFrom ts s.items := by
  cases h with
  | none => exact fun s hs => nomatch hs
  | declared _ declaration =>
    rintro s ⟨⟩
    exact declaration.keptFrom.tail
  | stated _ _ value =>
    rintro s ⟨⟩
    exact value.keptFrom.append (.mark .semicolon (.nil _))

/-- A condition in parentheses behind a word. -/
theorem KeptFrom.condition {c : Expr} {is : List Item} (k : TokenKind)
    (hc : KeptFrom ts c.items) (h : KeptFrom ts is) :
    KeptFrom ts (.mark k :: .mark .leftParen :: (c.items ++ .mark .rightParen :: is)) :=
  .mark k (.mark .leftParen (hc.append (.mark .rightParen h)))

theorem KeptFrom.block {ss : Program} (h : KeptFrom ts (Program.items ss)) :
    KeptFrom ts (Stmt.block ss).items :=
  .mark .leftBrace (h.append (.mark .rightBrace (.nil _)))

/-- A loop keeps what its clauses and its body keep. -/
theorem KeptFrom.ofFor {i : Option Stmt} {c n : Option Expr} {s : Stmt}
    (hi : ∀ s' ∈ i, KeptFrom ts s'.items) (hc : ∀ e ∈ c, KeptFrom ts e.items)
    (hn : ∀ e ∈ n, KeptFrom ts e.items) (hs : KeptFrom ts s.items) :
    KeptFrom ts (Stmt.ofFor i c n s).items := by
  have hcondition : KeptFrom ts (c.getD (.bool true)).items := by
    cases c with
    | none => exact .mark .trueWord (.nil _)
    | some e => exact hc e rfl
  have hloop : ∀ {body : Stmt}, KeptFrom ts body.items →
      KeptFrom ts (Stmt.loop (c.getD (.bool true)) body).items :=
    fun hbody => hcondition.condition .whileWord hbody
  have hlast : ∀ e ∈ n, KeptFrom ts (Stmt.block [s, .expression e]).items := fun e he =>
    .block (hs.append (((hn e he).append (.mark .semicolon (.nil _))).append (.nil _)))
  cases i with
  | none =>
    cases n with
    | none => exact hloop hs
    | some e => exact hloop (hlast e rfl)
  | some s' =>
    cases n with
    | none => exact .block ((hi s' rfl).append ((hloop hs).append (.nil _)))
    | some e => exact .block ((hi s' rfl).append ((hloop (hlast e rfl)).append (.nil _)))

theorem KeptFrom.singleton {s : Stmt} (h : KeptFrom ts (Program.items [s])) :
    KeptFrom ts s.items :=
  fun i hi => h i (List.mem_append_left _ hi)

/-- Statements that were read have kept nothing but what there was. -/
theorem Stmt.Reads.keptFrom {scope : Stmt.Scope} {ss : List Stmt}
    (h : Stmt.Reads endLine m scope ts ss us ev) : KeptFrom ts (Program.items ss) := by
  induction h with
  | opened _ ih | stated _ _ ih => exact ih
  | print _ value =>
    have hvalue := value.keptFrom.append (.mark .semicolon (.nil _))
    exact .append (.mark .printWord hvalue.tail) (.nil _)
  | expression _ value =>
    exact .append (value.keptFrom.append (.mark .semicolon (.nil _))) (.nil _)
  | block _ _ _ ih => exact .append (.block ih.tail) (.nil _)
  | ifThen _ _ condition _ _ _ ih =>
    have hyes := ih.singleton.of_suffix ((List.suffix_cons _ _).trans condition.suffix)
    exact .append (condition.keptFrom.condition .ifWord hyes).tail.tail (.nil _)
  | loop _ _ condition _ _ ih =>
    have hbody := ih.singleton.of_suffix ((List.suffix_cons _ _).trans condition.suffix)
    exact .append (condition.keptFrom.condition .whileWord hbody).tail.tail (.nil _)
  | ifElse _ _ condition _ yes _ _ ih ih' =>
    have hus := (List.suffix_cons _ _).trans condition.suffix
    have hyes := ih.singleton.of_suffix hus
    have hno := ih'.singleton.of_suffix (((List.suffix_cons _ _).trans yes.suffix).trans hus)
    have hbranches := hyes.append (.mark .elseWord hno)
    exact .append (condition.keptFrom.condition .ifWord hbranches).tail.tail (.nil _)
  | forLoop _ _ initial condition _ increment _ _ ih =>
    have hus := initial.suffix
    have hvs := ((List.suffix_cons _ _).trans condition.suffix).trans hus
    have hws := ((List.suffix_cons _ _).trans increment.suffix).trans hvs
    have hloop := KeptFrom.ofFor initial.keptFrom
      (fun e he => (condition.keptFrom e he).of_suffix hus)
      (fun e he => (increment.keptFrom e he).of_suffix hvs) (ih.singleton.of_suffix hws)
    exact .append hloop.tail.tail (.nil _)
  | declared _ inner => exact .append inner.keptFrom.tail (.nil _)
  | skipped | done => exact .nil _
  | next _ first _ ih ih' =>
    rw [Program.items_append]
    exact ih.append (ih'.of_suffix first.suffix)

end Statements

end LoxSyntax
