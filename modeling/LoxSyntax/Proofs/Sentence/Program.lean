import LoxSyntax.Proofs.Sentence.Expression
import LoxSyntax.Proofs.Session.Calls

/-!
# The sentences that are programs

The grammar of statements and programs as it is written down, without a parser.  A `for` loop is a
sentence of its own, whose tree is the `while` loop it abbreviates.  An `else` belongs to the
nearest `if` that it can belong to, which is why a derivation tells whether its sentence ends in a
statement whose `if` has no `else` yet.

* `Phrase`, `Stmt.Derives` — the grammar.
* `Program.Derives` — the sentences that are programs, with their trees.
* `Stmt.Derives.items` — without `for`, the tree has kept the tokens of its sentence in their order.
* **`Stmt.Reads.derives`** — what was read without a complaint is a sentence, and its tree.
* **`Parser.program_derives`** — a text without errors is the sentence of the program that is read.
-/

namespace LoxSyntax

/-! ## Parts that hold no statement -/

/-- An expression or nothing. -/
inductive Expr.DerivesOptional : List Token → Option Expr → Prop
  | none : DerivesOptional [] none
  | some {ts e} (value : Expr.Derives .comma ts e) : DerivesOptional ts (some e)

namespace Stmt

/-- A variable declaration. -/
inductive DerivesVariable : List Token → Stmt → Prop
  | bare {word name semicolon} (hword : word.kind = .varWord) (hname : name.kind = .identifier)
      (hsemicolon : semicolon.kind = .semicolon) :
      DerivesVariable [word, name, semicolon] (.declare name none)
  | valued {word name equals ts e semicolon} (hword : word.kind = .varWord)
      (hname : name.kind = .identifier) (hequals : equals.kind = .equal)
      (value : Expr.Derives .comma ts e) (hsemicolon : semicolon.kind = .semicolon) :
      DerivesVariable (word :: name :: equals :: (ts ++ [semicolon])) (.declare name (some e))

/-- The first clause of a `for` loop. -/
inductive DerivesInitial : List Token → Option Stmt → Prop
  | none {semicolon} (hsemicolon : semicolon.kind = .semicolon) : DerivesInitial [semicolon] none
  | declared {ts s} (declaration : DerivesVariable ts s) : DerivesInitial ts (some s)
  | stated {ts e semicolon} (value : Expr.Derives .comma ts e)
      (hsemicolon : semicolon.kind = .semicolon) :
      DerivesInitial (ts ++ [semicolon]) (some (.expression e))

end Stmt

/-! ## The grammar -/

/-- What a sentence is. -/
inductive Phrase
  /-- A statement, and whether it ends in one whose `if` has no `else`. -/
  | statement (openIf : Bool)
  | declarations

/-- `Derives phrase ts ss`: the tokens are a sentence, and `ss` is what it means.  A statement means
a list of one. -/
inductive Stmt.Derives : Phrase → List Token → List Stmt → Prop
  | expression {ts e semicolon} (value : Expr.Derives .comma ts e)
      (hsemicolon : semicolon.kind = .semicolon) :
      Derives (.statement false) (ts ++ [semicolon]) [.expression e]
  | print {word ts e semicolon} (hword : word.kind = .printWord)
      (value : Expr.Derives .comma ts e) (hsemicolon : semicolon.kind = .semicolon) :
      Derives (.statement false) (word :: (ts ++ [semicolon])) [.print e]
  | block {left ts ss right} (hleft : left.kind = .leftBrace)
      (inner : Derives .declarations ts ss) (hright : right.kind = .rightBrace) :
      Derives (.statement false) (left :: (ts ++ [right])) [.block ss]
  | ifThen {b word left ts c right us s} (hword : word.kind = .ifWord)
      (hleft : left.kind = .leftParen) (condition : Expr.Derives .comma ts c)
      (hright : right.kind = .rightParen) (yes : Derives (.statement b) us [s]) :
      Derives (.statement true) (word :: left :: (ts ++ right :: us)) [.ifThen c s]
  /-- The branch in front of `else` has no `if` that the `else` could belong to instead. -/
  | ifElse {b word left ts c right us s other vs s'} (hword : word.kind = .ifWord)
      (hleft : left.kind = .leftParen) (condition : Expr.Derives .comma ts c)
      (hright : right.kind = .rightParen) (yes : Derives (.statement false) us [s])
      (hother : other.kind = .elseWord) (no : Derives (.statement b) vs [s']) :
      Derives (.statement b) (word :: left :: (ts ++ right :: (us ++ other :: vs)))
        [.ifElse c s s']
  | loop {b word left ts c right us s} (hword : word.kind = .whileWord)
      (hleft : left.kind = .leftParen) (condition : Expr.Derives .comma ts c)
      (hright : right.kind = .rightParen) (body : Derives (.statement b) us [s]) :
      Derives (.statement b) (word :: left :: (ts ++ right :: us)) [.loop c s]
  | forLoop {b word left ts i us c semicolon vs n right ws s} (hword : word.kind = .forWord)
      (hleft : left.kind = .leftParen) (initial : DerivesInitial ts i)
      (condition : Expr.DerivesOptional us c) (hsemicolon : semicolon.kind = .semicolon)
      (increment : Expr.DerivesOptional vs n) (hright : right.kind = .rightParen)
      (body : Derives (.statement b) ws [s]) :
      Derives (.statement b)
        (word :: left :: (ts ++ (us ++ semicolon :: (vs ++ right :: ws)))) [.ofFor i c n s]
  | nil : Derives .declarations [] []
  | declared {ts s us ss} (first : DerivesVariable ts s) (rest : Derives .declarations us ss) :
      Derives .declarations (ts ++ us) (s :: ss)
  | stated {b ts s us ss} (first : Derives (.statement b) ts [s])
      (rest : Derives .declarations us ss) : Derives .declarations (ts ++ us) (s :: ss)

/-- The tokens are a program, and `p` is its tree. -/
def Program.Derives (ts : List Token) (p : Program) : Prop :=
  Stmt.Derives .declarations ts p

/-- Programs may be written one behind the other. -/
theorem Stmt.Derives.append {ts us : List Token} {ss ss' : List Stmt}
    (h : Stmt.Derives .declarations ts ss) (h' : Stmt.Derives .declarations us ss') :
    Stmt.Derives .declarations (ts ++ us) (ss ++ ss') := by
  generalize hphrase : Phrase.declarations = phrase at h
  induction h with
  | nil => exact h'
  | declared first _ ih =>
    rw [List.append_assoc]
    exact .declared first (ih hphrase)
  | stated first _ _ ih =>
    rw [List.append_assoc]
    exact .stated first (ih hphrase)
  | _ => cases hphrase

/-! ## What trees have kept -/

theorem Stmt.DerivesVariable.items {ts : List Token} {s : Stmt} (h : DerivesVariable ts s) :
    ts.map Token.item = s.items := by
  cases h with
  | bare hword hname hsemicolon =>
    simp only [List.map_cons, List.map_nil, Stmt.items, Token.item_of_identifier hname,
      Token.item_of_mark hword rfl,
      Token.item_of_mark hsemicolon rfl]
  | valued hword hname hequals value hsemicolon =>
    simp only [List.map_cons, List.map_append, List.map_nil, Stmt.items, value.items,
      Token.item_of_identifier hname,
      Token.item_of_mark hword rfl,
      Token.item_of_mark hequals rfl,
      Token.item_of_mark hsemicolon rfl]

/-- Without `for`, the tree has kept the tokens of its sentence in their order. -/
theorem Stmt.Derives.items {phrase : Phrase} {ts : List Token} {ss : List Stmt}
    (h : Stmt.Derives phrase ts ss) (hfor : ∀ t ∈ ts, t.kind ≠ .forWord) :
    ts.map Token.item = Program.items ss := by
  induction h with
  | expression value hsemicolon =>
    simp only [List.map_append, List.map_cons, List.map_nil, Program.items, Stmt.items,
      List.append_nil, value.items,
      Token.item_of_mark hsemicolon rfl]
  | print hword value hsemicolon =>
    simp only [List.map_append, List.map_cons, List.map_nil, Program.items, Stmt.items,
      List.append_nil, value.items,
      Token.item_of_mark hword rfl,
      Token.item_of_mark hsemicolon rfl]
  | block hleft _ hright ih =>
    simp only [List.mem_cons, List.mem_append, or_imp, forall_and] at hfor
    simp only [List.map_append, List.map_cons, List.map_nil, Program.items, Stmt.items,
      List.append_nil, ih hfor.2.1,
      Token.item_of_mark hleft rfl,
      Token.item_of_mark hright rfl]
  | ifThen hword hleft condition hright _ ih =>
    simp only [List.mem_cons, List.mem_append, or_imp, forall_and] at hfor
    have hyes := ih hfor.2.2.2.2
    simp only [Program.items, List.append_nil] at hyes
    simp only [List.map_append, List.map_cons, Program.items, Stmt.items, List.append_nil,
      condition.items, hyes,
      Token.item_of_mark hword rfl,
      Token.item_of_mark hleft rfl,
      Token.item_of_mark hright rfl]
  | ifElse hword hleft condition hright _ hother _ ih ih' =>
    simp only [List.mem_cons, List.mem_append, or_imp, forall_and] at hfor
    have hyes := ih hfor.2.2.2.2.1
    have hno := ih' hfor.2.2.2.2.2.2
    simp only [Program.items, List.append_nil] at hyes hno
    simp only [List.map_append, List.map_cons, Program.items, Stmt.items, List.append_nil,
      condition.items, hyes, hno,
      Token.item_of_mark hword rfl,
      Token.item_of_mark hleft rfl,
      Token.item_of_mark hright rfl,
      Token.item_of_mark hother rfl]
  | loop hword hleft condition hright _ ih =>
    simp only [List.mem_cons, List.mem_append, or_imp, forall_and] at hfor
    have hbody := ih hfor.2.2.2.2
    simp only [Program.items, List.append_nil] at hbody
    simp only [List.map_append, List.map_cons, Program.items, Stmt.items, List.append_nil,
      condition.items, hbody,
      Token.item_of_mark hword rfl,
      Token.item_of_mark hleft rfl,
      Token.item_of_mark hright rfl]
  | forLoop hword => exact absurd hword (hfor _ (List.mem_cons_self ..))
  | nil => rfl
  | declared first _ ih =>
    simp only [List.mem_append, or_imp, forall_and] at hfor
    rw [List.map_append, first.items, ih hfor.2]
    rfl
  | stated _ _ ih ih' =>
    simp only [List.mem_append, or_imp, forall_and] at hfor
    have hfirst := ih hfor.1
    simp only [Program.items, List.append_nil] at hfirst
    rw [List.map_append, hfirst, ih' hfor.2]
    rfl

/-! ## What was read is a sentence -/

section Reads

variable {endLine : UInt32} {m : Nat} {ts us : List Token} {ev : List Event}

theorem Expr.ReadsEnded.derives {e : Expr} (h : Expr.ReadsEnded endLine m ts e us ev)
    (hclean : ∀ d, .diagnosed d ∉ ev) :
    ∃ used semicolon, ts = used ++ semicolon :: us ∧ Expr.Derives .comma used e ∧
      semicolon.kind = .semicolon := by
  obtain ⟨semicolon, hreads, hsemicolon⟩ := h
  obtain ⟨used, rfl, hderives⟩ := hreads.derives hclean
  exact ⟨used, semicolon, rfl, hderives, hsemicolon⟩

theorem Expr.ReadsOptional.derives {kind : TokenKind} {o : Option Expr}
    (h : Expr.ReadsOptional endLine m kind ts o us ev) (hclean : ∀ d, .diagnosed d ∉ ev) :
    ∃ used, ts = used ++ us ∧ Expr.DerivesOptional used o := by
  cases h with
  | none => exact ⟨[], rfl, .none⟩
  | some _ value =>
    obtain ⟨used, rfl, hderives⟩ := value.derives hclean
    exact ⟨used, rfl, .some hderives⟩

theorem Stmt.ReadsVariable.derives {s : Stmt} (h : Stmt.ReadsVariable endLine m ts s us ev)
    (hclean : ∀ d, .diagnosed d ∉ ev) {word : Token} (hword : word.kind = .varWord) :
    ∃ used, word :: ts = used ++ us ∧ Stmt.DerivesVariable used s := by
  cases h with
  | @bare name semicolon us hname hsemicolon =>
    exact ⟨[word, name, semicolon], rfl, .bare hword hname hsemicolon⟩
  | @valued name equals ts e us ev hname hequals value =>
    obtain ⟨used, semicolon, rfl, hderives, hsemicolon⟩ := value.derives hclean
    exact ⟨word :: name :: equals :: (used ++ [semicolon]), by simp,
      .valued hword hname hequals hderives hsemicolon⟩

theorem Stmt.ReadsInitial.derives {o : Option Stmt}
    (h : Stmt.ReadsInitial endLine m ts o us ev) (hclean : ∀ d, .diagnosed d ∉ ev) :
    ∃ used, ts = used ++ us ∧ Stmt.DerivesInitial used o := by
  cases h with
  | none hsemicolon => exact ⟨[_], rfl, .none hsemicolon⟩
  | declared hword declaration =>
    obtain ⟨used, hused, hderives⟩ := declaration.derives hclean hword
    exact ⟨used, hused, .declared hderives⟩
  | stated _ _ value =>
    obtain ⟨used, semicolon, rfl, hderives, hsemicolon⟩ := value.derives hclean
    exact ⟨used ++ [semicolon], by simp, .stated hderives hsemicolon⟩

/-- The phrase that a derivation is of.  A statement may only be left open where no `else` comes
next. -/
def Stmt.Scope.Allows (next : TokenKind) : Stmt.Scope → Phrase → Prop
  | .statement, .statement openIf | .body, .statement openIf => openIf → next ≠ .elseWord
  | .declaration, .declarations | .declarations _, .declarations => True
  | _, _ => False

/-- What was read without a complaint is a sentence, and its tree. -/
theorem Stmt.Reads.derives {scope : Stmt.Scope} {ss : List Stmt}
    (h : Stmt.Reads endLine m scope ts ss us ev) (hclean : ∀ d, .diagnosed d ∉ ev) :
    ∃ used phrase, ts = used ++ us ∧ Stmt.Derives phrase used ss ∧
      scope.Allows (nextKind us) phrase := by
  induction h with
  | opened _ ih =>
    obtain ⟨used, _ | _, hused, hderives, hallows⟩ := ih hclean
    · exact ⟨used, .statement _, hused, hderives, hallows⟩
    · cases hallows
  | print hword value =>
    obtain ⟨used, semicolon, rfl, hderives, hsemicolon⟩ := value.derives hclean
    exact ⟨_ :: (used ++ [semicolon]), .statement false, by simp,
      .print hword hderives hsemicolon, nofun⟩
  | expression _ value =>
    obtain ⟨used, semicolon, rfl, hderives, hsemicolon⟩ := value.derives hclean
    exact ⟨used ++ [semicolon], .statement false, by simp, .expression hderives hsemicolon, nofun⟩
  | @block m left ts ss right us ev hleft _ hright ih =>
    obtain ⟨used, _ | _, rfl, hderives, hallows⟩ := ih hclean
    · cases hallows
    · exact ⟨left :: (used ++ [right]), .statement false, by simp,
        .block hleft hderives hright, nofun⟩
  | @ifThen m word left ts c right us s vs ev ev' hword hleft condition hright _ stop ih =>
    simp only [List.mem_append, not_or, forall_and] at hclean
    obtain ⟨used, rfl, hcondition⟩ := condition.derives hclean.1
    obtain ⟨used', b | _, rfl, hyes, hallows⟩ := ih hclean.2
    · exact ⟨word :: left :: (used ++ right :: used'), .statement true, by simp,
        .ifThen hword hleft hcondition hright hyes, fun _ => stop⟩
    · cases hallows
  | @ifElse m word left ts c right us s other vs s' ws ev ev' ev'' hword hleft condition hright
      _ hother _ ih ih' =>
    simp only [List.mem_append, not_or, forall_and] at hclean
    obtain ⟨used, rfl, hcondition⟩ := condition.derives hclean.1
    obtain ⟨used', b | _, rfl, hyes, hallows⟩ := ih hclean.2.1
    · obtain ⟨used'', b' | _, rfl, hno, hallows'⟩ := ih' hclean.2.2
      · -- an open branch would have taken the `else`
        cases b with
        | true => exact absurd hother (hallows rfl)
        | false =>
          exact ⟨word :: left :: (used ++ right :: (used' ++ other :: used'')), .statement b',
            by simp, .ifElse hword hleft hcondition hright hyes hother hno, hallows'⟩
      · cases hallows'
    · cases hallows
  | @loop m word left ts c right us s vs ev ev' hword hleft condition hright _ ih =>
    simp only [List.mem_append, not_or, forall_and] at hclean
    obtain ⟨used, rfl, hcondition⟩ := condition.derives hclean.1
    obtain ⟨used', b | _, rfl, hbody, hallows⟩ := ih hclean.2
    · exact ⟨word :: left :: (used ++ right :: used'), .statement b, by simp,
        .loop hword hleft hcondition hright hbody, hallows⟩
    · cases hallows
  | @forLoop m word left ts i us c semicolon vs n right ws s xs ev ev' ev'' ev''' hword hleft
      initial condition hsemicolon increment hright _ ih =>
    simp only [List.mem_append, not_or, forall_and] at hclean
    obtain ⟨used₁, rfl, hinitial⟩ := initial.derives hclean.1
    obtain ⟨used₂, rfl, hcondition⟩ := condition.derives hclean.2.1
    obtain ⟨used₃, rfl, hincrement⟩ := increment.derives hclean.2.2.1
    obtain ⟨used₄, b | _, rfl, hbody, hallows⟩ := ih hclean.2.2.2
    · exact ⟨word :: left :: (used₁ ++ (used₂ ++ semicolon :: (used₃ ++ right :: used₄))),
        .statement b, by simp,
        .forLoop hword hleft hinitial hcondition hsemicolon hincrement hright hbody, hallows⟩
    · cases hallows
  | declared hword inner =>
    obtain ⟨used, hused, hderives⟩ :=
      inner.derives (fun d hd => hclean d (List.mem_cons_of_mem _ hd)) hword
    refine ⟨used, .declarations, hused, ?_, trivial⟩
    simpa using Stmt.Derives.declared hderives .nil
  | stated _ _ ih =>
    obtain ⟨used, b | _, hused, hderives, hallows⟩ :=
      ih fun d hd => hclean d (List.mem_cons_of_mem _ hd)
    · refine ⟨used, .declarations, hused, ?_, trivial⟩
      simpa using Stmt.Derives.stated hderives .nil
    · cases hallows
  | skipped _ _ reported =>
    obtain ⟨d, -, hd⟩ := reported
    exact absurd hd (hclean d)
  | done => exact ⟨[], .declarations, rfl, .nil, trivial⟩
  | @next m last ts ss us ss' vs ev ev' _ _ _ ih ih' =>
    simp only [List.mem_append, not_or, forall_and] at hclean
    obtain ⟨used, _ | _, rfl, hfirst, hallows⟩ := ih hclean.1
    · cases hallows
    obtain ⟨used', _ | _, rfl, hrest, hallows'⟩ := ih' hclean.2
    · cases hallows'
    exact ⟨used ++ used', .declarations, by simp, hfirst.append hrest, trivial⟩

end Reads

/-! ## Texts without errors -/

theorem takeWhile_append_eof (tokens : List Token) (line : UInt32) :
    (tokens ++ [Token.eof line]).takeWhile (·.kind != .eof) =
      tokens.takeWhile (·.kind != .eof) := by
  induction tokens with
  | nil => rfl
  | cons t ts ih => simp only [List.cons_append, List.takeWhile_cons, ih]

/-- The tokens that are read are those in front of the first end of the text. -/
theorem Place.unread_ofTokens (tokens : List Token) :
    (Place.ofTokens tokens).unread = tokens.takeWhile (·.kind != .eof) := by
  show (completed tokens).takeWhile (·.kind != .eof) = _
  unfold completed
  split
  · next hlast =>
    obtain rfl := List.getLast?_eq_none_iff.1 hlast
    rfl
  · split
    · rfl
    · exact takeWhile_append_eof tokens _

/-- A text without errors is a sentence, and the program that is read is its tree.  Without `for`
the tree has kept all of it in order. -/
theorem Parser.program_derives (ceiling : Nat) (tokens : List Token)
    (h : (Parser.ofTokens ceiling tokens).program.2.report.isEmpty) :
    let text := tokens.takeWhile (·.kind != .eof)
    let program := (Parser.ofTokens ceiling tokens).program.1
    Program.Derives text program ∧
      ((∀ t ∈ text, t.kind ≠ .forWord) → Program.items program = text.map Token.item) := by
  intro text program
  obtain ⟨ss, us, ev, hgives, hreads⟩ :=
    Grammar.program_reads (Parser.ofTokens ceiling tokens).cursor
  have hprogram : program = ss := by
    show (Parser.ofTokens ceiling tokens).program.1 = ss
    rw [program_fst, hgives]
    rfl
  have hclean : ∀ d, .diagnosed d ∉ ev := by
    have herrors := program_errors (Parser.ofTokens ceiling tokens)
    rw [hgives] at herrors
    refine errorsOf_eq_nil.1 ?_
    rw [Report.isEmpty, List.isEmpty_iff, herrors] at h
    exact (List.append_eq_nil_iff.1 h).2
  have htext : (Parser.ofTokens ceiling tokens).cursor.unread = text :=
    Place.unread_ofTokens tokens
  rw [htext] at hreads
  obtain ⟨used, _ | _, hused, hderives, hallows⟩ := hreads.derives hclean
  · cases hallows
  obtain rfl : us = [] := hreads.eq_nil_of_program fun t ht => by
    simpa using List.all_eq_true.1 List.all_takeWhile t ht
  rw [List.append_nil] at hused
  rw [hprogram, hused]
  exact ⟨hderives, fun hfor => (hderives.items hfor).symm⟩

/-- The tokens of `if (a) b = -c; else { }`. -/
def branchTokens : List Token :=
  [⟨.ifWord, "if", 1, none⟩, ⟨.leftParen, "(", 1, none⟩, ⟨.identifier, "a", 1, none⟩,
    ⟨.rightParen, ")", 1, none⟩, ⟨.identifier, "b", 2, none⟩, ⟨.equal, "=", 2, none⟩,
    ⟨.minus, "-", 2, none⟩, ⟨.identifier, "c", 2, none⟩, ⟨.semicolon, ";", 2, none⟩,
    ⟨.elseWord, "else", 3, none⟩, ⟨.leftBrace, "\x7b", 3, none⟩,
    ⟨.rightBrace, "\x7d", 3, none⟩, Token.eof 3]

theorem Parser.derives_branchTokens :
    (Parser.ofTokens 6 branchTokens).program.2.report.isEmpty ∧
      Program.Derives (branchTokens.takeWhile (·.kind != .eof))
        (Parser.ofTokens 6 branchTokens).program.1 ∧
      Program.items (Parser.ofTokens 6 branchTokens).program.1 =
        (branchTokens.takeWhile (·.kind != .eof)).map Token.item := by
  have hclean : (Parser.ofTokens 6 branchTokens).program.2.report.isEmpty = true := by
    decide +kernel
  have hfor : ∀ t ∈ branchTokens.takeWhile (·.kind != .eof), t.kind ≠ .forWord := by decide
  obtain ⟨hderives, hitems⟩ := Parser.program_derives 6 branchTokens hclean
  exact ⟨hclean, hderives, hitems hfor⟩

end LoxSyntax
