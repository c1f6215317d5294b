import LoxSyntax.Proofs.Misfit.Program
import LoxSyntax.Proofs.Recovery.Forms
import LoxSyntax.Proofs.Session.Renewal
import LoxSyntax.Proofs.Source.Concatenation

/-!
# What stands behind a program

When more tokens are put behind a program, its declarations are read as before, up to the last one.
That one too is read as before if it could be read, or if it failed in front of its end and recovery
stops behind a semicolon there; then the tokens put behind it are read as the program that they are
alone.

* `Rule.Demands` — rules that cannot read anything where no token is left.
* `Rule.Settles`, **`Grammar.statementAt_settles`** — a statement that ends where the first text
  does is read in the longer text, too.
* `Grammar.declaration_settles` — a declaration at the end of the first text.
* `Grammar.Attempts.exists_twin` — the declarations up to the last one.
* **`Parser.program_append`** — both programs, one after the other.
-/

namespace LoxSyntax

variable {α β : Type} {f : Fork} {m : Nat}

namespace Rule

/-- Behind a rule that succeeds. -/
theorem bind_reply_of_some {rule : Rule α} {c : Cursor} {a : α} (h : (rule c).result = some a)
    (next : α → Rule β) : (rule >>= next) c =
      { next a (rule c).cursor with
        events := (rule c).events ++ (next a (rule c).cursor).events } := by
  rw [bind_reply, h]

/-- A sequence that succeeds has a first rule that does. -/
theorem exists_result_of_bind {rule : Rule α} {next : α → Rule β} {c : Cursor}
    (h : ((rule >>= next) c).result ≠ none) : ∃ a, (rule c).result = some a := by
  rw [bind_reply] at h
  split at h
  · next a ha => exact ⟨a, ha⟩
  · exact absurd rfl h

/-! ## Rules that cannot do without a token -/

/-- Where `m` levels may be opened, the rule fails if no token is left. -/
def Demands (m : Nat) (rule : Rule α) : Prop :=
  ∀ c : Cursor, c.room = m → (rule c).result ≠ none → c.unread ≠ []

namespace Demands

theorem expect_bind (landmark : Landmark) (next : Token → Rule β) :
    (expect landmark >>= next).Demands m := by
  intro c _ hsome hnil
  have hne : nextKind c.unread ≠ landmark.kind := by
    rw [hnil]
    exact landmark.kind_ne_eof.symm
  rw [expect_bind_of_ne next hne] at hsome
  exact hsome rfl

theorem bind_left {rule : Rule α} {next : α → Rule β} (h : rule.Demands m) :
    (rule >>= next).Demands m := by
  intro c hroom hsome
  obtain ⟨a, ha⟩ := exists_result_of_bind hsome
  exact h c hroom (by simp [ha])

theorem map {rule : Rule α} (h : rule.Demands m) (g : α → β) : (g <$> rule).Demands m :=
  fun c hroom hsome => h c hroom fun hnone => hsome (congrArg (Option.map g) hnone)

end Demands

end Rule

/-! ## Runs that stop at the end -/

/-- What the first run has come to the end with, the second one has come to as well, and it has
stopped behind the fork. -/
structure Reply.Settled (f : Fork) (c' : Cursor) (r r' : Reply α) : Prop where
  result : r'.result = r.result
  cursor : r'.cursor = c'.upTo f.right
  errors : errorsOf r'.events = errorsOf r.events

namespace Rule

/-- Where `m` levels may be opened: if the rule reads all that there is of the first text, it reads
the same of the second one and stops behind it. -/
def Settles (f : Fork) (m : Nat) (rule : Rule α) : Prop :=
  ∀ ⦃c c'⦄, Cursor.Twin f c c' → c.room = m → (rule c).result ≠ none →
    (rule c).cursor.unread = [] → (rule c).Settled f c' (rule c')

/-- As long as the first run has not come to the end, both runs are alike. -/
theorem Foresees.alike {rule rule' : Rule α} (h : Foresees f m rule rule') (hleft : f.left = [])
    {c c' : Cursor} (htwin : Cursor.Twin f c c') (hroom : c.room = m)
    (hne : (rule c).cursor.unread ≠ []) : (rule c).Alike f (rule' c') := by
  refine (h.agrees htwin hroom).resolve_right fun ⟨_, _, _, _, _, hlen⟩ => hne ?_
  rw [hleft] at hlen
  exact List.length_eq_zero_iff.1 (Nat.le_zero.1 hlen)

namespace Settles

/-- Behind a rule with two runs that are alike. -/
theorem settled_bind {rule : Rule α} {next : α → Rule β} (hmade : Widens rule rule) {a : α}
    (hnext : (next a).Settles f m) {c c' : Cursor} (hroom : c.room = m)
    (halike : (rule c).Alike f (rule c')) (ha : (rule c).result = some a)
    (hsome : ((rule >>= next) c).result ≠ none)
    (hnil : ((rule >>= next) c).cursor.unread = []) :
    ((rule >>= next) c).Settled f c' ((rule >>= next) c') := by
  obtain ⟨us, -, hcursor⟩ := hmade.exists_upTo c
  obtain ⟨us', -, hcursor'⟩ := hmade.exists_upTo c'
  rw [bind_reply_of_some ha] at hsome hnil ⊢
  rw [bind_reply_of_some (halike.result.trans ha)]
  obtain ⟨hresult, hend, herrors⟩ :=
    hnext halike.cursor (by rw [hcursor]; exact hroom) hsome hnil
  refine ⟨hresult, hend.trans (by rw [hcursor']; rfl), ?_⟩
  simp only [errorsOf_append, halike.errors, herrors]

/-- If the rest of a sequence demands a token, its first rule has left one. -/
theorem bind (hleft : f.left = []) {rule : Rule α} {next : α → Rule β}
    (hrule : Foresees f m rule rule) (hdemands : ∀ a, (next a).Demands m)
    (hnext : ∀ a, (next a).Settles f m) : (rule >>= next).Settles f m := by
  intro c c' htwin hroom hsome hnil
  obtain ⟨a, ha⟩ := exists_result_of_bind hsome
  obtain ⟨us, -, hcursor⟩ := hrule.made.exists_upTo c
  refine settled_bind hrule.made (hnext a) hroom (hrule.alike hleft htwin hroom ?_) ha hsome hnil
  rw [bind_reply_of_some ha] at hsome
  exact hdemands a _ (by rw [hcursor]; exact hroom) hsome

theorem map {rule : Rule α} (h : rule.Settles f m) (g : α → β) : (g <$> rule).Settles f m := by
  intro c c' htwin hroom hsome hnil
  obtain ⟨hresult, hend, herrors⟩ :=
    h htwin hroom (fun hnone => hsome (congrArg (Option.map g) hnone)) hnil
  exact ⟨congrArg (Option.map g) hresult, hend, herrors⟩

/-- A token at the end. -/
theorem expect_bind_pure (landmark : Landmark) (b : β) :
    (expect landmark >>= fun _ => pure b).Settles f m := by
  rintro c c' ⟨⟨ahead, hts, hts'⟩, -, -⟩ - hsome hnil
  by_cases hkind : nextKind c.unread = landmark.kind
  · rcases ahead with _ | ⟨t, ahead⟩
    · rw [hts] at hkind
      rw [expect_bind_of_kind _ hts hkind, expect_bind_of_kind _ hts' hkind]
      exact ⟨rfl, rfl, rfl⟩
    · rw [hts] at hkind
      rw [expect_bind_of_kind _ hts hkind] at hnil
      simp [Pure.pure, Rule.pure] at hnil
  · rw [expect_bind_of_ne _ hkind] at hsome
    exact absurd rfl hsome

theorem nested {rule : Rule α} (h : rule.Settles f m) :
    (Rule.nested rule).Settles f (m + 1) := by
  intro c c' htwin hroom hsome hnil
  have hlt := c.depth_lt_ceiling hroom
  have hlt' : c'.depth < c'.ceiling := by rwa [htwin.depth, htwin.ceiling]
  rw [nested_of_lt rule hlt] at hsome hnil ⊢
  rw [nested_of_lt rule hlt']
  obtain ⟨hresult, hend, herrors⟩ := h htwin.deeper (c.deeper_room hroom) hsome hnil
  refine ⟨hresult, ?_, herrors⟩
  rw [Reply.shallower, hend]
  rfl

end Settles

end Rule

namespace Grammar

open Rule

/-! ## Statements -/

theorem statementAt_demands (m : Nat) : (statementAt m).Demands m := by
  intro c hroom hsome hnil
  obtain ⟨s, hs⟩ := Option.ne_none_iff_exists'.1 hsome
  have hgives : (statementAt m).Gives c s (statementAt m c).cursor (statementAt m c).events := by
    rw [Gives, ← hs]
  obtain ⟨us, -, hreads⟩ := statementAt_reads m hroom hgives
  have hlen := hreads.length_le
  rw [hnil] at hlen
  simp [Stmt.Scope.reading] at hlen

section Forms

variable (hleft : f.left = []) (hright : nextKind f.right ≠ .elseWord)
  (hstmt : (statementAt m).Settles f m)

include hleft hstmt

theorem elseBranch_settles (alone : Stmt) (both : Stmt → Stmt) :
    (elseBranch m alone both).Settles f m := by
  intro c c' htwin hroom hsome hnil
  obtain ⟨t, ts, ts', hts, hts', hahead⟩ := htwin.place.exists_next
  by_cases ht : t.kind = .elseWord
  · rw [elseBranch_of_else m alone both hts ht] at hsome hnil ⊢
    rw [elseBranch_of_else m alone both hts' ht]
    have hne := (statementAt_demands m).map both (c.upTo ts) hroom hsome
    rcases hahead with rfl | ⟨ahead, rfl, rfl⟩
    · exact absurd hleft hne
    · have hsettled := hstmt.map both (htwin.upTo ahead) hroom hsome hnil
      exact ⟨hsettled.result, hsettled.cursor, hsettled.errors⟩
  · rw [elseBranch_of_ne m alone both (by rw [hts]; exact ht), hts] at hnil
    cases hnil

include hright

/-- A statement that an `else` may follow. -/
theorem branch_settles (alone : Stmt → Stmt) (both : Stmt → Stmt → Stmt) :
    (do
      let yes ← statementAt m
      elseBranch m (alone yes) (both yes) : Rule Stmt).Settles f m := by
  intro c c' htwin hroom hsome hnil
  have hforesees := statementAt_foresees (f := f) m
  obtain ⟨yes, hyes⟩ := exists_result_of_bind hsome
  by_cases hend : (statementAt m c).cursor.unread = []
  · -- at the end there is no `else`, and what comes behind it does not begin with one
    obtain ⟨hresult, hcursor, herrors⟩ := hstmt htwin hroom (by simp [hyes]) hend
    rw [bind_reply_of_some hyes, bind_reply_of_some (hresult.trans hyes),
      elseBranch_of_ne _ _ _ (by rw [hend]; decide),
      elseBranch_of_ne _ _ _ (by rw [hcursor]; exact hright)]
    exact ⟨rfl, hcursor, by simpa using herrors⟩
  · exact Settles.settled_bind hforesees.made (elseBranch_settles hleft hstmt _ _) hroom
      (hforesees.alike hleft htwin hroom hend) hyes hsome hnil

/-- A statement of any form. -/
theorem Form.settles {word : TokenKind} {rule : Rule Stmt} (h : Form m word rule) :
    rule.Settles f m := by
  cases h with
  | ended hhead landmark _ g =>
    exact .bind hleft (hhead.foresees f) (fun _ => .expect_bind _ _)
      fun _ => .expect_bind_pure _ _
  | block =>
    have hbody := (declarationsHere_foresees (f := f) (atRoom_follows m .expression)
      (statementAt_reads m) (atRoom_foresees m .expression) (statementAt_foresees m) .rightBrace)
    have hblock := Settles.bind hleft (Foresees.skip.bind fun _ => hbody)
      (fun _ => .expect_bind .blockEnd _) fun body => .expect_bind_pure _ (Stmt.block body)
    rwa [bind_assoc, show (fun _ => _) = _ from funext fun _ => bind_assoc ..] at hblock
  | led hhead g =>
    exact .bind hleft (hhead.foresees f) (fun a => (statementAt_demands m).map (g a))
      fun a => hstmt.map (g a)
  | branched hhead g g' =>
    exact .bind hleft (hhead.foresees f) (fun a => (statementAt_demands m).bind_left)
      fun a => branch_settles hleft hright hstmt (g a) (g' a)

end Forms

/-- A statement that reads all that there is of the first text. -/
theorem statementAt_settles (hleft : f.left = []) (hright : nextKind f.right ≠ .elseWord)
    (m : Nat) : (statementAt m).Settles f m := by
  induction m with
  | zero =>
    intro c c' _ _ hsome
    exact absurd rfl hsome
  | succ m ih =>
    refine Settles.nested fun c c' htwin hroom hsome hnil => ?_
    obtain ⟨rule, hform, hrule⟩ := exists_form m (nextKind c.unread)
    rw [hrule c rfl] at hsome hnil ⊢
    rw [hrule c' htwin.place.nextKind_eq]
    exact hform.settles hleft hright ih htwin hroom hsome hnil

/-! ## Declarations -/

theorem declared_widens (m : Nat) : Widens (declared (atRoom m .expression) (statementAt m))
    (declared (atRoom m .expression) (statementAt m)) :=
  .ite_eat _ (variableDeclaration_widens (atRoom_widens (Nat.le_refl m) .expression))
    (statementAt_widens (Nat.le_refl m))

theorem declared_foresees (m : Nat) :
    Foresees f m (declared (atRoom m .expression) (statementAt m))
      (declared (atRoom m .expression) (statementAt m)) :=
  .ite_eat _ (variableDeclaration_foresees (atRoom_foresees m .expression))
    (statementAt_foresees m)

theorem declared_settles (hleft : f.left = []) (hright : nextKind f.right ≠ .elseWord) (m : Nat) :
    (declared (atRoom m .expression) (statementAt m)).Settles f m := by
  have hstmt := statementAt_settles hleft hright m
  intro c c' htwin hroom hsome hnil
  by_cases hword : nextKind c.unread = .varWord
  · obtain ⟨rule, hform, hrule⟩ := exists_variable_form m
    rw [hrule c hword] at hsome hnil ⊢
    rw [hrule c' (htwin.place.nextKind_eq.trans hword)]
    exact hform.settles hleft hright hstmt htwin hroom hsome hnil
  · rw [declared_of_ne _ _ hword] at hsome hnil ⊢
    rw [declared_of_ne _ _ (htwin.place.nextKind_eq.symm ▸ hword)]
    exact hstmt htwin hroom hsome hnil

end Grammar

namespace Place

/-- Recovery that comes to the end of the first text goes on behind the last token there. -/
theorem Twin.resume_of_nil {p p' : Place} (htwin : Place.Twin f p p') (hleft : f.left = [])
    (hnil : p.resume.unread = []) : p'.resume.unread = skipToStatement f.last f.right := by
  have hskip : ∀ (ahead : List Token) (skipped : Token),
      skipToStatement skipped (ahead ++ [f.last]) = [] →
        skipToStatement skipped (ahead ++ f.last :: f.right) = skipToStatement f.last f.right := by
    intro ahead
    induction ahead with
    | nil =>
      intro skipped h
      rw [List.nil_append, skipToStatement] at h ⊢
      split at h
      · cases h
      · next hgo => rw [if_neg hgo]
    | cons t ahead ih =>
      intro skipped h
      rw [List.cons_append, skipToStatement] at h ⊢
      split at h
      · cases h
      · next hgo =>
        rw [if_neg hgo]
        exact ih t h
  obtain ⟨_ | ⟨t, ahead⟩, hp, hp'⟩ := htwin
  · rw [Place.resume, hp']
    rfl
  · rw [hleft] at hp
    rw [Place.resume, hp] at hnil
    rw [Place.resume, hp']
    exact hskip ahead t hnil

/-- Recovery goes no further than a semicolon. -/
theorem skipToStatement_semicolon {skipped : Token} (h : skipped.kind = .semicolon)
    (ts : List Token) : skipToStatement skipped ts = ts := by
  cases ts with
  | nil => rfl
  | cons t ts => rw [skipToStatement, if_pos (.inl h)]

end Place

namespace Grammar

open Rule

theorem exists_unrecovered_upTo (d : Cursor) :
    ∃ us, us <:+ d.unread ∧ (unrecovered d).cursor = d.upTo us :=
  (declared_widens d.room).exists_upTo d

section Declarations

variable {d d' : Cursor} (hleft : f.left = []) (htwin : Cursor.Twin f d d')

include hleft htwin

/-- As long as the end of the first text is not come to, declarations are read alike. -/
theorem unrecovered_alike (hne : (unrecovered d).cursor.unread ≠ []) :
    (unrecovered d).Alike f (unrecovered d') := by
  have halike := (declared_foresees d.room).alike hleft htwin rfl hne
  rw [unrecovered, unrecovered, htwin.room_eq]
  exact halike

theorem declaration_alike (hne : (declaration d).cursor.unread ≠ []) :
    (declaration d).Alike f (declaration d') := by
  have halike := (declarationOf_foresees (atRoom_foresees d.room .expression)
    (statementAt_foresees d.room)).alike hleft htwin rfl hne
  rw [declaration, declaration, htwin.room_eq]
  exact halike

theorem unrecovered_settles (hright : nextKind f.right ≠ .elseWord)
    (hsome : (unrecovered d).result ≠ none) (hnil : (unrecovered d).cursor.unread = []) :
    (unrecovered d).Settled f d' (unrecovered d') := by
  have hsettled := declared_settles hleft hright d.room htwin rfl hsome hnil
  rw [unrecovered, unrecovered, htwin.room_eq]
  exact hsettled

/-- A declaration that ends where the first text does is read in the same way in front of the rest
of the second one, if it could be read, or if it failed in front of a semicolon at the end. -/
theorem declaration_settles (hright : nextKind f.right ≠ .elseWord)
    (hnil : (declaration d).cursor.unread = [])
    (hfail : attempted d = none →
      (unrecovered d).cursor.unread ≠ [] ∧ f.last.kind = .semicolon) :
    (declaration d).Settled f d' (declaration d') := by
  cases hresult : (unrecovered d).result with
  | some s =>
    rw [declaration_of_some hresult] at hnil
    obtain ⟨hresult', hcursor, herrors⟩ :=
      unrecovered_settles hleft htwin hright (by simp [hresult]) hnil
    rw [declaration_of_some hresult, declaration_of_some (hresult'.trans hresult)]
    exact ⟨rfl, hcursor, herrors⟩
  | none =>
    obtain ⟨hne, hlast⟩ := hfail ((attempted_eq d).trans hresult)
    obtain ⟨hresult', hcursor, herrors⟩ := unrecovered_alike hleft htwin hne
    rw [declaration_of_none hresult] at hnil
    rw [declaration_of_none hresult, declaration_of_none (hresult'.trans hresult)]
    refine ⟨rfl, ?_, ?_⟩
    · have hresume := hcursor.place.resume_of_nil hleft hnil
      rw [Place.skipToStatement_semicolon hlast] at hresume
      obtain ⟨us', -, hus'⟩ := exists_unrecovered_upTo d'
      rw [Place.resume_eq, hresume, hus']
      rfl
    · have hquiet : ∀ (ev : List Event) (p q : Place),
          errorsOf (.declaring p :: (ev ++ [.recovering q])) = errorsOf ev := by
        intro ev p q
        show errorsOf (ev ++ [.recovering q]) = errorsOf ev
        rw [errorsOf_append]
        exact List.append_nil _
      rw [hquiet, hquiet, herrors]

end Declarations

/-! ## Programs -/

namespace Attempts

/-- Each declaration begins where the one before has stopped, in front of the end. -/
theorem exists_upTo {c : Cursor} {ds : List Cursor} (h : Attempts c ds) :
    ∀ d ∈ ds, ∃ us, us <:+ c.unread ∧ d = c.upTo us ∧ nextKind us ≠ .eof := by
  induction h with
  | done => simp
  | @next c ds start _ ih =>
    intro d hd
    rcases List.mem_cons.1 hd with rfl | hd
    · exact ⟨d.unread, List.suffix_refl _, rfl, start⟩
    · obtain ⟨o, us, ev, hgives, hus, -⟩ := exists_gives_declaration c
      obtain ⟨vs, hvs, rfl, hstart⟩ := ih d hd
      rw [hgives] at hvs ⊢
      exact ⟨vs, hvs.trans hus, rfl, hstart⟩

/-- With more tokens behind a program, its declarations are read alike up to the last one, which
comes to the end of the program. -/
theorem exists_twin (hleft : f.left = []) {c : Cursor} {ds : List Cursor} (h : Attempts c ds) :
    ∀ {c' : Cursor}, (∀ t ∈ c.unread, t.kind ≠ .eof) → Cursor.Twin f c c' →
      ∃ front d front' d', ds = front ++ [d] ∧ Cursor.Twin f d d' ∧
        (declaration d).cursor.unread = [] ∧ (∃ us, d' = c'.upTo us) ∧
        front'.filterMap attempted = front.filterMap attempted ∧
        errorsOf (front'.flatMap fun d => (declaration d).events) =
          errorsOf (front.flatMap fun d => (declaration d).events) ∧
        ∀ es, Attempts (declaration d').cursor es → Attempts c' (front' ++ d' :: es) := by
  induction h with
  | @done c stop =>
    intro c' heof htwin
    obtain ⟨t, ts, -, hts, -⟩ := htwin.place.exists_next
    rw [hts] at stop heof
    exact absurd stop (heof t (.head _))
  | @next c ds start rest ih =>
    intro c' heof htwin
    by_cases hnil : (declaration c).cursor.unread = []
    · refine ⟨[], c, [], c', ?_, htwin, hnil, ⟨c'.unread, rfl⟩, rfl, rfl,
        fun es hes => .next (htwin.place.nextKind_eq ▸ start) hes⟩
      cases rest with
      | done => rfl
      | next start' => exact absurd (by rw [hnil]; rfl) start'
    · have halike := declaration_alike hleft htwin hnil
      obtain ⟨o, us, ev, hgives, hus, -⟩ := exists_gives_declaration c
      obtain ⟨o', us', ev', hgives', -⟩ := exists_gives_declaration c'
      have heof' : ∀ t ∈ (declaration c).cursor.unread, t.kind ≠ .eof := by
        rw [hgives]
        exact fun t ht => heof t (hus.subset ht)
      obtain ⟨front, d, front', d', rfl, hd, hend, ⟨vs, hd'⟩, hresults, herrors, hattempts⟩ :=
        ih heof' halike.cursor
      refine ⟨c :: front, d, c' :: front', d', rfl, hd, hend, ⟨vs, ?_⟩, ?_, ?_, fun es hes => ?_⟩
      · rw [hd', hgives']
        rfl
      · rw [List.filterMap_cons, List.filterMap_cons, hresults, attempted, attempted,
          halike.result]
      · simp only [List.flatMap_cons, errorsOf_append, halike.errors, herrors]
      · exact .next (htwin.place.nextKind_eq ▸ start) (hattempts es hes)

/-- Tokens that are put behind a program are read as the program that they are alone, if the last
declaration before them could be read, or if it failed in front of a semicolon at the end. -/
theorem exists_append (hleft : f.left = []) (hright : nextKind f.right ≠ .elseWord) {c c' : Cursor}
    {ds es : List Cursor} (h : Attempts c ds) (heof : ∀ t ∈ c.unread, t.kind ≠ .eof)
    (htwin : Cursor.Twin f c c')
    (hlast : ∀ d, ds.getLast? = some d → attempted d = none →
      (unrecovered d).cursor.unread ≠ [] ∧ f.last.kind = .semicolon)
    (hes : Attempts (c'.upTo f.right) es) :
    ∃ ds', Attempts c' (ds' ++ es) ∧ ds'.filterMap attempted = ds.filterMap attempted ∧
      errorsOf (ds'.flatMap fun d => (declaration d).events) =
        errorsOf (ds.flatMap fun d => (declaration d).events) := by
  obtain ⟨front, d, front', d', rfl, hd, hend, ⟨us, rfl⟩, hresults, herrors, hattempts⟩ :=
    h.exists_twin hleft heof htwin
  obtain ⟨hresult, hcursor, herrors'⟩ :=
    declaration_settles hleft hd hright hend (hlast d (by simp))
  rw [Cursor.upTo_upTo] at hcursor
  refine ⟨front' ++ [c'.upTo us], ?_, ?_, ?_⟩
  · rw [List.append_assoc]
    exact hattempts es (hcursor ▸ hes)
  · rw [List.filterMap_append, List.filterMap_append, hresults]
    simp only [List.filterMap_cons, List.filterMap_nil, attempted, hresult]
  · simp only [List.flatMap_append, errorsOf_append, herrors, List.flatMap_cons, List.flatMap_nil,
      List.append_nil, herrors']

end Attempts

end Grammar

/-! ## Parsers -/

namespace Parser

open Grammar

/-- A program by the declarations that it attempts. -/
theorem program_of_attempts {p : Parser} {ds : List Cursor} (h : Attempts p.cursor ds) :
    p.program.1 = ds.filterMap attempted ∧
      p.program.2.report.errors =
        p.report.errors ++ errorsOf (ds.flatMap fun d => (Grammar.declaration d).events) := by
  rw [program_fst, program_errors, h.program_result, h.program_events]
  exact ⟨rfl, rfl⟩

/-- No program without errors begins with an `else`. -/
theorem nextKind_ne_else {ceiling : Nat} {tokens : List Token}
    (h : (ofTokens ceiling tokens).program.2.report.errors = []) :
    nextKind (ofTokens ceiling tokens).cursor.unread ≠ .elseWord := by
  obtain ⟨ss, us, ev, hgives, hreads⟩ := program_reads (ofTokens ceiling tokens).cursor
  rw [program_errors, hgives] at h
  exact hreads.nextKind_ne_else (unbroken_of_clean (errorsOf_eq_nil.1 h)) (by simp)

/-- The beginnings of some tokens and of the same tokens with others behind them. -/
theorem twin_append (ceiling : Nat) {front tokens : List Token} {last : Token}
    (heof : ∀ t ∈ front ++ [last], t.kind ≠ .eof) (hne : tokens ≠ []) :
    Cursor.Twin ⟨last, [], (ofTokens ceiling tokens).cursor.unread⟩
      (ofTokens ceiling (front ++ [last])).cursor
      (ofTokens ceiling (front ++ last :: tokens)).cursor ∧
    (ofTokens ceiling (front ++ last :: tokens)).cursor.upTo
      (ofTokens ceiling tokens).cursor.unread = (ofTokens ceiling tokens).cursor := by
  have hplace := Place.ofTokens_append heof hne
  rw [List.append_assoc, List.singleton_append] at hplace
  refine ⟨⟨⟨front, unread_of_ne_eof ceiling heof, ?_⟩, rfl, rfl⟩, ?_⟩
  · show (Place.ofTokens _).unread = _
    rw [hplace, List.append_assoc]
    rfl
  · simp only [ofTokens, hplace]
    rfl

/-- Tokens without errors that are put behind others are read as the program that they are alone,
if the last declaration before them could be read, or if it failed in front of a semicolon at the
end. -/
theorem program_append {ceiling : Nat} {front tokens : List Token} {last : Token}
    (heof : ∀ t ∈ front ++ [last], t.kind ≠ .eof)
    (haccepted : (ofTokens ceiling tokens).program.2.report.errors = [])
    {ds : List Cursor} (hds : Attempts (ofTokens ceiling (front ++ [last])).cursor ds)
    (hlast : ∀ d, ds.getLast? = some d → attempted d = none →
      (unrecovered d).cursor.unread ≠ [] ∧ last.kind = .semicolon) :
    (ofTokens ceiling (front ++ last :: tokens)).program.1 =
        (ofTokens ceiling (front ++ [last])).program.1 ++ (ofTokens ceiling tokens).program.1 ∧
      (ofTokens ceiling (front ++ last :: tokens)).program.2.report.errors =
        (ofTokens ceiling (front ++ [last])).program.2.report.errors := by
  by_cases hne : tokens = []
  · subst hne
    exact ⟨(List.append_nil _).symm, rfl⟩
  obtain ⟨htwin, hcursor⟩ := twin_append ceiling heof hne
  obtain ⟨es, hes⟩ := exists_attempts (ofTokens ceiling tokens).cursor
  obtain ⟨ds', hds', hresults, herrors⟩ := hds.exists_append rfl (nextKind_ne_else haccepted)
    (by rwa [unread_of_ne_eof ceiling heof]) htwin hlast (hcursor.symm ▸ hes)
  obtain ⟨hprogram, hreport⟩ := program_of_attempts hds
  obtain ⟨hprogram', hreport'⟩ := program_of_attempts hds'
  obtain ⟨hrest, hclean⟩ := program_of_attempts hes
  rw [haccepted] at hclean
  constructor
  · rw [hprogram, hprogram', hrest, List.filterMap_append, hresults]
  · rw [hreport, hreport', List.flatMap_append, errorsOf_append, herrors,
      (List.append_eq_nil_iff.1 hclean.symm).2, List.append_nil]
    rfl

end Parser

end LoxSyntax
