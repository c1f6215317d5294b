import LoxSyntax.Proofs.Recovery.Braces
import LoxSyntax.Proofs.Recovery.Seam

/-!
# What is lost behind a program

Where the last declaration of a program cannot be read although the program ends with a brace, what
stands behind it can be lost: a block has been left open and takes all that comes, or recovery has
skipped the last brace and goes on.  With enough empty blocks behind it, nothing is left of them.

* `emptyBlocks` — empty blocks, one after the other.
* `Rule.Sinks`, **`Grammar.statementAt_sinks`** — a statement that fails at the end of the first
  text takes all of the second one.
* **`Grammar.Attempts.exists_sunk`** — the declarations of a program and empty blocks behind it.
-/

namespace LoxSyntax

/-! ## Empty blocks -/

/-- The tokens of several empty blocks. -/
def emptyBlocks : Nat → List Token
  | 0 => []
  | n + 1 => ⟨.leftBrace, "\x7b", 1, none⟩ :: ⟨.rightBrace, "\x7d", 1, none⟩ :: emptyBlocks n

@[simp] theorem nextKind_emptyBlocks (n : Nat) : nextKind (emptyBlocks (n + 1)) = .leftBrace := rfl

@[simp] theorem length_emptyBlocks (n : Nat) : (emptyBlocks n).length = 2 * n := by
  induction n with
  | zero => rfl
  | succ n ih => simp [emptyBlocks, ih]; omega

theorem ne_eof_of_mem_emptyBlocks {n : Nat} {t : Token} (ht : t ∈ emptyBlocks n) :
    t.kind ≠ .eof := by
  induction n with
  | zero => cases ht
  | succ n ih =>
    simp only [emptyBlocks, List.mem_cons] at ht
    rcases ht with rfl | rfl | ht
    · decide
    · decide
    · exact ih ht

/-- No token of empty blocks stops recovery. -/
theorem skipToStatement_emptyBlocks (n : Nat) {skipped : Token} (h : skipped.kind ≠ .semicolon) :
    Place.skipToStatement skipped (emptyBlocks n) = [] := by
  induction n generalizing skipped with
  | zero => rfl
  | succ n ih =>
    rw [emptyBlocks, Place.skipToStatement, if_neg (by simp [h, TokenKind.startsStatement]),
      Place.skipToStatement, if_neg (by simp [TokenKind.startsStatement]), ih (by simp)]

/-- Empty blocks are read one by one. -/
theorem emptyBlock_reads (endLine : UInt32) (m n : Nat) :
    ∃ ev, (∀ d, .diagnosed d ∉ ev) ∧
      Stmt.Reads endLine (m + 1) .declaration (emptyBlocks (n + 1)) [.block []] (emptyBlocks n)
        ev :=
  ⟨[.declaring ⟨emptyBlocks (n + 1), endLine⟩], by simp,
    .stated (by simp [emptyBlocks]) (.opened (.block rfl (.done (.inr rfl)) rfl))⟩

theorem emptyBlocks_reads (endLine : UInt32) (m n : Nat) :
    ∃ ev, (∀ d, .diagnosed d ∉ ev) ∧
      Stmt.Reads endLine (m + 1) (.declarations .eof) (emptyBlocks n)
        (List.replicate n (.block [])) [] ev := by
  induction n with
  | zero => exact ⟨[], by simp, .done (.inl rfl)⟩
  | succ n ih =>
    obtain ⟨ev, hev, hreads⟩ := ih
    obtain ⟨ev', hev', hfirst⟩ := emptyBlock_reads endLine m n
    exact ⟨ev' ++ ev, by simp [hev, hev'], .next (by simp [emptyBlocks]) hfirst hreads⟩

namespace Grammar

open Rule

/-- Behind empty blocks recovery comes to the end, and a declaration to others of them. -/
theorem declarationOf_emptyBlocks {m n : Nat} {c : Cursor} (hroom : c.room = m)
    (hts : c.unread = emptyBlocks (n + 1)) :
    ∃ o k ev, k ≤ n ∧ (declarationOf (atRoom m .expression) (statementAt m)).Gives c o
      (c.upTo (emptyBlocks k)) ev := by
  cases m with
  | zero =>
    have hfail : declared (atRoom 0 .expression) (statementAt 0) c =
        fail .tooMuchNesting c := declared_of_ne _ _ (by simp [hts])
    have hresume : c.toPlace.resume.unread = emptyBlocks 0 := by
      simp only [Place.resume, hts, emptyBlocks]
      rw [Place.skipToStatement, if_neg (by simp [TokenKind.startsStatement])]
      exact skipToStatement_emptyBlocks n (by simp)
    have hcursor : (declarationOf (atRoom 0 .expression) (statementAt 0) c).cursor =
        c.upTo (emptyBlocks 0) := by
      rw [declarationOf_reply, recovered_reply, hfail]
      show ({ c with toPlace := c.toPlace.resume } : Cursor) = _
      rw [Place.resume_eq, hresume]
      rfl
    obtain ⟨o, c', ev, hgives⟩ :=
      exists_gives_declarationOf (atRoom 0 .expression) (statementAt 0) c
    rw [hgives] at hcursor
    obtain rfl : c' = c.upTo (emptyBlocks 0) := hcursor
    exact ⟨o, 0, ev, Nat.zero_le n, hgives⟩
  | succ m =>
    obtain ⟨ev, hev, hreads⟩ := emptyBlock_reads c.endLine m n
    exact ⟨some (.block []), n, ev, Nat.le_refl n,
      hreads.gives (unbroken_of_clean hev) c hroom rfl hts _ rfl⟩

/-- A block that is open takes all empty blocks. -/
theorem declarationsOf_emptyBlocks {m : Nat} (n : Nat) : ∀ (rounds : List Token) {c : Cursor},
    c.room = m → c.unread = emptyBlocks n → c.unread.length ≤ rounds.length →
      (declarationsOf (declarationOf (atRoom m .expression) (statementAt m)) .rightBrace rounds
        c).cursor.unread = [] := by
  induction n using Nat.strongRecOn with
  | _ n ih =>
    intro rounds c hroom hts hlen
    cases n with
    | zero =>
      rw [declarationsOf_of_nil _ _ _ hts]
      exact hts
    | succ n =>
      cases rounds with
      | nil =>
        rw [hts] at hlen
        cases hlen
      | cons _ rounds =>
        obtain ⟨o, k, ev, hk, hgives⟩ := declarationOf_emptyBlocks hroom hts
        have hmany : (emptyBlocks k).length ≤ rounds.length := by
          rw [hts] at hlen
          simp only [length_emptyBlocks, List.length_cons] at hlen ⊢
          omega
        rw [declarationsOf_cons, if_neg (by simp [hts]), bind_of_some hgives]
        exact ih k (Nat.lt_succ_of_le hk) rounds (c := c.upTo (emptyBlocks k)) hroom rfl hmany

end Grammar

/-! ## Statements that fail at the end -/

variable {α β : Type} {f : Fork} {m : Nat}

namespace Rule

/-- Where `m` levels may be opened: if the rule fails at the end of the first text, it fails at the
end of the second one, too. -/
def Sinks (f : Fork) (m : Nat) (rule : Rule α) : Prop :=
  ∀ ⦃c c'⦄, Cursor.Twin f c c' → c.room = m → (rule c).result = none →
    (rule c).cursor.unread = [] → (rule c').result = none ∧ (rule c').cursor.unread = []

namespace Sinks

theorem map {rule : Rule α} (h : rule.Sinks f m) (g : α → β) : (g <$> rule).Sinks f m := by
  intro c c' htwin hroom hnone hnil
  obtain ⟨hnone', hnil'⟩ := h htwin hroom (Option.map_eq_none_iff.1 hnone) hnil
  exact ⟨congrArg (Option.map g) hnone', hnil'⟩

/-- Behind a rule that does not come to the end. -/
theorem sinks_bind {rule : Rule α} {next : α → Rule β} (hleft : f.left = [])
    (hrule : Foresees f m rule rule) (hnext : ∀ a, (next a).Sinks f m) {c c' : Cursor}
    (htwin : Cursor.Twin f c c') (hroom : c.room = m) (hne : (rule c).cursor.unread ≠ [])
    (hnone : ((rule >>= next) c).result = none) (hnil : ((rule >>= next) c).cursor.unread = []) :
    ((rule >>= next) c').result = none ∧ ((rule >>= next) c').cursor.unread = [] := by
  obtain ⟨us, -, hcursor⟩ := hrule.made.exists_upTo c
  have halike := hrule.alike hleft htwin hroom hne
  cases ha : (rule c).result with
  | some a =>
    rw [bind_reply_of_some ha] at hnone hnil
    rw [bind_reply_of_some (halike.result.trans ha)]
    exact hnext a halike.cursor (by rw [hcursor]; exact hroom) hnone hnil
  | none =>
    rw [bind_reply, ha] at hnil
    exact absurd hnil hne

theorem expect_bind_pure (landmark : Landmark) (b : β) :
    (expect landmark >>= fun _ => pure b).Sinks f m := by
  intro c c' htwin _ hnone hnil
  obtain ⟨t, ts, -, hts, -⟩ := htwin.place.exists_next
  by_cases hkind : nextKind c.unread = landmark.kind
  · rw [hts] at hkind
    rw [expect_bind_of_kind _ hts hkind] at hnone
    cases hnone
  · rw [expect_bind_of_ne _ hkind] at hnil
    exact absurd (hts.symm.trans hnil) (List.cons_ne_nil t ts)

theorem nested {rule : Rule α} (h : rule.Sinks f m) : (Rule.nested rule).Sinks f (m + 1) := by
  intro c c' htwin hroom hnone hnil
  have hlt := c.depth_lt_ceiling hroom
  have hlt' : c'.depth < c'.ceiling := by rwa [htwin.depth, htwin.ceiling]
  rw [nested_of_lt rule hlt] at hnone hnil
  rw [nested_of_lt rule hlt']
  exact h htwin.deeper (c.deeper_room hroom) hnone hnil

end Sinks

end Rule

namespace Grammar

open Rule TokenKind

section Forms

variable (hleft : f.left = []) (hlast : f.last.kind = .rightBrace)

include hleft hlast

/-- There are no braces in heads, and so a brace is left behind them. -/
theorem Head.sinks_bind {word : TokenKind} {head : Rule α} (h : Head m word head)
    {next : α → Rule β} (hnext : ∀ a, (next a).Sinks f m) {c c' : Cursor}
    (htwin : Cursor.Twin f c c') (hroom : c.room = m) (hword : nextKind c.unread = word)
    (hnone : ((head >>= next) c).result = none) (hnil : ((head >>= next) c).cursor.unread = []) :
    ((head >>= next) c').result = none ∧ ((head >>= next) c').cursor.unread = [] := by
  refine Sinks.sinks_bind hleft (h.foresees f) hnext htwin hroom ?_ hnone hnil
  obtain ⟨⟨used, us, hused, hcursor, hkinds⟩, -⟩ := h.stays c hword
  obtain ⟨ahead, hts, -⟩ := htwin.place
  rw [hcursor, Cursor.upTo_unread]
  rintro rfl
  have hbrace := hkinds f.last (by
    rw [List.append_nil] at hused
    rw [← hused, hts]
    simp)
  rw [hlast] at hbrace
  cases hbrace

variable (hstmt : (statementAt m).Sinks f m)

include hstmt

omit hleft in
theorem elseBranch_sinks (alone : Stmt) (both : Stmt → Stmt) :
    (elseBranch m alone both).Sinks f m := by
  intro c c' htwin hroom hnone hnil
  obtain ⟨ahead, hts, hts'⟩ := htwin.place
  by_cases hword : nextKind c.unread = .elseWord
  · rcases ahead with _ | ⟨t, ahead⟩
    · rw [hts] at hword
      exact absurd (hlast.symm.trans hword) (by decide)
    · rw [hts] at hword
      rw [elseBranch_of_else m alone both hts hword] at hnone hnil
      rw [elseBranch_of_else m alone both hts' hword]
      exact hstmt.map both (htwin.upTo ahead) hroom hnone hnil
  · rw [elseBranch_of_ne m alone both hword] at hnone
    cases hnone

theorem branch_sinks (alone : Stmt → Stmt) (both : Stmt → Stmt → Stmt) :
    (do
      let yes ← statementAt m
      elseBranch m (alone yes) (both yes) : Rule Stmt).Sinks f m := by
  intro c c' htwin hroom hnone hnil
  by_cases hend : (statementAt m c).cursor.unread = []
  · cases hyes : (statementAt m c).result with
    | some yes =>
      rw [bind_reply_of_some hyes, elseBranch_of_ne _ _ _ (by rw [hend]; decide)] at hnone
      cases hnone
    | none =>
      obtain ⟨hnone', hnil'⟩ := hstmt htwin hroom hyes hend
      rw [bind_reply, hnone']
      exact ⟨rfl, hnil'⟩
  · exact Sinks.sinks_bind hleft (statementAt_foresees m)
      (fun yes => elseBranch_sinks hlast hstmt (alone yes) (both yes)) htwin hroom hend hnone
      hnil

/-- A statement that is not a block. -/
theorem Form.sinks {word : TokenKind} {rule : Rule Stmt} (h : Form m word rule)
    (hblock : word ≠ .leftBrace) {c c' : Cursor} (htwin : Cursor.Twin f c c') (hroom : c.room = m)
    (hword : nextKind c.unread = word) (hnone : (rule c).result = none)
    (hnil : (rule c).cursor.unread = []) :
    (rule c').result = none ∧ (rule c').cursor.unread = [] := by
  cases h with
  | ended hhead landmark _ g =>
    exact hhead.sinks_bind hleft hlast (fun _ => .expect_bind_pure _ _) htwin hroom hword hnone hnil
  | block hleft' => exact absurd hleft' hblock
  | led hhead g =>
    exact hhead.sinks_bind hleft hlast (fun a => hstmt.map (g a)) htwin hroom hword hnone hnil
  | branched hhead g g' =>
    exact hhead.sinks_bind hleft hlast
      (fun a => branch_sinks hleft hlast hstmt (g a) (g' a)) htwin hroom hword hnone hnil

theorem declared_sinks : (declared (atRoom m .expression) (statementAt m)).Sinks f m := by
  intro c c' htwin hroom hnone hnil
  by_cases hword : nextKind c.unread = .varWord
  · obtain ⟨rule, hform, hrule⟩ := exists_variable_form m
    rw [hrule c hword] at hnone hnil
    rw [hrule c' (htwin.place.nextKind_eq.trans hword)]
    exact hform.sinks hleft hlast hstmt (by decide) htwin hroom hword hnone hnil
  · rw [declared_of_ne _ _ hword] at hnone hnil
    rw [declared_of_ne _ _ (htwin.place.nextKind_eq.symm ▸ hword)]
    exact hstmt htwin hroom hnone hnil

end Forms

/-! ## Blocks -/

section Blocks

variable {n : Nat} (hleft : f.left = []) (hlast : f.last.kind = .rightBrace)
  (hright : f.right = emptyBlocks n)

include hleft hlast hright

/-- A declaration that is left out at the end takes the empty blocks with it. -/
theorem declaration_sinks {d d' : Cursor} (hstmt : (statementAt d.room).Sinks f d.room)
    (htwin : Cursor.Twin f d d') (hnil : (declaration d).cursor.unread = [])
    (hnone : attempted d = none) : attempted d' = none ∧ (declaration d').cursor.unread = [] := by
  have hresult := (attempted_eq d).symm.trans hnone
  rw [declaration_of_none hresult] at hnil
  have hboth : (unrecovered d').result = none ∧
      (unrecovered d').cursor.toPlace.resume.unread = [] := by
    by_cases hend : (unrecovered d).cursor.unread = []
    · obtain ⟨hresult', hend'⟩ := declared_sinks hleft hlast hstmt htwin rfl hresult hend
      rw [← htwin.room_eq] at hresult' hend'
      refine ⟨hresult', ?_⟩
      rw [Place.resume, show (unrecovered d').cursor.unread = [] from hend']
      exact hend'
    · have halike := unrecovered_alike hleft htwin hend
      refine ⟨halike.result.trans hresult, ?_⟩
      rw [halike.cursor.place.resume_of_nil hleft hnil, hright]
      exact skipToStatement_emptyBlocks n (by simp [hlast])
  refine ⟨(attempted_eq d').trans hboth.1, ?_⟩
  rw [declaration_of_none hboth.1]
  exact hboth.2

/-- Behind a declaration at the end the empty blocks are left, or none of them. -/
theorem exists_emptyBlocks {d d' : Cursor} (hstmt : (statementAt d.room).Sinks f d.room)
    (htwin : Cursor.Twin f d d') (hnil : (declaration d).cursor.unread = []) :
    ∃ k, (declaration d').cursor = d'.upTo (emptyBlocks k) := by
  by_cases hnone : attempted d = none
  · obtain ⟨-, hnil'⟩ := declaration_sinks hleft hlast hright hstmt htwin hnil hnone
    obtain ⟨o, us, ev, hgives, -⟩ := exists_gives_declaration d'
    rw [hgives] at hnil' ⊢
    exact ⟨0, congrArg d'.upTo hnil'⟩
  · have helse : nextKind f.right ≠ .elseWord := by
      rw [hright]
      cases n <;> simp [emptyBlocks]
    have hsettled := declaration_settles hleft htwin helse hnil fun h => absurd h hnone
    exact ⟨n, hright ▸ hsettled.cursor⟩

/-- Declarations of a block that come to the end. -/
theorem declarationsOf_sinks (hstmt : (statementAt m).Sinks f m) (rounds : List Token) :
    ∀ {c c' : Cursor}, Cursor.Twin f c c' → c.room = m → c.unread.length ≤ rounds.length →
      c'.unread.length ≤ rounds.length →
      (declarationsOf (declarationOf (atRoom m .expression) (statementAt m)) .rightBrace rounds
        c).cursor.unread = [] →
      (declarationsOf (declarationOf (atRoom m .expression) (statementAt m)) .rightBrace rounds
        c').cursor.unread = [] := by
  induction rounds with
  | nil =>
    intro c c' htwin _ hlen
    obtain ⟨t, ts, -, hts, -⟩ := htwin.place.exists_next
    rw [hts] at hlen
    cases hlen
  | cons _ rounds ih =>
    rintro c c' htwin rfl hlen hlen' hnil
    obtain ⟨t, ts, ts', hts, hts', -⟩ := htwin.place.exists_next
    obtain ⟨o, us, ev, hgives, -, hlt⟩ := exists_gives_declaration c
    obtain ⟨o', us', ev', hgives', -, hlt'⟩ := exists_gives_declaration c'
    have hfewer := hlt (by simp [hts])
    have hfewer' := hlt' (by simp [hts'])
    rw [List.length_cons] at hlen hlen'
    rw [declarationsOf_cons] at hnil ⊢
    rw [htwin.place.nextKind_eq]
    split at hnil
    · simp [hts] at hnil
    · next hstart =>
      have hfirst : (declarationOf (atRoom c.room .expression) (statementAt c.room)).Gives c o
          (c.upTo us) ev := hgives
      have hfirst' : (declarationOf (atRoom c.room .expression) (statementAt c.room)).Gives c' o'
          (c'.upTo us') ev' := by
        rw [← htwin.room_eq]
        exact hgives'
      rw [bind_of_some hfirst] at hnil
      rw [if_neg hstart, bind_of_some hfirst']
      by_cases hus : us = []
      · obtain ⟨k, hk⟩ := exists_emptyBlocks hleft hlast hright hstmt htwin
          (by rw [hgives]; exact hus)
        rw [hgives'] at hk
        obtain rfl : us' = emptyBlocks k := congrArg (·.unread) hk
        exact declarationsOf_emptyBlocks k rounds (c := c'.upTo (emptyBlocks k)) htwin.room_eq rfl
          (by rw [Cursor.upTo_unread]; omega)
      · have halike := declaration_alike hleft htwin (by rw [hgives]; exact hus)
        rw [hgives, hgives'] at halike
        exact ih halike.cursor rfl (by rw [Cursor.upTo_unread]; omega)
          (by rw [Cursor.upTo_unread]; omega) hnil

/-- Both runs take the rounds that they have tokens for. -/
theorem declarationsHere_sinks (hstmt : (statementAt m).Sinks f m) {c c' : Cursor}
    (htwin : Cursor.Twin f c c') (hroom : c.room = m)
    (hnil : (declarationsOf (declarationOf (atRoom m .expression) (statementAt m)) .rightBrace
      c.unread c).cursor.unread = []) :
    (declarationsOf (declarationOf (atRoom m .expression) (statementAt m)) .rightBrace c'.unread
      c').cursor.unread = [] := by
  have hrounds : ∀ {b : Cursor}, b.room = m → b.unread.length ≤ (c.unread ++ c'.unread).length →
      declarationsOf (declarationOf (atRoom m .expression) (statementAt m)) .rightBrace b.unread b =
        declarationsOf (declarationOf (atRoom m .expression) (statementAt m)) .rightBrace
          (c.unread ++ c'.unread) b :=
    fun hb hlen => declarationsOf_rounds (atRoom_follows m .expression) (statementAt_reads m)
      (atRoom_widens (Nat.le_refl m) .expression) (statementAt_widens (Nat.le_refl m)) .rightBrace
      _ _ hb (Nat.le_refl _) hlen
  rw [hrounds hroom (by simp)] at hnil
  rw [hrounds (htwin.room_eq.trans hroom) (by simp)]
  exact declarationsOf_sinks hleft hlast hright hstmt _ htwin hroom (by simp) (by simp) hnil

/-- A block that has been left open. -/
theorem block_sinks (hstmt : (statementAt m).Sinks f m) :
    (block (atRoom m .expression) (statementAt m)).Sinks f m := by
  intro c c' htwin hroom hnone hnil
  rw [block, place_bind] at hnone hnil ⊢
  obtain ⟨ss, c₁, ev, hbody⟩ := exists_gives_declarationsOf (atRoom m .expression) (statementAt m)
    .rightBrace c.unread c
  obtain ⟨ss', c₁', ev', hbody'⟩ := exists_gives_declarationsOf (atRoom m .expression)
    (statementAt m) .rightBrace c'.unread c'
  have hsinks := declarationsHere_sinks hleft hlast hright hstmt htwin hroom
  rw [hbody, hbody'] at hsinks
  rw [bind_of_some hbody] at hnone hnil
  rw [bind_of_some hbody']
  have hend : c₁.unread = [] := by
    by_cases hkind : nextKind c₁.unread = Landmark.blockEnd.kind
    · rcases hus : c₁.unread with _ | ⟨u, us⟩
      · rfl
      · rw [hus] at hkind
        rw [expect_bind_of_kind _ hus hkind] at hnone
        cases hnone
    · rw [expect_bind_of_ne _ hkind] at hnil
      exact hnil
  have hend' : c₁'.unread = [] := hsinks hend
  rw [expect_bind_of_ne _ (show nextKind c₁'.unread ≠ Landmark.blockEnd.kind by
    rw [hend']; decide)]
  exact ⟨rfl, hend'⟩

end Blocks

/-- A statement that fails at the end, behind a brace, takes the empty blocks that come. -/
theorem statementAt_sinks {n : Nat} (hleft : f.left = []) (hlast : f.last.kind = .rightBrace)
    (hright : f.right = emptyBlocks n) (m : Nat) : (statementAt m).Sinks f m := by
  induction m with
  | zero =>
    intro c c' htwin _ _ hnil
    obtain ⟨t, ts, -, hts, -⟩ := htwin.place.exists_next
    exact absurd (hts.symm.trans hnil) (List.cons_ne_nil t ts)
  | succ m ih =>
    refine Sinks.nested fun c c' htwin hroom hnone hnil => ?_
    obtain ⟨rule, hform, hrule⟩ := exists_form m (nextKind c.unread)
    by_cases hblock : nextKind c.unread = .leftBrace
    · obtain ⟨_ | ⟨t, ahead⟩, hts, hts'⟩ := htwin.place
      · rw [hts, List.nil_append, nextKind_cons, hlast] at hblock
        cases hblock
      · rw [hts, List.cons_append, nextKind_cons] at hblock
        rw [statementBody_of_leftBrace m hts hblock] at hnone hnil
        rw [statementBody_of_leftBrace m hts' hblock]
        exact block_sinks hleft hlast hright ih (htwin.upTo ahead) hroom hnone hnil
    · rw [hrule c rfl] at hnone hnil
      rw [hrule c' htwin.place.nextKind_eq]
      exact hform.sinks hleft hlast ih hblock htwin hroom rfl hnone hnil

/-! ## Programs -/

/-- If the last declaration of a program that ends with a brace cannot be read, nothing is read of
empty blocks behind it. -/
theorem Attempts.exists_sunk {n : Nat} (hleft : f.left = []) (hlast : f.last.kind = .rightBrace)
    (hright : f.right = emptyBlocks n) {c c' : Cursor} {ds : List Cursor} (h : Attempts c ds)
    (heof : ∀ t ∈ c.unread, t.kind ≠ .eof) (htwin : Cursor.Twin f c c')
    (hnone : ∀ d, ds.getLast? = some d → attempted d = none) :
    ∃ ds', Attempts c' ds' ∧ ds'.filterMap attempted = ds.filterMap attempted := by
  obtain ⟨front, d, front', d', rfl, hd, hend, -, hresults, -, hattempts⟩ :=
    h.exists_twin hleft heof htwin
  have hfail := hnone d (by simp)
  obtain ⟨hfail', hend'⟩ := declaration_sinks hleft hlast hright
    (statementAt_sinks hleft hlast hright d.room) hd hend hfail
  refine ⟨front' ++ [d'], hattempts [] (.done (by rw [hend']; rfl)), ?_⟩
  rw [List.filterMap_append, List.filterMap_append, hresults]
  simp [hfail, hfail']

end Grammar

end LoxSyntax
