import LoxSyntax.Proofs.Recovery.Forms
import LoxSyntax.Proofs.Recovery.Unwinding
import Mathlib.Data.List.Basic

/-!
# Braces and recovery

As long as recovery skips no brace, braces are read by blocks alone.  A statement that is read has
then closed all the blocks that it opened, and so has one that fails, unless it fails at the end of
the text, where a block may have been left open.

* `balance` — how many more braces open than close.
* `Place.skipped`, `SparesBraces` — what recovery skips, and runs in which that has no braces.
* `Reply.Balanced`, **`Grammar.statementAt_balances`** — the braces that a statement reads.
* `Reply.Closed`, `Grammar.declarationsOf_closed` — the braces that declarations read.
* **`Grammar.Attempts.returned_of_balance`** — where all blocks are closed and the last token closes
  one, the last declaration of a program can be read.
-/

namespace LoxSyntax

/-! ## Counting braces -/

/-- One for a brace that opens, less one for a brace that closes. -/
def TokenKind.brace : TokenKind → Int
  | leftBrace => 1
  | rightBrace => -1
  | _ => 0

/-- How many more braces open than close. -/
def balance : List Token → Int
  | [] => 0
  | t :: ts => t.kind.brace + balance ts

@[simp] theorem balance_nil : balance [] = 0 := rfl

@[simp] theorem balance_cons (t : Token) (ts : List Token) :
    balance (t :: ts) = t.kind.brace + balance ts := rfl

theorem balance_append (ts us : List Token) : balance (ts ++ us) = balance ts + balance us := by
  induction ts with
  | nil => exact (Int.zero_add _).symm
  | cons t ts ih => rw [List.cons_append, balance_cons, balance_cons, ih, Int.add_assoc]

theorem balance_eq_zero {ts : List Token} (h : ∀ t ∈ ts, t.kind.brace = 0) : balance ts = 0 := by
  induction ts with
  | nil => rfl
  | cons t ts ih =>
    simp only [List.mem_cons, forall_eq_or_imp] at h
    rw [balance_cons, h.1, ih h.2]
    rfl

/-- No brace, and so none that closes at the end. -/
theorem getLast?_ne_rightBrace {ts : List Token} (h : ∀ t ∈ ts, t.kind.brace = 0) :
    ts.getLast?.map (·.kind) ≠ some .rightBrace := by
  intro hlast
  obtain ⟨t, ht, hkind⟩ := Option.map_eq_some_iff.1 hlast
  have hbrace := h t (List.mem_of_getLast? ht)
  rw [hkind] at hbrace
  cases hbrace

theorem TokenKind.brace_of_isHead {word k : TokenKind} (h : word.isHead k) : k.brace = 0 := by
  cases k <;> first | rfl | cases h

/-! ## What recovery skips -/

/-- The tokens that recovery skips. -/
def Place.skipped (p : Place) : List Token :=
  p.unread.take (p.unread.length - p.resume.unread.length)

theorem Place.skipped_append (p : Place) : p.skipped ++ p.resume.unread = p.unread := by
  obtain ⟨used, hused⟩ := (p.resume_unread_suffix).trans (List.tail_suffix _)
  rw [skipped]
  have hlen := congrArg List.length hused
  rw [List.length_append] at hlen
  rw [show p.unread.length - p.resume.unread.length = used.length by omega, ← hused,
    List.take_left' rfl]

/-- No recovery skips a brace. -/
def SparesBraces (ev : List Event) : Prop :=
  ∀ p, .recovering p ∈ ev → ∀ t ∈ p.skipped, t.kind.brace = 0

theorem sparesBraces_append {ev ev' : List Event} :
    SparesBraces (ev ++ ev') ↔ SparesBraces ev ∧ SparesBraces ev' := by
  simp only [SparesBraces, List.mem_append, or_imp, forall_and]

/-! ## Runs that close what they open -/

variable {α β : Type}

/-- All blocks are closed that have been opened from `c` on, unless the run has failed at the end;
and if it has done so behind a brace that closes, then a block has been left open. -/
def Reply.Balanced (c : Cursor) (r : Reply α) : Prop :=
  ∃ used us, c.unread = used ++ us ∧ r.cursor = c.upTo us ∧
    (r.result ≠ none ∨ us ≠ [] → balance used = 0) ∧ 0 ≤ balance used ∧
    (r.result = none → us = [] → used.getLast?.map (·.kind) = some .rightBrace → 0 < balance used)

namespace Reply.Balanced

variable {c : Cursor} {r : Reply α}

/-- No braces have been read. -/
theorem of_calm {used us : List Token} (hused : c.unread = used ++ us)
    (hcursor : r.cursor = c.upTo us) (hcalm : ∀ t ∈ used, t.kind.brace = 0) : r.Balanced c := by
  have hzero := balance_eq_zero hcalm
  exact ⟨used, us, hused, hcursor, fun _ => hzero, Int.le_of_eq hzero.symm,
    fun _ _ hlast => absurd hlast (getLast?_ne_rightBrace hcalm)⟩

/-- In front of the run all blocks have been closed, the last of them before the last token. -/
theorem behind {front ts : List Token} (h : r.Balanced (c.upTo ts)) (hts : c.unread = front ++ ts)
    (hfront : balance front = 0) (hlast : front.getLast?.map (·.kind) ≠ some .rightBrace) :
    r.Balanced c := by
  obtain ⟨used, us, hused, hcursor, hzero, hnonneg, hpos⟩ := h
  rw [Cursor.upTo_unread] at hused
  refine ⟨front ++ used, us, by rw [hts, hused, List.append_assoc], hcursor, ?_, ?_, ?_⟩
  · intro h
    rw [balance_append, hfront, hzero h]
    rfl
  · rw [balance_append, hfront]
    omega
  · intro hnone hus hlast'
    rw [balance_append, hfront]
    rw [List.getLast?_append] at hlast'
    cases hend : used.getLast? with
    | none =>
      rw [hend] at hlast'
      exact absurd hlast' hlast
    | some t =>
      rw [hend] at hlast'
      have := hpos hnone hus (by rw [hend]; exact hlast')
      omega

theorem map (h : r.Balanced c) (g : α → β) :
    (⟨r.result.map g, r.cursor, r.events⟩ : Reply β).Balanced c := by
  obtain ⟨used, us, hused, hcursor, hzero, hnonneg, hpos⟩ := h
  simp only [Balanced, Option.map_eq_none_iff, ne_eq]
  exact ⟨used, us, hused, hcursor, hzero, hnonneg, hpos⟩

end Reply.Balanced

namespace Rule

/-- Where `m` levels may be opened and recovery skips no brace, the rule closes the blocks that it
opens. -/
def Balances (m : Nat) (rule : Rule α) : Prop :=
  ∀ c : Cursor, c.room = m → (∀ t ∈ c.unread, t.kind ≠ .eof) → SparesBraces (rule c).events →
    (rule c).Balanced c

theorem Balances.map {m : Nat} {rule : Rule α} (h : rule.Balances m) (g : α → β) :
    (g <$> rule).Balances m :=
  fun c hroom heof hspares => (h c hroom heof hspares).map g

theorem Balances.nested {m : Nat} {rule : Rule α} (h : rule.Balances m) :
    (Rule.nested rule).Balances (m + 1) := by
  intro c hroom heof hspares
  have hlt := c.depth_lt_ceiling hroom
  rw [nested_of_lt rule hlt] at hspares ⊢
  obtain ⟨used, us, hused, hcursor, hrest⟩ := h c.deeper (c.deeper_room hroom) heof hspares
  exact ⟨used, us, hused, by rw [Reply.shallower, hcursor]; rfl, hrest⟩

end Rule

namespace Grammar

open Rule TokenKind

variable {m : Nat} {word : TokenKind}

/-- Behind a head, which has no braces. -/
theorem Head.balanced_bind {head : Rule α} (h : Head m word head) {next : α → Rule β}
    (hnext : ∀ a, (next a).Balances m) {c : Cursor} (hroom : c.room = m)
    (heof : ∀ t ∈ c.unread, t.kind ≠ .eof)
    (hword : nextKind c.unread = word) (hspares : SparesBraces ((head >>= next) c).events) :
    ((head >>= next) c).Balanced c := by
  obtain ⟨⟨used, us, hused, hcursor, hkinds⟩, -⟩ := h.stays c hword
  have hcalm : ∀ t ∈ used, t.kind.brace = 0 := fun t ht => brace_of_isHead (hkinds t ht)
  rw [bind_reply] at hspares ⊢
  split at hspares
  · next a _ =>
    rw [hcursor] at hspares ⊢
    have hrest := hnext a (c.upTo us) hroom (fun t ht => heof t (by simp_all))
      (sparesBraces_append.1 hspares).2
    exact hrest.behind hused (balance_eq_zero hcalm) (getLast?_ne_rightBrace hcalm)
  · exact .of_calm hused hcursor hcalm

/-- A token at the end that is not a brace. -/
theorem expect_balances {landmark : Landmark} (hlandmark : landmark.kind = .semicolon) (b : β) :
    (expect landmark >>= fun _ => pure b).Balances m := by
  intro c _ _ _
  by_cases hkind : nextKind c.unread = landmark.kind
  · rcases hts : c.unread with _ | ⟨t, ts⟩
    · rw [hts] at hkind
      exact absurd hkind.symm landmark.kind_ne_eof
    · rw [hts] at hkind
      rw [expect_bind_of_kind _ hts hkind]
      refine .of_calm (show c.unread = [t] ++ ts from hts) rfl ?_
      rw [nextKind_cons, hlandmark] at hkind
      simp [hkind, brace]
  · rw [expect_bind_of_ne _ hkind]
    exact .of_calm (List.nil_append _).symm rfl (by simp)

section Forms

variable (hstmt : (statementAt m).Balances m)

include hstmt

/-- An `else` and a statement, behind a statement that has been read. -/
theorem branch_balances (alone : Stmt → Stmt) (both : Stmt → Stmt → Stmt) :
    (do
      let yes ← statementAt m
      elseBranch m (alone yes) (both yes) : Rule Stmt).Balances m := by
  intro c hroom heof hspares
  rw [bind_reply] at hspares ⊢
  split at hspares
  · next yes hyes =>
    obtain ⟨hspares, hspares'⟩ := sparesBraces_append.1 hspares
    obtain ⟨used, us, hused, hcursor, hzero, -, -⟩ := hstmt c hroom heof hspares
    rw [hcursor] at hspares' ⊢
    have hclosed := hzero (.inl (by simp [hyes]))
    by_cases helse : nextKind us = .elseWord
    · obtain _ | ⟨t, ts⟩ := us
      · cases helse
      · rw [elseBranch_of_else _ _ _ (c := c.upTo (t :: ts)) rfl helse] at hspares' ⊢
        rw [nextKind_cons] at helse
        have hsplit : c.unread = (used ++ [t]) ++ ts := by
          rw [hused, List.append_assoc]
          rfl
        have hno := hstmt.map (both yes) (c.upTo ts) hroom
          (fun s hs => heof s (by rw [hsplit]; exact List.mem_append_right _ hs)) hspares'
        refine hno.behind hsplit ?_ (by simp [helse])
        rw [balance_append, hclosed, balance_cons, helse]
        rfl
    · rw [elseBranch_of_ne _ _ _ (c := c.upTo us) helse]
      exact ⟨used, us, hused, rfl, fun _ => hclosed, Int.le_of_eq hclosed.symm,
        fun h => absurd h (Option.some_ne_none _)⟩
  · next hnone =>
    obtain ⟨used, us, hused, hcursor, hrest⟩ := hstmt c hroom heof hspares
    rw [hnone] at hrest
    exact ⟨used, us, hused, hcursor, hrest⟩

/-- A statement that is not a block. -/
theorem Form.balances {rule : Rule Stmt} (h : Form m word rule) (hblock : word ≠ .leftBrace)
    {c : Cursor} (hroom : c.room = m) (heof : ∀ t ∈ c.unread, t.kind ≠ .eof)
    (hspares : SparesBraces (rule c).events) (hword : nextKind c.unread = word) :
    (rule c).Balanced c := by
  cases h with
  | ended hhead landmark hlandmark g =>
    exact hhead.balanced_bind (fun _ => expect_balances hlandmark _) hroom heof hword hspares
  | block hleft => exact absurd hleft hblock
  | led hhead g =>
    exact hhead.balanced_bind (fun a => hstmt.map (g a)) hroom heof hword hspares
  | branched hhead g g' =>
    exact hhead.balanced_bind (fun a => branch_balances hstmt (g a) (g' a)) hroom heof hword hspares

theorem declared_balances : (declared (atRoom m .expression) (statementAt m)).Balances m := by
  intro c hroom heof hspares
  by_cases hword : nextKind c.unread = .varWord
  · obtain ⟨rule, hform, hrule⟩ := exists_variable_form m
    rw [hrule c hword] at hspares ⊢
    exact hform.balances hstmt (by decide) hroom heof hspares hword
  · rw [declared_of_ne _ _ hword] at hspares ⊢
    exact hstmt c hroom heof hspares

end Forms

end Grammar

/-! ## Blocks -/

/-- All blocks are closed that have been opened from `c` on, unless the end has been come to. -/
def Reply.Closed (c : Cursor) (r : Reply α) : Prop :=
  ∃ used us, c.unread = used ++ us ∧ r.cursor = c.upTo us ∧
    (us ≠ [] → balance used = 0) ∧ 0 ≤ balance used

/-- Where recovery skips no brace, a rule that recovers has left no block open in front of the
end. -/
theorem Rule.Balances.recovered {m : Nat} {rule : Rule α} (h : rule.Balances m) {c : Cursor}
    (hroom : c.room = m) (heof : ∀ t ∈ c.unread, t.kind ≠ .eof)
    (hspares : SparesBraces (Rule.recovered rule c).events) :
    (Rule.recovered rule c).Closed c := by
  rw [recovered_reply] at hspares ⊢
  split at hspares
  · next a ha =>
    obtain ⟨used, us, hused, hcursor, hzero, hnonneg, -⟩ := h c hroom heof hspares
    exact ⟨used, us, hused, hcursor, fun _ => hzero (.inl (by simp [ha])), hnonneg⟩
  · obtain ⟨hspares, hskipped⟩ := sparesBraces_append.1 hspares
    obtain ⟨used, us, hused, hcursor, hzero, hnonneg, -⟩ := h c hroom heof hspares
    rw [hcursor] at hskipped ⊢
    have hcalm := balance_eq_zero (hskipped _ (.head _))
    have happend := (c.upTo us).toPlace.skipped_append
    refine ⟨used ++ (c.upTo us).toPlace.skipped, (c.upTo us).toPlace.resume.unread, ?_, ?_, ?_, ?_⟩
    · rw [List.append_assoc, happend]
      exact hused
    · rw [Place.resume_eq]
      rfl
    · intro hne
      rw [balance_append, hcalm, hzero (.inr fun hnil => hne ?_)]
      · rfl
      · subst hnil
        rfl
    · rw [balance_append, hcalm]
      omega

namespace Grammar

open Rule TokenKind

section Blocks

variable {m : Nat} (hstmt : (statementAt m).Balances m)

include hstmt

theorem declarationOf_closed {c : Cursor} (hroom : c.room = m)
    (heof : ∀ t ∈ c.unread, t.kind ≠ .eof)
    (hspares : SparesBraces (declarationOf (atRoom m .expression) (statementAt m) c).events) :
    (declarationOf (atRoom m .expression) (statementAt m) c).Closed c := by
  rw [declarationOf_reply] at hspares ⊢
  rw [← List.singleton_append] at hspares
  exact (declared_balances hstmt).recovered hroom heof (sparesBraces_append.1 hspares).2

theorem declarationsOf_closed (rounds : List Token) {c : Cursor} (hroom : c.room = m)
    (heof : ∀ t ∈ c.unread, t.kind ≠ .eof)
    (hspares : SparesBraces (declarationsOf (declarationOf (atRoom m .expression) (statementAt m))
      .rightBrace rounds c).events) :
    (declarationsOf (declarationOf (atRoom m .expression) (statementAt m)) .rightBrace rounds
      c).Closed c := by
  induction rounds generalizing c with
  | nil => exact ⟨[], c.unread, rfl, rfl, fun _ => rfl, Int.le_refl 0⟩
  | cons _ rounds ih =>
    rw [declarationsOf_cons] at hspares ⊢
    split
    · exact ⟨[], c.unread, rfl, rfl, fun _ => rfl, Int.le_refl 0⟩
    · next hstart =>
      rw [if_neg hstart] at hspares
      obtain ⟨o, c₁, ev, hfirst⟩ := exists_gives_declarationOf (atRoom m .expression)
        (statementAt m) c
      rw [bind_of_some hfirst] at hspares ⊢
      obtain ⟨hspares, hspares'⟩ := sparesBraces_append.1 hspares
      have hclosed := declarationOf_closed hstmt hroom heof (by rw [hfirst]; exact hspares)
      rw [hfirst] at hclosed
      obtain ⟨used, us, hused, hcursor, hzero, hnonneg⟩ := hclosed
      obtain rfl : c₁ = c.upTo us := hcursor
      obtain ⟨used', us', hused', hcursor', hzero', hnonneg'⟩ :=
        ih (c := c.upTo us) hroom (fun t ht => heof t (by simp_all)) hspares'
      refine ⟨used ++ used', us', ?_, hcursor', ?_, ?_⟩
      · rw [hused, List.append_assoc]
        exact congrArg _ hused'
      · intro hne
        have hne' : us ≠ [] := by
          rintro rfl
          exact hne (List.append_eq_nil_iff.1 hused'.symm).2
        rw [balance_append, hzero hne', hzero' hne]
        rfl
      · rw [balance_append]
        omega

/-- A block that is not closed has come to the end, and has been left open there. -/
theorem block_balanced {c : Cursor} {left : Token} {ts : List Token} (hroom : c.room = m)
    (hts : c.unread = left :: ts) (hleft : left.kind = .leftBrace)
    (heof : ∀ t ∈ c.unread, t.kind ≠ .eof)
    (hspares : SparesBraces
      (block (atRoom m .expression) (statementAt m) (c.upTo ts)).events) :
    (block (atRoom m .expression) (statementAt m) (c.upTo ts)).Balanced c := by
  rw [block, place_bind, Cursor.upTo_unread] at hspares ⊢
  obtain ⟨ss, c₁, ev, hbody⟩ := exists_gives_declarationsOf (atRoom m .expression) (statementAt m)
    .rightBrace ts (c.upTo ts)
  have hclosed := declarationsOf_closed hstmt ts (c := c.upTo ts) hroom
    (fun t ht => heof t (by simp_all)) (by
      rw [bind_of_some hbody] at hspares
      rw [hbody]
      exact (sparesBraces_append.1 hspares).1)
  obtain ⟨us', hus', hreads⟩ := declarationsOf_reads (atRoom_follows m .expression)
    (statementAt_reads m) (atRoom_widens (Nat.le_refl m) .expression)
    (statementAt_widens (Nat.le_refl m)) .rightBrace ts (c := c.upTo ts) hroom (Nat.le_refl _) hbody
  rw [hbody] at hclosed
  obtain ⟨used, us, hused, hcursor, hzero, hnonneg⟩ := hclosed
  obtain rfl : c₁ = c.upTo us := hcursor
  obtain rfl : us = us' := congrArg (·.unread) hus'
  replace hused : ts = used ++ us := hused
  rw [bind_of_some hbody]
  by_cases hright : nextKind us = .rightBrace
  · obtain _ | ⟨right, us⟩ := us
    · cases hright
    · rw [nextKind_cons] at hright
      rw [expect_bind_of_kind (c := c.upTo (right :: us)) _ rfl
        (show right.kind = Landmark.blockEnd.kind from hright)]
      have hclosed : balance (left :: used ++ [right]) = 0 := by
        rw [List.cons_append, balance_cons, balance_append, balance_cons, hleft, hright,
          hzero (by simp)]
        rfl
      exact ⟨left :: used ++ [right], us, by simp [hts, hused], rfl, fun _ => hclosed,
        Int.le_of_eq hclosed.symm, fun h => absurd h (Option.some_ne_none _)⟩
  · -- the declarations have gone on to the end
    have hnil : us = [] := by
      rcases hreads.nextKind_of_declarations with hend | hend
      · obtain _ | ⟨t, us⟩ := us
        · rfl
        · exact absurd hend (heof t (by simp [hts, hused]))
      · exact absurd hend hright
    subst hnil
    rw [expect_bind_of_ne (c := c.upTo []) _
      (show nextKind (c.upTo []).unread ≠ Landmark.blockEnd.kind from hright)]
    have hopen : 0 < balance (left :: used) := by
      rw [balance_cons, hleft, brace]
      omega
    exact ⟨left :: used, [], by simp [hts, hused], rfl, fun h => by simp at h, by omega,
      fun _ _ _ => hopen⟩

end Blocks

/-- As long as recovery skips no brace, statements close the blocks that they open. -/
theorem statementAt_balances (m : Nat) : (statementAt m).Balances m := by
  induction m with
  | zero => exact fun c _ _ _ => .of_calm (List.nil_append _).symm rfl (by simp)
  | succ m ih =>
    refine Balances.nested fun c hroom heof hspares => ?_
    by_cases hblock : nextKind c.unread = .leftBrace
    · rcases hts : c.unread with _ | ⟨left, ts⟩
      · rw [hts] at hblock
        cases hblock
      · rw [hts] at hblock
        rw [statementBody_of_leftBrace m hts hblock] at hspares ⊢
        exact block_balanced ih hroom hts hblock heof hspares
    · obtain ⟨rule, hform, hrule⟩ := exists_form m (nextKind c.unread)
      rw [hrule c rfl] at hspares ⊢
      exact hform.balances ih hblock hroom heof hspares rfl

theorem unrecovered_balanced {d : Cursor} (heof : ∀ t ∈ d.unread, t.kind ≠ .eof)
    (hspares : SparesBraces (unrecovered d).events) : (unrecovered d).Balanced d :=
  declared_balances (statementAt_balances d.room) d rfl heof hspares

/-! ## Programs -/

/-- What recovery skips in a declaration, it skips there or where the declaration is left out. -/
theorem sparesBraces_declaration {d : Cursor} :
    SparesBraces (declaration d).events ↔ SparesBraces (unrecovered d).events ∧
      (attempted d = none →
        ∀ t ∈ (unrecovered d).cursor.toPlace.skipped, t.kind.brace = 0) := by
  rw [attempted_eq]
  cases h : (unrecovered d).result with
  | some s =>
    rw [declaration_of_some h, ← List.singleton_append, sparesBraces_append]
    simp [SparesBraces]
  | none =>
    rw [declaration_of_none h, ← List.singleton_append, sparesBraces_append, sparesBraces_append]
    simp [SparesBraces]

namespace Attempts

variable {c : Cursor} {ds : List Cursor}

/-- Where nothing is recovered from, all blocks are closed. -/
theorem balance_eq_zero (h : Attempts c ds) (heof : ∀ t ∈ c.unread, t.kind ≠ .eof)
    (hcalm : ∀ d ∈ ds, ∀ p, .recovering p ∉ (declaration d).events) : balance c.unread = 0 := by
  induction h with
  | @done c stop =>
    rcases hts : c.unread with _ | ⟨t, ts⟩
    · rfl
    · rw [hts] at stop heof
      exact absurd stop (heof t (.head _))
  | @next c ds start rest ih =>
    have hspares : SparesBraces (declaration c).events :=
      fun p hp => absurd hp (hcalm c (.head _) p)
    cases hresult : (unrecovered c).result with
    | none =>
      exact absurd (recovering_mem_of_none ((attempted_eq c).trans hresult))
        (hcalm c (.head _) _)
    | some s =>
      obtain ⟨used, us, hused, hcursor, hzero, -⟩ :=
        unrecovered_balanced heof (sparesBraces_declaration.1 hspares).1
      rw [declaration_of_some hresult, hcursor] at ih
      have hrest := ih (fun t ht => heof t (by simp_all)) fun d hd => hcalm d (.tail _ hd)
      rw [hused, balance_append, hzero (.inl (by simp [hresult]))]
      exact (Int.zero_add _).trans hrest

/-- The last declaration, if it fails, skips the last token, or it leaves a block open. -/
theorem attempted_ne_none {d : Cursor} (heof : ∀ t ∈ d.unread, t.kind ≠ .eof)
    (hspares : SparesBraces (declaration d).events)
    (hnil : (declaration d).cursor.unread = []) (hzero : balance d.unread = 0)
    (hlast : d.unread.getLast?.map (·.kind) = some .rightBrace) : attempted d ≠ none := by
  intro hnone
  obtain ⟨hspares, hskipped⟩ := sparesBraces_declaration.1 hspares
  obtain ⟨used, us, hused, hcursor, -, -, hopen⟩ := unrecovered_balanced heof hspares
  have hresult := (attempted_eq d).symm.trans hnone
  rw [declaration_of_none hresult] at hnil
  by_cases hus : us = []
  · subst hus
    rw [List.append_nil] at hused
    rw [← hused] at hopen
    have := hopen hresult rfl hlast
    omega
  · have happend := (unrecovered d).cursor.toPlace.skipped_append
    rw [show (unrecovered d).cursor.toPlace.resume.unread = [] from hnil, List.append_nil,
      hcursor] at happend
    have hcalm := hskipped hnone
    rw [hcursor, happend] at hcalm
    refine getLast?_ne_rightBrace hcalm ?_
    rwa [hused, List.getLast?_append_of_ne_nil used hus] at hlast

/-- Where as many braces open as close, the last token is one that closes, and recovery skips none
of them, the last declaration can be read. -/
theorem returned_of_balance (h : Attempts c ds) (heof : ∀ t ∈ c.unread, t.kind ≠ .eof)
    (hspares : ∀ d ∈ ds, SparesBraces (declaration d).events) (hzero : balance c.unread = 0)
    (hlast : c.unread.getLast?.map (·.kind) = some .rightBrace) {d : Cursor}
    (hd : ds.getLast? = some d) : attempted d ≠ none := by
  induction h with
  | done => cases hd
  | @next c ds start rest ih =>
    by_cases hnil : (declaration c).cursor.unread = []
    · cases rest with
      | done =>
        obtain rfl : c = d := by simpa using hd
        exact attempted_ne_none heof (hspares c (.head _)) hnil hzero hlast
      | next start' => exact absurd (by rw [hnil]; rfl) start'
    · -- in front of the other declarations all blocks are closed
      obtain ⟨used, us, hused, hcursor, hclosed, -⟩ :=
        declarationOf_closed (statementAt_balances c.room) rfl heof (hspares c (.head _))
      change (declaration c).cursor = c.upTo us at hcursor
      rw [hcursor] at hnil rest ih
      replace hnil : us ≠ [] := hnil
      have heof' : ∀ t ∈ us, t.kind ≠ .eof := fun t ht => heof t (by simp_all)
      have hne : ds ≠ [] := by
        rintro rfl
        cases rest with
        | done stop =>
          obtain _ | ⟨t, us⟩ := us
          · exact hnil rfl
          · exact heof' t (.head _) stop
      refine ih heof' (fun d hd => hspares d (.tail _ hd)) ?_ ?_ ?_
      · rw [hused, balance_append, hclosed hnil, Int.zero_add] at hzero
        exact hzero
      · rwa [hused, List.getLast?_append_of_ne_nil used hnil] at hlast
      · rwa [← List.singleton_append, List.getLast?_append_of_ne_nil [c] hne] at hd

end Attempts

end Grammar

end LoxSyntax
