import LoxSyntax.Proofs.Misfit.Break
import LoxSyntax.Proofs.Reading.Tails

/-!
# Completion

What has been read up to a misfit is the beginning of something that can be read: every rule that is
still at work there is brought to its end by a few tokens.  Where an operand or a name is lacking a
name stands in for it, and behind that come the tokens that the rules around it demand.

* `samples` — tokens of given kinds.
* `Completable` — what has been read is the beginning of something.
* `Completable.within` — the part of a rule that breaks off is completed in the whole.
* **`demanded_completable`** — a part and the token that is demanded behind it, wherever they break
  off.
-/

namespace LoxSyntax

/-! ## Samples -/

/-- A token of a kind.  A name is `x`. -/
def Token.sample (kind : TokenKind) : Token :=
  { kind, lexeme := if kind = .identifier then "x" else String.ofList kind.spelling, line := 1 }

/-- Tokens of some kinds. -/
def samples (kinds : List TokenKind) : List Token :=
  kinds.map Token.sample

@[simp] theorem samples_nil : samples [] = [] := rfl

@[simp] theorem samples_cons (kind : TokenKind) (kinds : List TokenKind) :
    samples (kind :: kinds) = Token.sample kind :: samples kinds := rfl

@[simp] theorem samples_append (kinds kinds' : List TokenKind) :
    samples (kinds ++ kinds') = samples kinds ++ samples kinds' :=
  List.map_append

/-- In front of these kinds every expression and every statement can end. -/
def TokenKind.closes : TokenKind → Bool
  | rightParen | rightBrace | colon | semicolon | eof => true
  | _ => false

namespace TokenKind

variable {k : TokenKind} (h : k.closes)

include h

theorem precedence?_of_closes : k.precedence? = none := by
  cases k <;> first | rfl | cases h

theorem continuation?_of_closes : k.continuation? = none := by
  cases k <;> first | rfl | cases h

theorem endsLike_of_closes (l : TokenKind) : k.EndsLike l :=
  .inr (continuation?_of_closes h)

theorem ne_of_closes {l : TokenKind} (hl : l.closes = false) : k ≠ l := by
  rintro rfl
  rw [h] at hl
  cases hl

end TokenKind

/-! ## Completable beginnings -/

/-- What has been read of `ts` up to `us` is the beginning of something: with a few tokens behind it
that is read in front of whatever it can end at, where three levels more may be opened.  If nothing
has been read yet, it is completed by a name and what comes behind a name. -/
def Completable {α : Type} (reads : UInt32 → Nat → List Token → α → List Token → List Event → Prop)
    (ends : TokenKind → Prop) (m : Nat) (ts us : List Token) : Prop :=
  ∃ used more, ts = used ++ us ∧ .eof ∉ more ∧ (used = [] → more.head? = some .identifier) ∧
    ∀ endLine ⦃m' vs⦄, m + 3 ≤ m' → ends (nextKind vs) →
      ∃ a ev, Unbroken ev ∧ reads endLine m' (used ++ (samples more ++ vs)) a vs ev

section Completable

variable {α β : Type} {m : Nat} {ts us ws : List Token}
  {reads : UInt32 → Nat → List Token → α → List Token → List Event → Prop}
  {reads' : UInt32 → Nat → List Token → β → List Token → List Event → Prop}
  {ends ends' : TokenKind → Prop}

/-- What is completed inside of something larger is completed with it: `front` has been read before
it, and `back` is demanded behind it. -/
theorem Completable.within (h : Completable reads ends m us ws) (front : List Token)
    (back : List TokenKind) (hts : ts = front ++ us) (hback : .eof ∉ back)
    (hends : ∀ vs, ends' (nextKind vs) → ends (nextKind (samples back ++ vs)))
    (hreads : ∀ ⦃endLine m' us' vs a ev⦄, m + 3 ≤ m' → ends' (nextKind vs) →
      (nextKind us' = nextKind us ∨ nextKind us' = .identifier) → Unbroken ev →
      reads endLine m' us' a (samples back ++ vs) ev →
      ∃ b ev', Unbroken ev' ∧ reads' endLine m' (front ++ us') b vs ev') :
    Completable reads' ends' m ts ws := by
  obtain ⟨used, more, rfl, hmore, hhead, hcompletes⟩ := h
  refine ⟨front ++ used, more ++ back, by rw [hts, List.append_assoc], ?_, ?_, ?_⟩
  · exact fun heof => (List.mem_append.1 heof).elim hmore hback
  · intro hnil
    rw [List.head?_append, hhead (List.append_eq_nil_iff.1 hnil).2]
    rfl
  · intro endLine m' vs hm hvs
    obtain ⟨a, ev, hev, ha⟩ := hcompletes endLine hm (hends vs hvs)
    have hstart :
        nextKind (used ++ (samples more ++ (samples back ++ vs))) = nextKind (used ++ ws) ∨
          nextKind (used ++ (samples more ++ (samples back ++ vs))) = .identifier := by
      cases used with
      | cons t used => exact .inl rfl
      | nil =>
        obtain ⟨kinds, rfl⟩ := List.head?_eq_some_iff.1 (hhead rfl)
        exact .inr rfl
    simpa using hreads hm hvs hstart hev ha

/-- The same where nothing is demanded behind the part that breaks off. -/
theorem Completable.behind (h : Completable reads ends m us ws) (front : List Token)
    (hts : ts = front ++ us) (hends : ∀ k, ends' k → ends k)
    (hreads : ∀ ⦃endLine m' us' vs a ev⦄, m + 3 ≤ m' → ends' (nextKind vs) →
      (nextKind us' = nextKind us ∨ nextKind us' = .identifier) → Unbroken ev →
      reads endLine m' us' a vs ev →
      ∃ b ev', Unbroken ev' ∧ reads' endLine m' (front ++ us') b vs ev') :
    Completable reads' ends' m ts ws :=
  h.within front [] hts (by simp) (fun vs => hends (nextKind vs)) hreads

/-- What completes one thing completes another one that is read from the same tokens. -/
theorem Completable.mono (h : Completable reads ends m ts us) (hends : ∀ k, ends' k → ends k)
    (hreads : ∀ ⦃endLine m' ts' vs a ev⦄, m + 3 ≤ m' → ends' (nextKind vs) →
      (nextKind ts' = nextKind ts ∨ nextKind ts' = .identifier) → Unbroken ev →
      reads endLine m' ts' a vs ev →
      ∃ b ev', Unbroken ev' ∧ reads' endLine m' ts' b vs ev') :
    Completable reads' ends' m ts us :=
  h.behind [] rfl hends hreads

/-- One level deeper there is one level less. -/
theorem Completable.opened (h : Completable reads ends m ts us)
    (hreads : ∀ ⦃endLine m' ts' vs a ev⦄, reads endLine m' ts' a vs ev →
      ∃ b, reads' endLine (m' + 1) ts' b vs ev) :
    Completable reads' ends (m + 1) ts us := by
  obtain ⟨used, more, hts, hmore, hhead, hcompletes⟩ := h
  refine ⟨used, more, hts, hmore, hhead, fun endLine m' vs hm hvs => ?_⟩
  obtain ⟨m', rfl⟩ := Nat.exists_eq_add_of_le' (Nat.le_trans (Nat.le_add_left 1 _) hm)
  obtain ⟨a, ev, hev, ha⟩ := hcompletes endLine (show m + 3 ≤ m' by omega) hvs
  obtain ⟨b, hb⟩ := hreads ha
  exact ⟨b, ev, hev, hb⟩

end Completable

/-! ## Landmarks -/

section Landmarks

variable {α β : Type}

/-- What is read up to a token of some kind, and that token. -/
def ReadsBefore (kind : TokenKind)
    (reads : UInt32 → Nat → List Token → α → List Token → List Event → Prop) (endLine : UInt32)
    (m : Nat) (ts : List Token) (a : α) (us : List Token) (ev : List Event) : Prop :=
  ∃ t, reads endLine m ts a (t :: us) ev ∧ t.kind = kind

/-- What is read is read in the same way in front of a token of some kind, and it is nothing only in
front of such a token. -/
def Retails (kind : TokenKind)
    (reads : UInt32 → Nat → List Token → α → List Token → List Event → Prop) (m : Nat) : Prop :=
  ∀ ⦃endLine ts a us ev⦄, reads endLine m ts a us ev → Unbroken ev →
    ∃ used, ts = used ++ us ∧ (used = [] → nextKind us = kind) ∧
      ∀ endLine' ⦃m'⦄ us', m + 3 ≤ m' → nextKind us' = kind →
        ∃ ev', Unbroken ev' ∧ reads endLine' m' (used ++ us') a us' ev'

open Rule

/-- A part and the token that is demanded behind it break off in the part or at the landmark, and in
either case the token completes them; or the rest breaks behind it. -/
theorem demanded_completable (landmark : Landmark) {rule : Rule α} {next : α → Token → Rule β}
    {reads : UInt32 → Nat → List Token → α → List Token → List Event → Prop} {m : Nat} {c : Cursor}
    {d : Diagnostic} (hrule : rule.Follows m fun endLine => reads endLine m)
    (hviable : rule.Breaks c d →
      Completable reads (fun k => k.closes) m c.unread d.place.unread)
    (hretails : Retails landmark.kind reads m) (hcloses : landmark.kind.closes)
    (hroom : c.room = m)
    (hbreaks : (do let a ← rule; let t ← expect landmark; next a t : Rule β).Breaks c d) :
    Completable (ReadsBefore landmark.kind reads) (fun _ => True) m c.unread d.place.unread ∨
      ∃ a t us ev, reads c.endLine m c.unread a (t :: us) ev ∧ Unbroken ev ∧
        t.kind = landmark.kind ∧ (next a t).Breaks (c.upTo us) d := by
  rcases hrule.breaks_bind hroom hbreaks with hbreak | ⟨a, us, ev, ha, hev, hend⟩
  · refine .inl ((hviable hbreak).within [] [landmark.kind] rfl ?_ (fun _ _ => hcloses) ?_)
    · simpa using landmark.kind_ne_eof.symm
    · intro endLine m' us' vs a ev _ _ _ hev ha
      exact ⟨a, ev, hev, _, ha, rfl⟩
  obtain ⟨used, hts, hnil, hused⟩ := hretails ha hev
  rcases hend.of_expect with ⟨hplace, hne⟩ | ⟨t, ts, hus, ht, hnext⟩
  · refine .inl ⟨used, [landmark.kind], by rw [hplace]; exact hts, ?_, ?_, ?_⟩
    · simpa using landmark.kind_ne_eof.symm
    · exact fun h => absurd (hnil h) hne
    · intro endLine m' vs hm _
      obtain ⟨ev', hev', ha'⟩ := hused endLine (.sample landmark.kind :: vs) hm rfl
      exact ⟨a, ev', hev', _, ha', rfl⟩
  · obtain rfl : us = t :: ts := hus
    exact .inr ⟨a, t, ts, ev, ha, hev, ht, hnext⟩

end Landmarks

end LoxSyntax
