import LoxSyntax.Proofs.Rule.Reply
import LoxSyntax.Proofs.Rule.Widening
import LoxSyntax.Session.Log

/-!
# Diagnostics in order

A run reads forwards, and what it blames on a token it blames in passing.  So the places of its
diagnostics follow each other like the tokens, with one exception: that the left side of an
assignment is no name is reported at the equals sign when the right side has been read, and so
behind whatever is wrong there.

**Order.**  Where the first of two diagnostics blames a token, the second one blames another one,
which comes later unless it is such an equals sign: `Diagnostic.Precedes`.

**Progress.**  A run that succeeds has passed every token that it blamed (`passed`); this is what
keeps the order across a sequence.  Recovery restores it, for it skips a token
(`Clears.recovered`).

**The end.**  The end of the text cannot be passed, so it may be blamed more than once.  A run that
succeeds has not blamed it (`Reply.Clears`) unless it has recovered; each brace accounts for one
more diagnostic there.
-/

namespace LoxSyntax

variable {α β : Type}

/-! ## Diagnostics -/

/-- The number of opening braces. -/
def braces (ts : List Token) : Nat :=
  ts.countP (·.kind == .leftBrace)

theorem braces_cons (t : Token) (ts : List Token) :
    braces (t :: ts) = braces ts + if t.kind = .leftBrace then 1 else 0 := by
  simp [braces, List.countP_cons]

/-- There are no more braces behind a place. -/
theorem braces_le_of_suffix {us ts : List Token} (h : us <:+ ts) : braces us ≤ braces ts :=
  h.sublist.countP_le

namespace Diagnostic

/-- How many tokens are unread at the place that is blamed. -/
def rest (d : Diagnostic) : Nat :=
  d.place.unread.length

/-- Whether the end of the text is blamed. -/
def isAtEnd (d : Diagnostic) : Bool :=
  d.place.isAtEnd

theorem isAtEnd_eq_false_iff {d : Diagnostic} : d.isAtEnd = false ↔ 0 < d.rest := by
  simp [isAtEnd, Place.isAtEnd, rest, List.length_pos_iff]

/-- If `d` blames a token then `e`, reported later, blames another one, and a later one unless it
is the equals sign of an assignment. -/
def Precedes (d e : Diagnostic) : Prop :=
  d.isAtEnd = false →
    e.rest ≠ d.rest ∧ (e.problem ≠ .invalidAssignmentTarget → e.rest < d.rest)

theorem precedes_of_lt {d e : Diagnostic} (h : d.isAtEnd = false → e.rest < d.rest) :
    d.Precedes e :=
  fun hd => ⟨Nat.ne_of_lt (h hd), fun _ => h hd⟩

end Diagnostic

/-! ## Replies -/

namespace Reply

/-- What was diagnosed during a run, in order. -/
def diagnostics (r : Reply α) : List Diagnostic :=
  r.events.filterMap Event.diagnostic?

theorem diagnostics_map (f : α → β) (rule : Rule α) (c : Cursor) :
    ((f <$> rule) c).diagnostics = (rule c).diagnostics := rfl

/-- The run from `c` has read on, what it blamed it has read or left in order, and the end was
blamed at most `k` times besides once for each brace in front of it. -/
structure Blames (k : Nat) (c : Cursor) (r : Reply α) : Prop where
  exists_upTo : ∃ us, us <:+ c.unread ∧ r.cursor = c.upTo us
  placed : ∀ d ∈ r.diagnostics,
    d.place.endLine = c.endLine ∧ d.place.unread <:+ c.unread ∧ r.cursor.unread.length ≤ d.rest
  passed : r.result.isSome → r.cursor.unread ≠ [] →
    ∀ d ∈ r.diagnostics, r.cursor.unread.length < d.rest
  ordered : r.diagnostics.Pairwise Diagnostic.Precedes
  countP_le : r.diagnostics.countP Diagnostic.isAtEnd ≤ k + braces c.unread

/-- Moreover, if it succeeded then it has blamed tokens only. -/
structure Clears (k : Nat) (c : Cursor) (r : Reply α) : Prop extends r.Blames k c where
  spared : r.result.isSome → ∀ d ∈ r.diagnostics, d.isAtEnd = false

variable {k n : Nat} {c : Cursor} {r : Reply α}

/-- A run that diagnoses nothing. -/
theorem Clears.of_diagnostics_eq_nil (hcursor : ∃ us, us <:+ c.unread ∧ r.cursor = c.upTo us)
    (h : r.diagnostics = []) : r.Clears k c where
  exists_upTo := hcursor
  placed := by simp [h]
  passed := by simp [h]
  ordered := by simp [h]
  countP_le := by simp [h]
  spared := by simp [h]

namespace Blames

theorem suffix (h : r.Blames k c) : r.cursor.unread <:+ c.unread := by
  obtain ⟨us, hus, hcursor⟩ := h.exists_upTo
  rw [hcursor]
  exact hus

theorem endLine_eq (h : r.Blames k c) : r.cursor.endLine = c.endLine := by
  obtain ⟨us, -, hcursor⟩ := h.exists_upTo
  rw [hcursor]
  rfl

/-- What a run that succeeds has blamed comes in front of all that is left. -/
theorem lt_rest (h : r.Blames k c) (hsome : r.result.isSome) {d : Diagnostic}
    (hd : d ∈ r.diagnostics) (htoken : d.isAtEnd = false) : r.cursor.unread.length < d.rest := by
  by_cases hleft : r.cursor.unread = []
  · rw [hleft]
    exact Diagnostic.isAtEnd_eq_false_iff.1 htoken
  · exact h.passed hsome hleft d hd

theorem mono (h : r.Blames k c) (hk : k ≤ n) : r.Blames n c :=
  ⟨h.exists_upTo, h.placed, h.passed, h.ordered,
    Nat.le_trans h.countP_le (Nat.add_le_add_right hk _)⟩

theorem map {rule : Rule α} (f : α → β) (h : (rule c).Blames k c) :
    ((f <$> rule) c).Blames k c := by
  refine ⟨h.exists_upTo, h.placed, fun hsome => h.passed ?_, h.ordered, h.countP_le⟩
  simpa [Functor.map, Rule.map] using hsome

/-- Where something is left, the end has not been blamed. -/
theorem countP_eq_zero (h : r.Blames k c) (hsome : r.result.isSome)
    (hleft : r.cursor.unread ≠ []) : r.diagnostics.countP Diagnostic.isAtEnd = 0 := by
  refine List.countP_eq_zero.2 fun d hd => ?_
  have hlt := h.passed hsome hleft d hd
  rw [Bool.not_eq_true, Diagnostic.isAtEnd_eq_false_iff]
  omega

/-- A run that goes on where another one has succeeded. -/
theorem append {s : Reply β} {k' : Nat} (h : r.Blames k c) (hsome : r.result.isSome)
    (hs : s.Blames k' r.cursor)
    (hcount : r.diagnostics.countP Diagnostic.isAtEnd + s.diagnostics.countP Diagnostic.isAtEnd ≤
      n + braces c.unread) :
    ({ s with events := r.events ++ s.events } : Reply β).Blames n c := by
  have hdiagnostics : ({ s with events := r.events ++ s.events } : Reply β).diagnostics =
      r.diagnostics ++ s.diagnostics := List.filterMap_append
  have hsuffix := hs.suffix.length_le
  constructor
  case exists_upTo =>
    obtain ⟨us, hus, hcursor⟩ := h.exists_upTo
    obtain ⟨vs, hvs, hcursor'⟩ := hs.exists_upTo
    rw [hcursor] at hvs hcursor'
    exact ⟨vs, hvs.trans hus, hcursor'⟩
  case placed =>
    intro d hd
    rw [hdiagnostics, List.mem_append] at hd
    rcases hd with hd | hd
    · obtain ⟨hline, hplace, hlen⟩ := h.placed d hd
      exact ⟨hline, hplace, Nat.le_trans hsuffix hlen⟩
    · obtain ⟨hline, hplace, hlen⟩ := hs.placed d hd
      exact ⟨hline.trans h.endLine_eq, hplace.trans h.suffix, hlen⟩
  case passed =>
    intro hresult hleft d hd
    rw [hdiagnostics, List.mem_append] at hd
    rcases hd with hd | hd
    · have hmore : r.cursor.unread ≠ [] := by
        intro hnil
        exact hleft (List.suffix_nil.1 (hnil ▸ hs.suffix))
      exact Nat.lt_of_le_of_lt hsuffix (h.passed hsome hmore d hd)
    · exact hs.passed hresult hleft d hd
  case ordered =>
    rw [hdiagnostics]
    refine List.pairwise_append.2 ⟨h.ordered, hs.ordered, fun d hd e he => ?_⟩
    refine Diagnostic.precedes_of_lt fun htoken => ?_
    obtain ⟨-, hplace, -⟩ := hs.placed e he
    exact Nat.lt_of_le_of_lt hplace.length_le (h.lt_rest hsome hd htoken)
  case countP_le =>
    rw [hdiagnostics, List.countP_append]
    exact hcount

end Blames

namespace Clears

/-- A token more in front, and perhaps a brace. -/
theorem cons {t : Token} {ts : List Token} (h : r.Clears k (c.upTo ts))
    (hts : c.unread = t :: ts) (hk : k + braces ts ≤ n + braces (t :: ts)) : r.Clears n c where
  exists_upTo := by
    obtain ⟨us, hus, hcursor⟩ := h.exists_upTo
    exact ⟨us, hts ▸ hus.trans (List.suffix_cons t ts), hcursor⟩
  placed d hd := by
    obtain ⟨hline, hplace, hlen⟩ := h.placed d hd
    exact ⟨hline, hts ▸ hplace.trans (List.suffix_cons t ts), hlen⟩
  passed := h.passed
  ordered := h.ordered
  countP_le := hts ▸ Nat.le_trans h.countP_le hk
  spared := h.spared

/-- The next token is blamed and read. -/
theorem blamed {t : Token} {ts : List Token} {problem : Problem} (hts : c.unread = t :: ts)
    (hcursor : r.cursor = c.upTo ts) (h : r.diagnostics = [⟨problem, c.toPlace⟩]) :
    r.Clears k c := by
  have hrest : (⟨problem, c.toPlace⟩ : Diagnostic).rest = ts.length + 1 :=
    congrArg List.length hts
  have htoken : (⟨problem, c.toPlace⟩ : Diagnostic).isAtEnd = false :=
    Diagnostic.isAtEnd_eq_false_iff.2 (by omega)
  have hpassed : r.cursor.unread.length < (⟨problem, c.toPlace⟩ : Diagnostic).rest := by
    rw [hcursor, hrest]
    exact Nat.lt_succ_self _
  constructor
  case toBlames =>
    constructor
    case exists_upTo => exact ⟨ts, hts ▸ List.suffix_cons t ts, hcursor⟩
    case placed =>
      rw [h]
      exact List.forall_mem_singleton.2 ⟨rfl, List.suffix_refl _, Nat.le_of_lt hpassed⟩
    case passed => simpa [h] using fun _ _ => hpassed
    case ordered => simp [h]
    case countP_le => simp [h, htoken]
  case spared => simpa [h] using fun _ => htoken

/-- A run that failed need not have passed what it blamed. -/
theorem of_failed (h : r.Blames k c) : (⟨none, r.cursor, r.events⟩ : Reply β).Clears k c where
  exists_upTo := h.exists_upTo
  placed := h.placed
  passed := by simp
  ordered := h.ordered
  countP_le := h.countP_le
  spared := by simp

/-- The equals sign of an assignment is blamed when the right side has been read. -/
theorem late {t : Token} {ts : List Token} (h : r.Clears k (c.upTo ts))
    (hts : c.unread = t :: ts) (hsome : r.result.isSome) (e : β) :
    (⟨some e, r.cursor, r.events ++ [.diagnosed ⟨.invalidAssignmentTarget, c.toPlace⟩]⟩ :
      Reply β).Clears k c := by
  have hbehind : r.Clears k c :=
    h.cons hts (Nat.add_le_add_left (braces_le_of_suffix (List.suffix_cons t ts)) k)
  have hdiagnostics : (⟨some e, r.cursor,
      r.events ++ [.diagnosed ⟨.invalidAssignmentTarget, c.toPlace⟩]⟩ : Reply β).diagnostics =
        r.diagnostics ++ [⟨.invalidAssignmentTarget, c.toPlace⟩] := List.filterMap_append
  have hrest : (⟨.invalidAssignmentTarget, c.toPlace⟩ : Diagnostic).rest = ts.length + 1 :=
    congrArg List.length hts
  have htoken : (⟨.invalidAssignmentTarget, c.toPlace⟩ : Diagnostic).isAtEnd = false :=
    Diagnostic.isAtEnd_eq_false_iff.2 (by omega)
  have hlen : r.cursor.unread.length ≤ ts.length := h.suffix.length_le
  constructor
  case toBlames =>
    constructor
    case exists_upTo => exact hbehind.exists_upTo
    case placed =>
      rw [hdiagnostics]
      exact List.forall_mem_append.2 ⟨hbehind.placed, List.forall_mem_singleton.2
        ⟨rfl, List.suffix_refl _, by rw [hrest]; exact Nat.le_succ_of_le hlen⟩⟩
    case passed =>
      intro _ hleft
      rw [hdiagnostics]
      exact List.forall_mem_append.2 ⟨hbehind.passed hsome hleft, List.forall_mem_singleton.2
        (by rw [hrest]; exact Nat.lt_succ_of_le hlen)⟩
    case ordered =>
      -- what is wrong on the right side is blamed on tokens behind the equals sign
      rw [hdiagnostics]
      refine List.pairwise_append.2 ⟨h.ordered, List.pairwise_singleton _ _, fun d hd e he => ?_⟩
      obtain rfl := List.mem_singleton.1 he
      obtain ⟨-, hplace, -⟩ := h.placed d hd
      refine fun _ => ⟨?_, fun hproblem => absurd rfl hproblem⟩
      rw [hrest]
      exact Nat.ne_of_gt (Nat.lt_succ_of_le hplace.length_le)
    case countP_le =>
      rw [hdiagnostics, List.countP_append, List.countP_singleton, htoken]
      exact hbehind.countP_le
  case spared =>
    intro _
    rw [hdiagnostics]
    exact List.forall_mem_append.2 ⟨h.spared hsome, List.forall_mem_singleton.2 htoken⟩

end Clears

end Reply

namespace Rule

variable {k k' : Nat} {c : Cursor}

/-! ## Sequence -/

/-- A sequence whose first rule has passed what it blamed when the second one begins. -/
theorem clears_bind {rule : Rule α} {next : α → Rule β} (h : (rule c).Clears k c)
    (hnext : ∀ a, (rule c).result = some a →
      (next a (rule c).cursor).Clears k (rule c).cursor) :
    ((rule >>= next) c).Clears k c := by
  rw [bind_reply]
  split
  · next a ha =>
    have hsome : (rule c).result.isSome := by rw [ha]; rfl
    have hs := hnext a ha
    have hcount : (rule c).diagnostics.countP Diagnostic.isAtEnd = 0 :=
      List.countP_eq_zero.2 fun d hd => by simp [h.spared hsome d hd]
    refine ⟨h.append hsome hs.toBlames ?_, fun hresult d hd => ?_⟩
    · have := hs.countP_le
      have := braces_le_of_suffix h.suffix
      omega
    · rw [Reply.diagnostics, List.filterMap_append, List.mem_append] at hd
      exact hd.elim (h.spared hsome d) (hs.spared hresult d)
  · exact .of_failed h.toBlames

/-- A sequence whose first rule may have blamed the end, where the second one cannot succeed. -/
theorem clears_bind_of_blames {rule : Rule α} {next : α → Rule β} (h : (rule c).Blames k c)
    (hnext : ∀ a, (next a (rule c).cursor).Clears k' (rule c).cursor)
    (hend : ∀ a, (rule c).cursor.unread = [] → (next a (rule c).cursor).result = none) :
    ((rule >>= next) c).Clears (k + k') c := by
  rw [bind_reply]
  split
  · next a ha =>
    have hsome : (rule c).result.isSome := by rw [ha]; rfl
    have hs := hnext a
    have hfirst := h.countP_le
    have hsecond := hs.countP_le
    refine ⟨h.append hsome hs.toBlames ?_, fun hresult d hd => ?_⟩
    · by_cases hleft : (rule c).cursor.unread = []
      · rw [hleft] at hsecond
        have : braces [] = 0 := rfl
        omega
      · rw [h.countP_eq_zero hsome hleft]
        have := braces_le_of_suffix h.suffix
        omega
    · have hleft : (rule c).cursor.unread ≠ [] := fun hnil => by
        rw [hend a hnil] at hresult
        cases hresult
      rw [Reply.diagnostics, List.filterMap_append, List.mem_append] at hd
      rcases hd with hd | hd
      · have := h.passed hsome hleft d hd
        exact Diagnostic.isAtEnd_eq_false_iff.2 (by omega)
      · exact hs.spared hresult d hd
  · exact .of_failed (h.mono (by omega))

/-! ## Rules -/

/-- From `c` the rule blames in order, and blames the end only if it fails. -/
def ClearsAt (rule : Rule α) (c : Cursor) : Prop :=
  (rule c).Clears 1 c

/-- The rule does so wherever it begins. -/
def Clears (rule : Rule α) : Prop :=
  ∀ c, rule.ClearsAt c

/-- The rule blames in order, wherever it begins. -/
def Blames (rule : Rule α) : Prop :=
  ∀ c, (rule c).Blames 1 c

theorem clearsAt_place_bind {next : Place → Rule β} :
    (place >>= next).ClearsAt c ↔ (next c.toPlace).ClearsAt c := by
  rw [ClearsAt, place_bind, ClearsAt]

theorem clearsAt_next?_bind {next : Option Token → Rule β} :
    (next? >>= next).ClearsAt c ↔ (next c.unread.head?).ClearsAt c := by
  rw [ClearsAt, next?_bind, ClearsAt]

/-- Behind a token. -/
theorem clearsAt_skip_bind {next : Unit → Rule β} {t : Token} {ts : List Token}
    (hts : c.unread = t :: ts) (h : (next ()).Clears) : (skip >>= next).ClearsAt c := by
  rw [ClearsAt, skip_bind, hts, List.tail_cons]
  exact (h (c.upTo ts)).cons hts
    (Nat.add_le_add_left (braces_le_of_suffix (List.suffix_cons t ts)) 1)

namespace Clears

variable {rule : Rule α}

theorem pure (a : α) : (Pure.pure a : Rule α).Clears :=
  fun c => .of_diagnostics_eq_nil ⟨c.unread, List.suffix_refl _, rfl⟩ rfl

theorem place : Rule.place.Clears :=
  fun c => .of_diagnostics_eq_nil ⟨c.unread, List.suffix_refl _, rfl⟩ rfl

/-- A rule that fails where it stands may blame the end. -/
theorem fail (problem : Problem) : (Rule.fail problem : Rule α).Clears := by
  intro c
  have hblames : (Rule.fail problem c : Reply α).Blames 1 c :=
    ⟨⟨c.unread, List.suffix_refl _, rfl⟩,
      List.forall_mem_singleton.2 ⟨rfl, List.suffix_refl _, Nat.le_refl _⟩, nofun,
      List.pairwise_singleton _ _, Nat.le_trans List.countP_le_length (Nat.le_add_right 1 _)⟩
  exact .of_failed hblames

theorem bind {next : α → Rule β} (h : rule.Clears) (hnext : ∀ a, (next a).Clears) :
    (rule >>= next).Clears :=
  fun c => clears_bind (h c) fun a _ => hnext a _

theorem eat? (accepts : TokenKind → Bool) : (Rule.eat? accepts).Clears := by
  intro c
  obtain ⟨us, hus, hcursor⟩ := (Step.eat? accepts).exists_upTo c
  refine .of_diagnostics_eq_nil ⟨us, hus, hcursor⟩ ?_
  rcases hts : c.unread with _ | ⟨t, ts⟩
  · simp [Rule.eat?, hts, Reply.diagnostics]
  · by_cases ht : accepts t.kind <;> simp [Rule.eat?, hts, ht, Reply.diagnostics]

theorem eat (kind : TokenKind) : (Rule.eat kind).Clears :=
  (eat? _).bind fun _ => .pure _

theorem expect (landmark : Landmark) : (Rule.expect landmark).Clears :=
  (eat? _).bind fun
    | some t => .pure t
    | none => .fail _

/-- A choice by a token. -/
theorem ite_eat (kind : TokenKind) {yes no : Rule α} (hyes : yes.Clears) (hno : no.Clears) :
    (do if ← Rule.eat kind then yes else no : Rule α).Clears :=
  (eat kind).bind fun
    | true => hyes
    | false => hno

theorem nested (h : rule.Clears) : (Rule.nested rule).Clears := by
  intro c
  by_cases hlt : c.depth < c.ceiling
  · rw [ClearsAt, nested_of_lt rule hlt]
    have hdeeper := h c.deeper
    obtain ⟨us, hus, hcursor⟩ := hdeeper.exists_upTo
    exact ⟨⟨⟨us, hus, by rw [Reply.shallower, hcursor]; rfl⟩, hdeeper.placed, hdeeper.passed,
      hdeeper.ordered, hdeeper.countP_le⟩, hdeeper.spared⟩
  · rw [ClearsAt, nested_of_not_lt rule hlt]
    exact fail _ c

/-- Recovery skips the token that was blamed last, unless nothing is left to skip. -/
theorem recovered (h : rule.Clears) : (Rule.recovered rule).Blames := by
  intro c
  have hrule := h c
  rw [recovered_reply]
  split
  · next a ha =>
    have hsome : (rule c).result.isSome := by rw [ha]; rfl
    exact ⟨hrule.exists_upTo, hrule.placed, fun _ => hrule.passed hsome, hrule.ordered,
      hrule.countP_le⟩
  · obtain ⟨us, hus, hcursor⟩ := hrule.exists_upTo
    have hskipped := Place.resume_unread_suffix (rule c).cursor.toPlace
    have hskip := hskipped.length_le
    rw [List.length_tail] at hskip
    have hdiagnostics : ((rule c).events ++ [Event.recovering (rule c).cursor.toPlace]).filterMap
        Event.diagnostic? = (rule c).diagnostics := by
      simp [Reply.diagnostics, Event.diagnostic?]
    constructor
    case exists_upTo =>
      refine ⟨(c.upTo us).toPlace.resume.unread, ?_, ?_⟩
      · exact (Place.resume_unread_suffix _).trans ((List.tail_suffix us).trans hus)
      · rw [hcursor, Place.resume_eq]
        rfl
    case placed =>
      intro d hd
      rw [Reply.diagnostics, hdiagnostics] at hd
      obtain ⟨hline, hplace, hlen⟩ := hrule.placed d hd
      refine ⟨hline, hplace, ?_⟩
      show (rule c).cursor.toPlace.resume.unread.length ≤ d.rest
      omega
    case passed =>
      intro _ hleft d hd
      rw [Reply.diagnostics, hdiagnostics] at hd
      obtain ⟨-, -, hlen⟩ := hrule.placed d hd
      have hpos := List.length_pos_iff.2 hleft
      dsimp only at hpos ⊢
      omega
    case ordered =>
      rw [Reply.diagnostics, hdiagnostics]
      exact hrule.ordered
    case countP_le =>
      rw [Reply.diagnostics, hdiagnostics]
      exact hrule.countP_le

theorem chain (p : Precedence) {operand : Rule Expr} (h : operand.Clears)
    (rounds : List Token) : ∀ lhs, (Rule.chain p operand rounds lhs).Clears := by
  induction rounds with
  | nil => exact fun lhs => .pure lhs
  | cons _ rounds ih =>
    exact fun lhs => (eat? _).bind fun
      | none => .pure lhs
      | some op => h.bind fun rhs => ih (p.join lhs op rhs)

theorem leftAssociative (p : Precedence) {operand : Rule Expr} (h : operand.Clears) :
    (Rule.leftAssociative p operand).Clears :=
  h.bind fun lhs => place.bind fun start => .chain p h start.unread lhs

end Clears

end Rule

end LoxSyntax
