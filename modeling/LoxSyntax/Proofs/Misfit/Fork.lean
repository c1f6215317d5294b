import LoxSyntax.Proofs.Misfit.Break
import LoxSyntax.Proofs.Session.Calls

/-!
# Texts that part behind a token

Two lists of tokens are the same up to some token, and behind it they part.  Two runs of a rule on
them go on alike as long as that token is at most looked at.  Once the first run has read past it,
the two may differ in everything; but what the first run blames from then on stands behind it.

* `Fork`, `Place.Twin`, `Cursor.Twin` — where texts part, and the places in front of it.
* `Reply.Alike`, `Reply.Parts`, `Reply.Agrees` — two runs that have not parted, and that have.
* **`Reply.Agrees.errors_isPrefix`** — both runs report what is reported up to a misfit at the fork.
* `Rule.Foresees` — rules whose runs part behind the fork only.
* **`Rule.Foresees.bind`**, `Rule.Foresees.nested`, `Rule.Foresees.recovered` — the steps that rules
  are made of.
-/

namespace LoxSyntax

/-! ## Places in front of a fork -/

/-- A token behind which there is one list of tokens or another. -/
structure Fork where
  last : Token
  left : List Token
  right : List Token

variable {α β : Type} (f : Fork)

/-- Two places in front of the fork, with the same tokens up to there. -/
def Place.Twin (p p' : Place) : Prop :=
  ∃ ahead, p.unread = ahead ++ f.last :: f.left ∧ p'.unread = ahead ++ f.last :: f.right

/-- The same with as many levels open under the same ceiling. -/
structure Cursor.Twin (c c' : Cursor) : Prop where
  place : Place.Twin f c.toPlace c'.toPlace
  depth : c'.depth = c.depth
  ceiling : c'.ceiling = c.ceiling

variable {f}

namespace Place.Twin

variable {p p' : Place} (h : Place.Twin f p p')

include h

/-- Both places have the same next token.  Behind it the places are twins again, or the first one is
behind the fork. -/
theorem exists_next : ∃ t ts ts', p.unread = t :: ts ∧ p'.unread = t :: ts' ∧
    (ts = f.left ∨ ∃ ahead, ts = ahead ++ f.last :: f.left ∧ ts' = ahead ++ f.last :: f.right) := by
  obtain ⟨_ | ⟨t, ahead⟩, hp, hp'⟩ := h
  · exact ⟨_, _, _, hp, hp', .inl rfl⟩
  · exact ⟨_, _, _, hp, hp', .inr ⟨ahead, rfl, rfl⟩⟩

theorem head?_eq : p'.unread.head? = p.unread.head? := by
  obtain ⟨t, ts, ts', hp, hp', -⟩ := h.exists_next
  rw [hp, hp']
  rfl

theorem nextKind_eq : nextKind p'.unread = nextKind p.unread := by
  obtain ⟨t, ts, ts', hp, hp', -⟩ := h.exists_next
  rw [hp, hp']
  rfl

/-- A problem is shown in the same way at both places. -/
theorem error_eq (problem : Problem) :
    Diagnostic.error ⟨problem, p'⟩ = Diagnostic.error ⟨problem, p⟩ := by
  obtain ⟨t, ts, ts', hp, hp', -⟩ := h.exists_next
  simp only [Diagnostic.error, line, context, hp, hp']

/-- Recovery stops in front of the fork at both places, or it goes past it from the first one. -/
theorem resume : Place.Twin f p.resume p'.resume ∨ p.resume.unread.length ≤ f.left.length := by
  have hskip : ∀ (skipped : Token) (ahead : List Token),
      (∃ ahead', skipToStatement skipped (ahead ++ f.last :: f.left) = ahead' ++ f.last :: f.left ∧
        skipToStatement skipped (ahead ++ f.last :: f.right) = ahead' ++ f.last :: f.right) ∨
      (skipToStatement skipped (ahead ++ f.last :: f.left)).length ≤ f.left.length := by
    intro skipped ahead
    induction ahead generalizing skipped with
    | nil =>
      simp only [List.nil_append, skipToStatement]
      split
      · exact .inl ⟨[], rfl, rfl⟩
      · exact .inr (skipToStatement_suffix f.last f.left).length_le
    | cons t ahead ih =>
      simp only [List.cons_append, skipToStatement]
      split
      · exact .inl ⟨t :: ahead, rfl, rfl⟩
      · exact ih t
  obtain ⟨t, ts, ts', hp, hp', rfl | ⟨ahead, rfl, rfl⟩⟩ := h.exists_next
  · refine .inr ?_
    rw [Place.resume, hp]
    exact (skipToStatement_suffix t f.left).length_le
  · have hresume : p.resume.unread = skipToStatement t (ahead ++ f.last :: f.left) := by
      rw [Place.resume, hp]
    have hresume' : p'.resume.unread = skipToStatement t (ahead ++ f.last :: f.right) := by
      rw [Place.resume, hp']
    rw [Place.Twin, hresume, hresume']
    exact hskip t ahead

end Place.Twin

namespace Cursor.Twin

variable {c c' : Cursor} (h : Cursor.Twin f c c')

include h

theorem room_eq : c'.room = c.room := by
  rw [room, room, h.depth, h.ceiling]

theorem upTo (ahead : List Token) :
    Cursor.Twin f (c.upTo (ahead ++ f.last :: f.left)) (c'.upTo (ahead ++ f.last :: f.right)) :=
  ⟨⟨ahead, rfl, rfl⟩, h.depth, h.ceiling⟩

theorem deeper : Cursor.Twin f c.deeper c'.deeper :=
  ⟨h.place, congrArg (· + 1) h.depth, h.ceiling⟩

end Cursor.Twin

/-! ## Replies -/

theorem errorsOf_isPrefix {ev ev' : List Event} (h : ev <+: ev') : errorsOf ev <+: errorsOf ev' :=
  (h.filterMap _).map _

variable (f)

/-- Both runs have read, and reported, the same. -/
structure Reply.Alike (r r' : Reply α) : Prop where
  result : r'.result = r.result
  cursor : Cursor.Twin f r.cursor r'.cursor
  errors : errorsOf r'.events = errorsOf r.events

/-- The first run has read past the fork.  Up to there the second one reports the same, and from
then on the first one finds misfits only behind the fork. -/
def Reply.Parts (r r' : Reply α) : Prop :=
  ∃ before after, r.events = before ++ after ∧ errorsOf before <+: errorsOf r'.events ∧
    (∀ d, .diagnosed d ∈ after → d.problem.isMisfit →
      d.place.unread.length ≤ f.left.length) ∧
    r.cursor.unread.length ≤ f.left.length

/-- The runs are alike up to the fork. -/
def Reply.Agrees (r r' : Reply α) : Prop :=
  r.Alike f r' ∨ r.Parts f r'

variable {f}

/-- What the first run reports up to a misfit at the fork, the second one reports as well. -/
theorem Reply.Agrees.errors_isPrefix {r r' : Reply α} (h : r.Agrees f r')
    {before after : List Event} {d : Diagnostic}
    (hevents : r.events = before ++ .diagnosed d :: after) (hmisfit : d.problem.isMisfit)
    (hplace : d.place.unread = f.last :: f.left) :
    errorsOf (before ++ [.diagnosed d]) <+: errorsOf r'.events := by
  rcases h with halike | ⟨early, late, hparts, herrors, hlate, -⟩
  · rw [halike.errors, hevents]
    exact errorsOf_isPrefix ⟨after, by simp⟩
  · have hnot : .diagnosed d ∉ late := by
      intro hd
      have hle := hlate d hd hmisfit
      rw [hplace, List.length_cons] at hle
      omega
    refine List.IsPrefix.trans (errorsOf_isPrefix ?_) herrors
    rcases List.append_eq_append_iff.1 (hparts.symm.trans hevents) with
      ⟨more, rfl, hmore⟩ | ⟨more, rfl, hmore⟩
    · exact absurd (by rw [hmore]; simp) hnot
    · rcases more with _ | ⟨event, more⟩
      · exact absurd (by rw [← List.nil_append late, ← hmore]; simp) hnot
      · obtain ⟨rfl, -⟩ := List.cons.inj hmore
        exact ⟨more, by simp⟩

namespace Rule

/-! ## Misfits of a run -/

/-- A misfit of a run is found at a place that the run has come to. -/
theorem Step.misfit_suffix {rule : Rule α} (h : Step rule) (c : Cursor) {d : Diagnostic}
    (hd : .diagnosed d ∈ (rule c).events) (hmisfit : d.problem.isMisfit) :
    d.place.unread <:+ c.unread := by
  cases h with
  | failAt =>
    cases List.mem_singleton.1 hd
    cases hmisfit
  | fail =>
    cases List.mem_singleton.1 hd
    exact List.suffix_refl _
  | report hproblem =>
    cases List.mem_singleton.1 hd
    rw [(Problem.isMisfit_iff.1 hmisfit).1] at hproblem
    cases hproblem
  | declaring => cases List.mem_singleton.1 hd
  | eat? accepts =>
    rcases hts : c.unread with _ | ⟨t, ts⟩
    · simp [Rule.eat?, hts] at hd
    · by_cases ht : accepts t.kind <;> simp [Rule.eat?, hts, ht] at hd
  | _ => cases hd

theorem Widens.misfit_suffix {rule rule' : Rule α} (h : Widens rule rule') (c : Cursor)
    {d : Diagnostic} (hd : .diagnosed d ∈ (rule c).events) (hmisfit : d.problem.isMisfit) :
    d.place.unread <:+ c.unread := by
  induction h generalizing c with
  | step h => exact h.misfit_suffix c hd hmisfit
  | cut =>
    cases List.mem_singleton.1 hd
    cases hmisfit
  | @bind α β rule rule' next next' hrule _ ih₁ ih₂ =>
    rw [bind_reply] at hd
    split at hd
    · rcases List.mem_append.1 hd with hd | hd
      · exact ih₁ c hd
      · obtain ⟨us, hus, hcursor⟩ := hrule.exists_upTo c
        have hsuffix := ih₂ _ _ hd
        rw [hcursor] at hsuffix
        exact hsuffix.trans hus
    · exact ih₁ c hd
  | @nested α rule rule' _ ih =>
    by_cases hlt : c.depth < c.ceiling
    · rw [nested_of_lt rule hlt] at hd
      exact ih c.deeper hd
    · rw [nested_of_not_lt rule hlt] at hd
      cases List.mem_singleton.1 hd
      cases hmisfit
  | @recovered α rule rule' _ ih =>
    rw [recovered_reply] at hd
    split at hd
    · exact ih c hd
    · rcases List.mem_append.1 hd with hd | hd
      · exact ih c hd
      · cases List.mem_singleton.1 hd

end Rule

open Rule

/-! ## Sequence -/

/-- Whatever comes behind a run that has parted makes no difference to it. -/
theorem Reply.Parts.mono {r r' : Reply α} {s s' : Reply β} (h : r.Parts f r') {more : List Event}
    (hevents : s.events = r.events ++ more) (hevents' : r'.events <+: s'.events)
    (hmore : ∀ d, .diagnosed d ∈ more → d.problem.isMisfit →
      d.place.unread.length ≤ f.left.length)
    (hcursor : s.cursor.unread.length ≤ r.cursor.unread.length) : s.Parts f s' := by
  obtain ⟨before, after, hr, herrors, hafter, hlen⟩ := h
  refine ⟨before, after ++ more, by rw [hevents, hr, List.append_assoc],
    herrors.trans (errorsOf_isPrefix hevents'), fun d hd hmisfit => ?_, Nat.le_trans hcursor hlen⟩
  rcases List.mem_append.1 hd with hd | hd
  · exact hafter d hd hmisfit
  · exact hmore d hd hmisfit

/-- Sequences agree if their first rules do, and the rest of them does from twin cursors. -/
theorem Reply.Agrees.bind {rule rule' : Rule α} {next next' : α → Rule β} {c c' : Cursor}
    (hrule : (rule c).Agrees f (rule' c')) (hmade : ∀ a, Widens (next a) (next a))
    (hnext : ∀ a, Cursor.Twin f (rule c).cursor (rule' c').cursor →
      (next a (rule c).cursor).Agrees f (next' a (rule' c').cursor)) :
    ((rule >>= next) c).Agrees f ((rule' >>= next') c') := by
  rcases hrule with halike | hparts
  · rw [bind_reply, bind_reply, halike.result]
    cases (rule c).result with
    | none => exact .inl ⟨rfl, halike.cursor, halike.errors⟩
    | some a =>
      rcases hnext a halike.cursor with hmore | ⟨before, after, hevents, herrors, hlate, hlen⟩
      · refine .inl ⟨hmore.result, hmore.cursor, ?_⟩
        simp only [errorsOf_append, halike.errors, hmore.errors]
      · refine .inr ⟨(rule c).events ++ before, after, ?_, ?_, hlate, hlen⟩
        · simp only [hevents, List.append_assoc]
        · simp only [errorsOf_append, halike.errors]
          exact (List.prefix_append_right_inj _).2 herrors
  · have hevents' := events_prefix_bind rule' next' c'
    rw [bind_reply]
    cases (rule c).result with
    | none => exact .inr (hparts.mono (List.append_nil _).symm hevents' (by simp) (Nat.le_refl _))
    | some a =>
      obtain ⟨us, hus, hcursor⟩ := (hmade a).exists_upTo (rule c).cursor
      obtain ⟨-, -, -, -, -, hlen⟩ := id hparts
      refine .inr (hparts.mono rfl hevents' (fun d hd hmisfit => ?_) ?_)
      · exact Nat.le_trans ((hmade a).misfit_suffix _ hd hmisfit).length_le hlen
      · rw [hcursor]
        exact hus.length_le

/-! ## Rules that look ahead one token -/

namespace Rule

/-- Two rules of the grammar, the same but for places in front of the fork that they name.  Where
`m` levels may be opened, their runs are alike up to the fork. -/
structure Foresees (f : Fork) (m : Nat) (rule rule' : Rule α) : Prop where
  made : Widens rule rule
  agrees : ∀ ⦃c c'⦄, Cursor.Twin f c c' → c.room = m → (rule c).Agrees f (rule' c')

namespace Foresees

variable {m : Nat}

theorem pure (a : α) : Foresees f m (Pure.pure a : Rule α) (Pure.pure a) where
  made := .pure a
  agrees _ _ h _ := .inl ⟨rfl, h, rfl⟩

theorem fail {problem : Problem} (hproblem : problem.isStructural = true) :
    Foresees f m (Rule.fail problem : Rule α) (Rule.fail problem) where
  made := .step (.fail hproblem)
  agrees _ _ h _ := .inl ⟨rfl, h, congrArg (fun e => [e]) (h.place.error_eq problem)⟩

theorem failAt {p p' : Place} (hp : Place.Twin f p p') :
    Foresees f m (Rule.failAt .expectedLiteral p : Rule α) (Rule.failAt .expectedLiteral p') where
  made := .step (.failAt p)
  agrees _ _ h _ := .inl ⟨rfl, h, congrArg (fun e => [e]) (hp.error_eq _)⟩

theorem report {problem : Problem} (hproblem : problem.isStructural = false) {p p' : Place}
    (hp : Place.Twin f p p') : Foresees f m (Rule.report problem p) (Rule.report problem p') where
  made := .step (.report hproblem p)
  agrees _ _ h _ := .inl ⟨rfl, h, congrArg (fun e => [e]) (hp.error_eq problem)⟩

theorem declaring (p p' : Place) :
    Foresees f m (note (.declaring p)) (note (.declaring p')) where
  made := .step (.declaring p)
  agrees _ _ h _ := .inl ⟨rfl, h, rfl⟩

/-- Reading over the token at the fork parts the runs. -/
theorem skip : Foresees f m Rule.skip Rule.skip where
  made := .step .skip
  agrees c c' h _ := by
    obtain ⟨t, ts, ts', hts, hts', rfl | ⟨ahead, rfl, rfl⟩⟩ := h.place.exists_next
    · refine .inr ⟨[], [], rfl, List.nil_prefix, by simp, ?_⟩
      simp [Rule.skip, hts]
    · refine .inl ⟨rfl, ?_, rfl⟩
      simp only [Rule.skip, hts, hts', List.tail_cons]
      exact h.upTo ahead

theorem eat? (accepts : TokenKind → Bool) :
    Foresees f m (Rule.eat? accepts) (Rule.eat? accepts) where
  made := .step (.eat? accepts)
  agrees c c' h _ := by
    obtain ⟨t, ts, ts', hts, hts', hahead⟩ := h.place.exists_next
    by_cases ht : accepts t.kind
    · rw [eat?_of_accepts hts ht, eat?_of_accepts hts' ht]
      rcases hahead with rfl | ⟨ahead, rfl, rfl⟩
      · exact .inr ⟨[], [], rfl, List.nil_prefix, by simp, Nat.le_refl _⟩
      · exact .inl ⟨rfl, h.upTo ahead, rfl⟩
    · have hnot : ∀ {us}, ∀ s ss, t :: us = s :: ss → accepts s.kind = false := by
        rintro us s ss ⟨⟩
        simpa using ht
      rw [eat?_of_not_accepts (hts ▸ hnot), eat?_of_not_accepts (hts' ▸ hnot)]
      exact .inl ⟨rfl, h, rfl⟩

/-- Behind a rule as many levels may be opened as before it. -/
theorem bind {rule rule' : Rule α} {next next' : α → Rule β} (h : Foresees f m rule rule')
    (hnext : ∀ a, Foresees f m (next a) (next' a)) :
    Foresees f m (rule >>= next) (rule' >>= next') where
  made := .bind h.made fun a => (hnext a).made
  agrees c c' htwin hroom := by
    refine (h.agrees htwin hroom).bind (fun a => (hnext a).made) fun a htwin' => ?_
    obtain ⟨us, -, hcursor⟩ := h.made.exists_upTo c
    exact (hnext a).agrees htwin' (by rw [hcursor]; exact hroom)

/-- The places that both runs have come to are twins. -/
theorem place_bind {next : Place → Rule β} (hmade : Widens (place >>= next) (place >>= next))
    (h : ∀ ⦃p p'⦄, Place.Twin f p p' → Foresees f m (next p) (next p')) :
    Foresees f m (place >>= next) (place >>= next) where
  made := hmade
  agrees c c' htwin hroom := by
    rw [Rule.place_bind, Rule.place_bind]
    exact (h htwin.place).agrees htwin hroom

/-- The next token is the same for both runs. -/
theorem next?_bind {next : Option Token → Rule β} (h : ∀ t, Foresees f m (next t) (next t)) :
    Foresees f m (next? >>= next) (next? >>= next) where
  made := .bind (.step .next?) fun t => (h t).made
  agrees c c' htwin hroom := by
    rw [Rule.next?_bind, Rule.next?_bind, htwin.place.head?_eq]
    exact (h _).agrees htwin hroom

theorem map {rule rule' : Rule α} (g : α → β) (h : Foresees f m rule rule') :
    Foresees f m (g <$> rule) (g <$> rule') := by
  rw [map_eq_pure_bind, map_eq_pure_bind]
  exact h.bind fun a => .pure (g a)

theorem eat (kind : TokenKind) : Foresees f m (Rule.eat kind) (Rule.eat kind) :=
  (eat? _).bind fun _ => .pure _

theorem expect (landmark : Landmark) :
    Foresees f m (Rule.expect landmark) (Rule.expect landmark) :=
  (eat? _).bind fun
    | some t => .pure t
    | none => .fail rfl

/-- A choice by a token. -/
theorem ite_eat (kind : TokenKind) {yes yes' no no' : Rule α} (hyes : Foresees f m yes yes')
    (hno : Foresees f m no no') :
    Foresees f m (do if ← Rule.eat kind then yes else no)
      (do if ← Rule.eat kind then yes' else no') :=
  (eat kind).bind fun
    | true => hyes
    | false => hno

theorem nested {rule rule' : Rule α} (h : Foresees f m rule rule') :
    Foresees f (m + 1) (Rule.nested rule) (Rule.nested rule') where
  made := .nested h.made
  agrees c c' htwin hroom := by
    rw [nested_of_lt rule (c.depth_lt_ceiling hroom),
      nested_of_lt rule' (c'.depth_lt_ceiling (htwin.room_eq.trans hroom))]
    rcases h.agrees htwin.deeper (c.deeper_room hroom) with ⟨hresult, hcursor, herrors⟩ | hparts
    · have hdepth := congrArg (· - 1) hcursor.depth
      exact .inl ⟨hresult, ⟨hcursor.place, hdepth, hcursor.ceiling⟩, herrors⟩
    · exact .inr hparts

theorem recovered {rule rule' : Rule α} (h : Foresees f m rule rule') :
    Foresees f m (Rule.recovered rule) (Rule.recovered rule') where
  made := .recovered h.made
  agrees c c' htwin hroom := by
    rcases h.agrees htwin hroom with ⟨hresult, hcursor, herrors⟩ | hparts
    · rw [recovered_reply, recovered_reply, hresult]
      cases (rule c).result with
      | some a => exact .inl ⟨rfl, hcursor, herrors⟩
      | none =>
        have herrors' : errorsOf ((rule' c').events ++ [.recovering (rule' c').cursor.toPlace]) =
            errorsOf ((rule c).events ++ [.recovering (rule c).cursor.toPlace]) := by
          rw [errorsOf_append, errorsOf_append, herrors]
          rfl
        rcases hcursor.place.resume with hresume | hlen
        · exact .inl ⟨rfl, ⟨hresume, hcursor.depth, hcursor.ceiling⟩, herrors'⟩
        · exact .inr ⟨_, [], (List.append_nil _).symm, herrors' ▸ List.prefix_rfl, by simp, hlen⟩
    · have hevents' := events_prefix_recovered rule' c'
      rw [recovered_reply]
      cases (rule c).result with
      | some a =>
        exact .inr (hparts.mono (List.append_nil _).symm hevents' (by simp) (Nat.le_refl _))
      | none =>
        refine .inr (hparts.mono rfl hevents' (by simp) ?_)
        have hsuffix := Place.resume_unread_suffix (rule c).cursor.toPlace
        exact (hsuffix.trans (List.tail_suffix _)).length_le

end Foresees

end Rule

end LoxSyntax
