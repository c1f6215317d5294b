import LoxSyntax.Proofs.Text.Lexeme

/-!
# Patterns and the longest match

Each kind of piece has a pattern, which says nothing about the text around it.  A text goes with a
piece if the piece is the longest beginning of the text that any pattern matches.  Where a spelling
and a word of the same length match, the spelling wins; where no pattern matches, the piece is one
character.

* `PieceKind.Matches` — the patterns.
* `Munch` — a text and the piece it begins with.
* `Lead` — the class of a first character, which tells the kinds that can begin with it.
* `Matches.word`, `Matches.number`, `Matches.quoted`, `Matches.mark` — the patterns of each class.
* **`Munch.unique`** — a text begins with one piece at most.
-/

namespace LoxSyntax

/-! ## The patterns -/

/-- One digit or more. -/
def IsDigits (text : List Char) : Prop :=
  text ≠ [] ∧ ∀ d ∈ text, d.isDigit

/-- The texts that a kind of piece can have. -/
inductive PieceKind.Matches : PieceKind → List Char → Prop
  | blanks {text : List Char} (hne : text ≠ []) (h : ∀ c ∈ text, isBlank c) : Matches .blanks text
  | comment {body : List Char} (h : '\n' ∉ body) : Matches .comment ('/' :: '/' :: body)
  | spelled {k : TokenKind} (h : k.spelling ≠ []) : Matches (.token k) k.spelling
  | identifier {c : Char} {cs : List Char} (hc : isWordStart c) (hcs : ∀ d ∈ cs, isWordPart d) :
      Matches (.token .identifier) (c :: cs)
  | string {body : List Char} (h : '\x22' ∉ body) :
      Matches (.token .string) ('\x22' :: (body ++ ['\x22']))
  | openString {body : List Char} (h : '\x22' ∉ body) : Matches .openString ('\x22' :: body)
  | integer {digits : List Char} (h : IsDigits digits) : Matches (.token .number) digits
  | decimal {whole part : List Char} (hwhole : IsDigits whole) (hpart : IsDigits part) :
      Matches (.token .number) (whole ++ '.' :: part)

/-- The piece that a text begins with. -/
inductive Munch (text : List Char) : Piece → Prop
  /-- The longest match.  Kinds with a spelling go before the others. -/
  | longest {p : Piece} (hbegins : p.text <+: text) (hmatch : p.kind.Matches p.text)
      (hlongest : ∀ kind w, w <+: text → PieceKind.Matches kind w → w.length ≤ p.text.length)
      (hspelled : ∀ k : TokenKind, k.spelling ≠ [] → k.spelling = p.text → p.kind = .token k) :
      Munch text p
  /-- One character, if nothing matches. -/
  | stray {c : Char} {rest : List Char} (htext : text = c :: rest)
      (hnone : ∀ kind w, w <+: text → ¬ PieceKind.Matches kind w) : Munch text ⟨.stray, [c]⟩

/-! ## First characters -/

/-- The classes of characters that tell pieces apart by their first one. -/
inductive Lead
  | blank
  | letter
  | digit
  | quote
  | mark
deriving DecidableEq, Repr

/-- The class of a character. -/
def Lead.of (c : Char) : Lead :=
  if isBlank c then .blank
  else if isWordStart c then .letter
  else if c.isDigit then .digit
  else if isQuote c then .quote
  else .mark

/-- The class of the characters that a kind of piece begins with. -/
def PieceKind.lead : PieceKind → Lead
  | .blanks => .blank
  | .openString | .token .string => .quote
  | .token .number => .digit
  | .token .identifier => .letter
  | .token k => if k ∈ TokenKind.reservedWords then .letter else .mark
  | .comment | .stray => .mark

theorem lead_of_isWordStart {c : Char} (h : isWordStart c) : Lead.of c = .letter := by
  have hblank : isBlank c = false := isBlank_eq_false h (by decide)
  simp [Lead.of, hblank, h]

theorem lead_of_isDigit {c : Char} (h : c.isDigit) : Lead.of c = .digit := by
  have hblank : isBlank c = false := isBlank_eq_false h (by decide)
  simp [Lead.of, hblank, isWordStart_eq_false_of_isDigit h, h]

/-- A kind with a spelling is a reserved word or a symbol. -/
theorem lead_of_spelling {k : TokenKind} (h : k.spelling ≠ []) :
    k ∈ TokenKind.reservedWords ∧ (PieceKind.token k).lead = .letter ∨
      k ∈ TokenKind.symbols ∧ (PieceKind.token k).lead = .mark := by
  revert h
  cases k <;> decide

theorem lead_head_spelling {k : TokenKind} (h : k.spelling ≠ []) :
    k.spelling.head?.map Lead.of = some (PieceKind.token k).lead := by
  revert h
  cases k <;> decide

theorem lead_head_digits {text rest : List Char} (h : IsDigits text) :
    (text ++ rest).head?.map Lead.of = some .digit := by
  obtain ⟨hne, hdigits⟩ := h
  cases text with
  | nil => exact absurd rfl hne
  | cons c cs => simp [lead_of_isDigit (hdigits c List.mem_cons_self)]

namespace PieceKind.Matches

variable {k l : PieceKind} {w : List Char}

/-- What matches begins with a character of the class of its kind. -/
theorem lead_eq (h : k.Matches w) : w.head?.map Lead.of = some k.lead := by
  cases h with
  | blanks hne h =>
    cases w with
    | nil => exact absurd rfl hne
    | cons c cs => simp [Lead.of, h c List.mem_cons_self, PieceKind.lead]
  | comment => rfl
  | spelled h => exact lead_head_spelling h
  | identifier hc => rw [List.head?_cons, Option.map_some, lead_of_isWordStart hc]; rfl
  | string | openString => rfl
  | integer h => rw [← List.append_nil w]; exact lead_head_digits h
  | decimal hwhole => exact lead_head_digits hwhole

theorem ne_nil (h : k.Matches w) : w ≠ [] := by
  rintro rfl
  have hlead := h.lead_eq
  contradiction

/-- All that a text can begin with is of one class. -/
theorem lead_of_prefix {c : Char} {rest : List Char} (h : k.Matches w) (hw : w <+: c :: rest) :
    k.lead = Lead.of c := by
  have hlead := h.lead_eq
  obtain ⟨d, cs, rfl⟩ := List.exists_cons_of_ne_nil h.ne_nil
  rw [(List.cons_prefix_cons.1 hw).1] at hlead
  exact (Option.some.inj hlead).symm

/-! ## The patterns of each class -/

theorem blank (h : k.Matches w) (hk : k.lead = .blank) : k = .blanks ∧ ∀ c ∈ w, isBlank c := by
  cases h with
  | blanks _ h => exact ⟨rfl, h⟩
  | spelled h =>
    rcases lead_of_spelling h with ⟨_, h⟩ | ⟨_, h⟩ <;> exact absurd (h.symm.trans hk) (by decide)
  | comment | identifier | string | openString | integer | decimal => exact absurd hk (by decide)

theorem word (h : k.Matches w) (hk : k.lead = .letter) :
    (∀ c ∈ w, isWordPart c) ∧
      (k = .token .identifier ∨ ∃ t ∈ TokenKind.reservedWords, t.spelling = w) := by
  cases h with
  | identifier hc hcs =>
    exact ⟨List.forall_mem_cons.2 ⟨isWordPart_of_isWordStart hc, hcs⟩, .inl rfl⟩
  | @spelled t h =>
    rcases lead_of_spelling h with ⟨ht, _⟩ | ⟨_, h⟩
    · have hword := isWord_spelling t ht
      refine ⟨?_, .inr ⟨t, ht, rfl⟩⟩
      obtain ⟨c, cs, hspelling⟩ := List.exists_cons_of_ne_nil h
      rw [hspelling, isWord, Bool.and_eq_true, List.all_eq_true] at hword
      rw [hspelling]
      exact List.forall_mem_cons.2 ⟨isWordPart_of_isWordStart hword.1, hword.2⟩
    · exact absurd (h.symm.trans hk) (by decide)
  | blanks | comment | string | openString | integer | decimal => exact absurd hk (by decide)

theorem number (h : k.Matches w) (hk : k.lead = .digit) :
    k = .token .number ∧
      (IsDigits w ∨ ∃ whole part, IsDigits whole ∧ IsDigits part ∧ w = whole ++ '.' :: part) := by
  cases h with
  | integer h => exact ⟨rfl, .inl h⟩
  | decimal hwhole hpart => exact ⟨rfl, .inr ⟨_, _, hwhole, hpart, rfl⟩⟩
  | spelled h =>
    rcases lead_of_spelling h with ⟨_, h⟩ | ⟨_, h⟩ <;> exact absurd (h.symm.trans hk) (by decide)
  | blanks | comment | identifier | string | openString => exact absurd hk (by decide)

theorem quoted (h : k.Matches w) (hk : k.lead = .quote) :
    ∃ body, '\x22' ∉ body ∧ (k = .token .string ∧ w = '\x22' :: (body ++ ['\x22']) ∨
      k = .openString ∧ w = '\x22' :: body) := by
  cases h with
  | string h => exact ⟨_, h, .inl ⟨rfl, rfl⟩⟩
  | openString h => exact ⟨_, h, .inr ⟨rfl, rfl⟩⟩
  | spelled h =>
    rcases lead_of_spelling h with ⟨_, h⟩ | ⟨_, h⟩ <;> exact absurd (h.symm.trans hk) (by decide)
  | blanks | comment | identifier | integer | decimal => exact absurd hk (by decide)

theorem mark (h : k.Matches w) (hk : k.lead = .mark) :
    (k = .comment ∧ ∃ body, '\n' ∉ body ∧ w = '/' :: '/' :: body) ∨
      ∃ t ∈ TokenKind.symbols, k = .token t ∧ t.spelling = w := by
  cases h with
  | comment h => exact .inl ⟨rfl, _, h, rfl⟩
  | @spelled t h =>
    rcases lead_of_spelling h with ⟨_, h⟩ | ⟨ht, _⟩
    · exact absurd (h.symm.trans hk) (by decide)
    · exact .inr ⟨t, ht, rfl, rfl⟩
  | blanks | identifier | string | openString | integer | decimal => exact absurd hk (by decide)

/-! ## One kind -/

/-- Two kinds that match one text are the same, but where the text is the spelling of a kind. -/
theorem kind_eq (h : k.Matches w) (h' : l.Matches w)
    (hw : ∀ t : TokenKind, t.spelling ≠ [] → t.spelling ≠ w) : k = l := by
  have hlead : l.lead = k.lead := Option.some.inj (h'.lead_eq.symm.trans h.lead_eq)
  have hne (t : TokenKind) : t.spelling ≠ w := fun ht => hw t (ht ▸ h.ne_nil) ht
  cases hk : k.lead with
  | blank => rw [(h.blank hk).1, (h'.blank (hlead.trans hk)).1]
  | letter =>
    obtain ⟨_, rfl | ⟨t, _, ht⟩⟩ := h.word hk
    · obtain ⟨_, rfl | ⟨t, _, ht⟩⟩ := h'.word (hlead.trans hk)
      · rfl
      · exact absurd ht (hne t)
    · exact absurd ht (hne t)
  | digit => rw [(h.number hk).1, (h'.number (hlead.trans hk)).1]
  | quote =>
    -- a string that is closed holds a second quote, an open one does not
    obtain ⟨body, hbody, ⟨rfl, rfl⟩ | ⟨rfl, rfl⟩⟩ := h.quoted hk <;>
      obtain ⟨body', hbody', ⟨rfl, h⟩ | ⟨rfl, h⟩⟩ := h'.quoted (hlead.trans hk)
    · rfl
    · exact absurd (by simp [← List.cons.inj h |>.2]) hbody'
    · exact absurd (by simp [List.cons.inj h |>.2]) hbody
    · rfl
  | mark =>
    obtain ⟨rfl, _⟩ | ⟨t, _, _, ht⟩ := h.mark hk
    · obtain ⟨rfl, _⟩ | ⟨t, _, _, ht⟩ := h'.mark (hlead.trans hk)
      · rfl
      · exact absurd ht (hne t)
    · exact absurd ht (hne t)

end PieceKind.Matches

/-- A text begins with one piece at most. -/
theorem Munch.unique {text : List Char} {p q : Piece} (hp : Munch text p) (hq : Munch text q) :
    p = q := by
  cases hp with
  | longest hbegins hmatch hlongest hspelled =>
    cases hq with
    | longest hbegins' hmatch' hlongest' hspelled' =>
      have hlength := Nat.le_antisymm (hlongest' _ _ hbegins hmatch) (hlongest _ _ hbegins' hmatch')
      have htext : p.text = q.text :=
        (List.prefix_of_prefix_length_le hbegins hbegins' (Nat.le_of_eq hlength)).eq_of_length
          hlength
      rw [← htext] at hmatch' hspelled'
      have hkind : p.kind = q.kind := by
        by_cases h : ∃ k : TokenKind, k.spelling ≠ [] ∧ k.spelling = p.text
        · obtain ⟨k, hk, htext⟩ := h
          rw [hspelled k hk htext, hspelled' k hk htext]
        · exact hmatch.kind_eq hmatch' fun k hk htext => h ⟨k, hk, htext⟩
      show Piece.mk p.kind p.text = Piece.mk q.kind q.text
      rw [hkind, htext]
    | stray _ hnone => exact absurd hmatch (hnone _ _ hbegins)
  | stray htext hnone =>
    cases hq with
    | longest hbegins' hmatch' => exact absurd hmatch' (hnone _ _ hbegins')
    | stray htext' =>
      rw [htext] at htext'
      rw [(List.cons.inj htext').1]

end LoxSyntax
