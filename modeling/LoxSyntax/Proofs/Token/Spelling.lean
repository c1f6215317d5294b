import LoxSyntax.Proofs.Number.ReadBack
import LoxSyntax.Proofs.Text.Lexeme
import LoxSyntax.Proofs.Tree.Items
import LoxSyntax.Token.Scan

/-!
# How scanned tokens are spelled

The lexeme of a token that was scanned is the spelling of its kind, or for a name a word that is not
reserved; the value of a number is not negative, and the value of a string holds no quote.  This is
what has to be known of a token to write it so that it is scanned again.

* `Literal.isSpelled`, `Token.isSpelled`, `Item.isSpelled` — what a text can spell.
* `Token.lexeme_of_isSpelled`, `Token.exists_word_of_isSpelled` — the lexemes of spelled tokens.
* **`isSpelled_of_mem_scan`** — every scanned token but the end of the text is spelled.
-/

namespace LoxSyntax

/-! ## What a text can spell -/

/-- Whether a value can be read from a text: there are no signs in front of digits and no quotes
between quotes. -/
def Literal.isSpelled : Literal → Bool
  | .number value => !value.isNegative
  | .string text => text.toList.all (!isQuote ·)

/-- Whether a token has the lexeme and the value that a token of its kind can have. -/
def Token.isSpelled (t : Token) : Bool :=
  if t.kind.spelling ≠ [] then t.lexeme.toList == t.kind.spelling && t.literal.isNone
  else if t.kind = .identifier then
    isWord t.lexeme.toList && wordKind t.lexeme.toList == .identifier && t.literal.isNone
  else (t.kind == .number || t.kind == .string) && t.literal.any Literal.isSpelled

/-- The same of what is kept of a token. -/
def Item.isSpelled : Item → Bool
  | .token t => t.isSpelled
  | .literal value => value.isSpelled
  | .mark _ => true

namespace Token

variable {t : Token}

theorem kind_ne_eof_of_isSpelled (h : t.isSpelled) : t.kind ≠ .eof := by
  intro heof
  simp [isSpelled, heof, TokenKind.spelling] at h

/-- A kind with a spelling tells the lexeme. -/
theorem lexeme_of_isSpelled (h : t.isSpelled) (hkind : t.kind.spelling ≠ []) :
    t.lexeme.toList = t.kind.spelling ∧ t.literal = none := by
  rw [isSpelled, if_pos hkind, Bool.and_eq_true] at h
  exact ⟨eq_of_beq h.1, Option.isNone_iff_eq_none.1 h.2⟩

/-- The lexeme of a name is a word that is not reserved. -/
theorem exists_word_of_isSpelled (h : t.isSpelled) (hkind : t.kind = .identifier) :
    ∃ c cs, t.lexeme.toList = c :: cs ∧ isWordStart c ∧ (∀ d ∈ cs, isWordPart d) ∧
      wordKind (c :: cs) = .identifier ∧ t.literal = none := by
  rw [isSpelled, if_neg (by simp [hkind, TokenKind.spelling]), if_pos hkind, Bool.and_eq_true,
    Bool.and_eq_true] at h
  obtain ⟨⟨hword, hidentifier⟩, hliteral⟩ := h
  cases hlexeme : t.lexeme.toList with
  | nil => simp [hlexeme, isWord] at hword
  | cons c cs =>
    rw [hlexeme, isWord, Bool.and_eq_true, List.all_eq_true] at hword
    rw [hlexeme] at hidentifier
    exact ⟨c, cs, rfl, hword.1, hword.2, eq_of_beq hidentifier,
      Option.isNone_iff_eq_none.1 hliteral⟩

/-- What is kept of a spelled token is spelled. -/
theorem isSpelled_item (h : t.isSpelled) : t.item.isSpelled := by
  have hany : ∀ {value : Literal}, t.kind.spelling = [] → t.kind ≠ .identifier →
      t.literal = some value → value.isSpelled := by
    intro value hkind hname hvalue
    rw [isSpelled, if_neg (fun hne => hne hkind), if_neg hname, Bool.and_eq_true, hvalue] at h
    exact h.2
  unfold item
  split
  · next hkind hvalue => exact hany (by rw [hkind]; rfl) (by rw [hkind]; decide) hvalue
  · next hkind hvalue => exact hany (by rw [hkind]; rfl) (by rw [hkind]; decide) hvalue
  · split
    · exact h
    · rfl

end Token

/-! ## What is scanned -/

theorem spelling_ne_nil : ∀ k ∈ TokenKind.symbols ++ TokenKind.reservedWords, k.spelling ≠ [] := by
  decide

/-- A word that is reserved is spelled as its kind is. -/
theorem spelling_wordKind {word : List Char} (h : wordKind word ≠ .identifier) :
    (wordKind word).spelling ≠ [] ∧ (wordKind word).spelling = word := by
  unfold wordKind at h ⊢
  rcases hfound : TokenKind.reservedWords.find? (fun k => k.spelling == word) with _ | k
  · rw [hfound] at h
    exact absurd rfl h
  · rw [hfound, Option.getD_some]
    have hmem := List.mem_of_find?_eq_some hfound
    have hspelling := List.find?_some hfound
    exact ⟨spelling_ne_nil k (List.mem_append_right _ hmem), eq_of_beq hspelling⟩

theorem spelling_of_symbol? {text : List Char} {k : TokenKind} (h : symbol? text = some k) :
    k.spelling ≠ [] ∧ k.spelling = text := by
  have hmem := List.mem_of_find?_eq_some h
  have hspelling := List.find?_some h
  exact ⟨spelling_ne_nil k (List.mem_append_left _ hmem), eq_of_beq hspelling⟩

/-- A kind with a spelling has no value. -/
theorem Literal.ofText?_eq_none {k : TokenKind} (h : k.spelling ≠ []) (text : List Char) :
    ofText? k text = none := by
  cases k <;> first | rfl | exact absurd rfl h

/-- A piece of a kind that is always written the same way. -/
theorem Token.isSpelled_of_spelling {k : TokenKind} {text : List Char}
    (h : k.spelling ≠ [] ∧ k.spelling = text) (line : UInt32) :
    (⟨k, String.ofList text, line, Literal.ofText? k text⟩ : Token).isSpelled := by
  obtain ⟨hk, rfl⟩ := h
  simp [isSpelled, hk, Literal.ofText?_eq_none hk]

theorem Token.isSpelled_of_literal {t : Token} (hkind : t.kind = .number ∨ t.kind = .string)
    {value : Literal} (hvalue : t.literal = some value) (h : value.isSpelled) : t.isSpelled := by
  rcases hkind with hkind | hkind <;>
    simp [isSpelled, hkind, hvalue, h, TokenKind.spelling]

/-- A token that a text begins with is spelled. -/
theorem Piece.isSpelled_of_token? {c : Char} {rest : List Char} {line : UInt32} {t : Token}
    (h : (Piece.first c rest).token? line = some t) : t.isSpelled := by
  unfold Piece.first at h
  split at h
  · cases h
  split at h
  · cases h
  split at h
  · -- a word
    next hc =>
    cases h
    by_cases hkind : wordKind (c :: rest.takeWhile isWordPart) = .identifier
    · simp [Token.isSpelled, hkind, TokenKind.spelling, isWord, hc, Literal.ofText?,
        List.all_takeWhile]
    · exact Token.isSpelled_of_spelling (spelling_wordKind hkind) line
  split at h
  · -- a number
    cases h
    refine Token.isSpelled_of_literal (.inl rfl) rfl ?_
    rw [Literal.isSpelled, Binary64.isNegative_ofDecimal, Bool.not_false]
  split at h
  · -- a string
    unfold Piece.string at h
    dsimp only at h
    split at h
    · cases h
    · cases h
      refine Token.isSpelled_of_literal (.inr rfl) rfl ?_
      simp [Literal.isSpelled]
  · -- a symbol
    unfold Piece.symbol at h
    split at h
    · next hfound =>
      cases h
      exact Token.isSpelled_of_spelling (spelling_of_symbol? hfound) line
    · split at h
      · next hfound =>
        cases h
        exact Token.isSpelled_of_spelling (spelling_of_symbol? hfound) line
      · cases h

/-- Every piece of a text begins some text. -/
theorem exists_first_of_mem {rounds text : List Char} {p : Piece}
    (h : p ∈ piecesWithin rounds text) : ∃ c rest, p = Piece.first c rest := by
  induction rounds generalizing text with
  | nil => exact absurd h List.not_mem_nil
  | cons a rounds ih =>
    cases text with
    | nil => exact absurd h List.not_mem_nil
    | cons c rest =>
      rcases List.mem_cons.1 h with rfl | h
      · exact ⟨c, rest, rfl⟩
      · exact ih h

/-- Locating pieces changes nothing but the lines. -/
theorem located_fst (line : UInt32) (ps : List Piece) : (located line ps).map Prod.fst = ps := by
  induction ps generalizing line with
  | nil => rfl
  | cons p ps ih => rw [located, List.map_cons, ih]

/-- The tokens that pieces are are spelled. -/
theorem isSpelled_of_mem_located {line : UInt32} {text : List Char} {t : Token}
    (h : t ∈ (located line (pieces text)).filterMap (fun p => p.1.token? p.2)) : t.isSpelled := by
  obtain ⟨⟨p, line'⟩, hp, ht⟩ := List.mem_filterMap.1 h
  have hpiece : p ∈ pieces text := by
    rw [← located_fst line (pieces text)]
    exact List.mem_map_of_mem hp
  obtain ⟨c, rest, rfl⟩ := exists_first_of_mem hpiece
  exact Piece.isSpelled_of_token? ht

/-- The tokens of a text up to its end are those that its pieces are. -/
theorem takeWhile_scan (text : String) :
    (scan text).tokens.takeWhile (·.kind != .eof) =
      (located 1 (pieces text.toList)).filterMap (fun p => p.1.token? p.2) := by
  refine takeWhile_append_eq (fun t ht => ?_) ?_
  · exact bne_iff_ne.2 (Token.kind_ne_eof_of_isSpelled (isSpelled_of_mem_located ht))
  · rintro t ⟨⟩
    rfl

/-- Every token that is scanned, but the end of the text, is spelled. -/
theorem isSpelled_of_mem_scan {text : String} {t : Token}
    (h : t ∈ (scan text).tokens.takeWhile (·.kind != .eof)) : t.isSpelled := by
  rw [takeWhile_scan] at h
  exact isSpelled_of_mem_located h

end LoxSyntax
