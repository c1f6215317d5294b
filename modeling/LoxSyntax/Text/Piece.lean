import LoxSyntax.Token.Kind

/-!
# The pieces of a text

A text is a sequence of pieces without gaps: blanks, comments, tokens, and the characters that fit
nothing.  Each piece is the longest that can begin where it begins; a reserved word goes before an
identifier of the same length, and a string needs its closing quote, else it runs to the end of the
text.

* `Piece.first` — the piece a non-empty text begins with.
* `pieces` — all pieces of a text.
* **`pieces_cons`** — the first piece, then the pieces of what is left.
* **`pieces_flatten`** — the pieces in order are the text again.
-/

namespace LoxSyntax

/-- What a piece of text is. -/
inductive PieceKind
  | blanks
  | comment
  | token (kind : TokenKind)
  /-- A string without its closing quote. -/
  | openString
  /-- A character that begins nothing. -/
  | stray
deriving DecidableEq, Repr

/-- A piece of text. -/
structure Piece where
  kind : PieceKind
  text : List Char
deriving DecidableEq, Repr

/-! ## Classes of characters -/

def isBlank (c : Char) : Bool :=
  c == ' ' || c == '\t' || c == '\r' || c == '\n' || c == '\x0c'

/-- Letters are ASCII letters. -/
def isWordStart (c : Char) : Bool :=
  c.isAlpha || c == '_'

def isWordPart (c : Char) : Bool :=
  c.isAlphanum || c == '_'

def isQuote (c : Char) : Bool :=
  c == '\x22'

/-! ## One piece -/

/-- The kind of a word: a reserved word or an identifier. -/
def wordKind (word : List Char) : TokenKind :=
  (TokenKind.reservedWords.find? fun k => k.spelling == word).getD .identifier

/-- The symbol that is spelled this way. -/
def symbol? (text : List Char) : Option TokenKind :=
  TokenKind.symbols.find? fun k => k.spelling == text

/-- A point and the digits behind it; nothing if no digit follows the point. -/
def fraction : List Char → List Char
  | point :: digit :: rest =>
    if point == '.' && digit.isDigit then point :: digit :: rest.takeWhile Char.isDigit else []
  | _ => []

namespace Piece

/-- The number that begins with the digit `c`. -/
def number (c : Char) (rest : List Char) : Piece :=
  ⟨.token .number, c :: rest.takeWhile Char.isDigit ++ fraction (rest.dropWhile Char.isDigit)⟩

/-- The string that begins with the quote `c`. -/
def string (c : Char) (rest : List Char) : Piece :=
  let body := rest.takeWhile (!isQuote ·)
  match rest.dropWhile (!isQuote ·) with
  | [] => ⟨.openString, c :: body⟩
  | close :: _ => ⟨.token .string, c :: body ++ [close]⟩

/-- The symbol that begins with `c`, of two characters if there is one. -/
def symbol (c : Char) (rest : List Char) : Piece :=
  match symbol? (c :: rest.take 1) with
  | some kind => ⟨.token kind, c :: rest.take 1⟩
  | none =>
    match symbol? [c] with
    | some kind => ⟨.token kind, [c]⟩
    | none => ⟨.stray, [c]⟩

/-- The longest piece at the start of `c :: rest`. -/
def first (c : Char) (rest : List Char) : Piece :=
  if isBlank c then ⟨.blanks, c :: rest.takeWhile isBlank⟩
  else if c == '/' && rest.head? == some '/' then ⟨.comment, c :: rest.takeWhile (· != '\n')⟩
  else if isWordStart c then
    let word := c :: rest.takeWhile isWordPart
    ⟨.token (wordKind word), word⟩
  else if c.isDigit then number c rest
  else if isQuote c then string c rest
  else symbol c rest

end Piece

/-! ## All pieces -/

/-- At most as many pieces as `rounds` has characters. -/
def piecesWithin : (rounds text : List Char) → List Piece
  | _ :: rounds, c :: rest =>
    let piece := Piece.first c rest
    piece :: piecesWithin rounds ((c :: rest).drop piece.text.length)
  | _, _ => []

/-- The pieces of a text.  There are no more of them than characters, for no piece is empty. -/
def pieces (text : List Char) : List Piece :=
  piecesWithin text text

/-! ## Pieces cover the text -/

private theorem takeWhile_isPrefix (p : Char → Bool) (c : Char) (rest : List Char) :
    c :: rest.takeWhile p <+: c :: rest :=
  (List.prefix_cons_inj c).2 ( List.takeWhile_prefix p)

private theorem fraction_isPrefix (text : List Char) : fraction text <+: text := by
  match text with
  | [] | [_] => exact List.nil_prefix
  | point :: digit :: rest =>
    rw [fraction]
    split
    · exact (List.prefix_cons_inj point).2 (takeWhile_isPrefix _ digit rest)
    · exact List.nil_prefix

/-- A piece is the beginning of the text it was read from. -/
theorem Piece.first_isPrefix (c : Char) (rest : List Char) :
    (Piece.first c rest).text <+: c :: rest := by
  simp only [Piece.first]
  split
  · exact takeWhile_isPrefix ..
  split
  · exact takeWhile_isPrefix ..
  split
  · exact takeWhile_isPrefix ..
  split
  · have h := (List.prefix_append_right_inj (rest.takeWhile Char.isDigit)).2
      (fraction_isPrefix (rest.dropWhile Char.isDigit))
    rw [List.takeWhile_append_dropWhile] at h
    exact (List.prefix_cons_inj c).2 h
  split
  · simp only [Piece.string]
    split
    · exact takeWhile_isPrefix ..
    · next close tail hdrop =>
      refine (List.prefix_cons_inj c).2 ⟨tail, ?_⟩
      conv => rhs; rw [← @List.takeWhile_append_dropWhile _ (!isQuote ·) rest, hdrop]
      simp
  · simp only [Piece.symbol]
    split
    · exact (List.prefix_cons_inj c).2 ( List.take_prefix 1 rest)
    · split
      · exact ⟨rest, rfl⟩
      · exact ⟨rest, rfl⟩

/-- No piece is empty. -/
theorem Piece.first_text_ne_nil (c : Char) (rest : List Char) :
    (Piece.first c rest).text ≠ [] := by
  simp only [Piece.first, Piece.number, Piece.string, Piece.symbol]
  repeat' split
  all_goals simp

private theorem length_rest_lt (c : Char) (rest : List Char) :
    ((c :: rest).drop (Piece.first c rest).text.length).length < (c :: rest).length := by
  have h := List.length_pos_iff.2 (Piece.first_text_ne_nil c rest)
  simp only [List.length_drop, List.length_cons]
  omega

/-- Rounds beyond the length of the text change nothing. -/
theorem piecesWithin_eq {rounds text : List Char} (h : text.length ≤ rounds.length) :
    piecesWithin rounds text = pieces text := by
  suffices ∀ n, ∀ r₁ r₂ t : List Char, t.length ≤ n → t.length ≤ r₁.length →
      t.length ≤ r₂.length → piecesWithin r₁ t = piecesWithin r₂ t from
    this text.length rounds text text (Nat.le_refl _) h (Nat.le_refl _)
  intro n
  induction n with
  | zero =>
    intro r₁ r₂ t ht _ _
    obtain rfl := List.length_eq_zero_iff.1 (Nat.le_zero.1 ht)
    simp [piecesWithin]
  | succ n ih =>
    intro r₁ r₂ t ht h₁ h₂
    match t, r₁, r₂ with
    | [], _, _ => simp [piecesWithin]
    | c :: rest, a :: r₁, b :: r₂ =>
      have hlt := length_rest_lt c rest
      simp only [List.length_cons] at ht h₁ h₂ hlt
      simp only [piecesWithin]
      rw [ih r₁ r₂ _ (by omega) (by omega) (by omega)]

/-- The first piece, then the pieces of what is left. -/
theorem pieces_cons (c : Char) (rest : List Char) :
    pieces (c :: rest) =
      Piece.first c rest :: pieces ((c :: rest).drop (Piece.first c rest).text.length) := by
  have hlt := length_rest_lt c rest
  rw [List.length_cons] at hlt
  rw [← piecesWithin_eq (Nat.le_of_lt_succ hlt)]
  rfl

/-- The pieces in order are the text again. -/
theorem pieces_flatten (text : List Char) : ((pieces text).map Piece.text).flatten = text := by
  match text with
  | [] => rfl
  | c :: rest =>
    rw [pieces_cons, List.map_cons, List.flatten_cons, pieces_flatten]
    obtain ⟨tail, htail⟩ := Piece.first_isPrefix c rest
    rw [← htail, List.drop_left]
termination_by text.length
decreasing_by exact length_rest_lt c rest

end LoxSyntax
