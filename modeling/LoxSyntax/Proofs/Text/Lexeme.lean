import LoxSyntax.Text.Piece

/-!
# Where a piece ends

A word, a number, a string or a symbol in front of more text is the first piece of the whole, unless
the text behind it goes on with it.  What does not go on with any piece begins with a character that
no piece takes in: it is no letter, no digit and no point, and neither an equals sign nor a slash,
which would make a longer symbol or a comment.

* `startsApart`, `startsSeparate` — texts that do not go on with a symbol, or with any piece.
* `pieces_word`, `pieces_digits`, `pieces_fraction`, `pieces_string` — a piece of each class and the
  pieces behind it.
* **`pieces_spelling`** — the same for the kinds of token that are always written the same way.
-/

namespace LoxSyntax

/-! ## Texts that begin something new -/

/-- Whether a text does not go on with a symbol in front of it. -/
def startsApart : List Char → Bool
  | [] => true
  | c :: _ => c != '=' && c != '/'

/-- Whether a text does not go on with any piece in front of it. -/
def startsSeparate : List Char → Bool
  | [] => true
  | c :: _ => c != '=' && c != '/' && c != '.' && !isWordPart c

theorem startsApart_of_startsSeparate {text : List Char} (h : startsSeparate text) :
    startsApart text := by
  cases text with
  | nil => rfl
  | cons c rest =>
    simp only [startsSeparate, Bool.and_eq_true] at h
    simpa only [startsApart, Bool.and_eq_true] using h.1.1

/-- What such a text begins with is in no class that holds only parts of words. -/
theorem eq_false_of_startsSeparate {text : List Char} (h : startsSeparate text) {p : Char → Bool}
    (hp : ∀ c, p c → isWordPart c) : ∀ c ∈ text.head?, p c = false := by
  cases text with
  | nil => exact fun c hc => nomatch hc
  | cons d rest =>
    rintro c ⟨⟩
    simp only [startsSeparate, Bool.and_eq_true, Bool.not_eq_true'] at h
    exact Bool.eq_false_iff.2 fun hc => absurd (hp d hc) (by simp [h.2])

/-! ## Classes of characters -/

theorem isWordPart_of_isWordStart {c : Char} (h : isWordStart c) : isWordPart c := by
  simp only [isWordStart, isWordPart, Char.isAlphanum, Bool.or_eq_true] at h ⊢
  exact h.imp_left .inl

theorem isWordPart_of_isDigit {c : Char} (h : c.isDigit) : isWordPart c := by
  simp [isWordPart, Char.isAlphanum, h]

/-- A class that holds none of the five blanks. -/
theorem isBlank_eq_false {c : Char} {p : Char → Bool} (h : p c)
    (hp : [' ', '\t', '\r', '\n', '\x0c'].all (!p ·)) : isBlank c = false := by
  refine Bool.eq_false_iff.2 fun hblank => ?_
  simp only [List.all_cons, List.all_nil, Bool.and_eq_true, Bool.not_eq_true'] at hp
  simp only [isBlank, Bool.or_eq_true, beq_iff_eq] at hblank
  rcases hblank with (((rfl | rfl) | rfl) | rfl) | rfl <;> simp_all

theorem isWordStart_eq_false_of_isDigit {c : Char} (h : c.isDigit) : isWordStart c = false := by
  have hdigits : ∀ n < 58, 48 ≤ n → isWordStart (Char.ofNat n) = false := by decide
  obtain ⟨hzero, hnine⟩ := Char.isDigit_iff_toNat.1 h
  rw [← Char.ofNat_toNat c]
  exact hdigits c.toNat (Nat.lt_succ_of_le hnine) hzero

/-! ## The first piece -/

theorem takeWhile_append_eq {α : Type} {p : α → Bool} {w rest : List α} (hw : ∀ x ∈ w, p x)
    (hrest : ∀ x ∈ rest.head?, p x = false) : (w ++ rest).takeWhile p = w := by
  rw [List.takeWhile_append_of_pos hw]
  cases rest with
  | nil => simp
  | cons x rest => simp [hrest x rfl]

theorem dropWhile_append_eq {α : Type} {p : α → Bool} {w rest : List α} (hw : ∀ x ∈ w, p x)
    (hrest : ∀ x ∈ rest.head?, p x = false) : (w ++ rest).dropWhile p = rest := by
  rw [List.dropWhile_append_of_pos hw]
  cases rest with
  | nil => rfl
  | cons x rest => simp [hrest x rfl]

/-- Behind the first piece come the pieces of what is left. -/
theorem pieces_of_first {kind : PieceKind} {c : Char} {cs rest : List Char}
    (h : Piece.first c (cs ++ rest) = ⟨kind, c :: cs⟩) :
    pieces (c :: cs ++ rest) = ⟨kind, c :: cs⟩ :: pieces rest := by
  rw [List.cons_append, pieces_cons, h]
  simp

/-- A blank and the blanks behind it are one piece. -/
theorem pieces_blank {c : Char} (h : isBlank c) (rest : List Char) :
    pieces (c :: rest) =
      ⟨.blanks, c :: rest.takeWhile isBlank⟩ :: pieces (rest.dropWhile isBlank) := by
  conv => lhs; rw [← @List.takeWhile_append_dropWhile _ isBlank rest]
  refine pieces_of_first ?_
  rw [List.takeWhile_append_dropWhile, Piece.first, if_pos h]

theorem pieces_word {c : Char} {cs rest : List Char} (hc : isWordStart c)
    (hcs : ∀ d ∈ cs, isWordPart d) (hrest : startsSeparate rest) :
    pieces (c :: cs ++ rest) = ⟨.token (wordKind (c :: cs)), c :: cs⟩ :: pieces rest := by
  refine pieces_of_first ?_
  have hblank : isBlank c = false := isBlank_eq_false hc (by decide)
  have hslash : c ≠ '/' := by
    rintro rfl
    exact absurd hc (by decide)
  have hword := takeWhile_append_eq hcs (eq_false_of_startsSeparate hrest fun _ hd => hd)
  simp [Piece.first, hblank, hslash, hc, hword]

/-- A number begins where a digit stands. -/
theorem first_of_isDigit {c : Char} (h : c.isDigit) (rest : List Char) :
    Piece.first c rest = Piece.number c rest := by
  have hblank : isBlank c = false := isBlank_eq_false h (by decide)
  have hslash : c ≠ '/' := by
    rintro rfl
    exact absurd h (by decide)
  simp [Piece.first, hblank, hslash, isWordStart_eq_false_of_isDigit h, h]

theorem pieces_digits {c : Char} {cs rest : List Char} (hc : c.isDigit)
    (hcs : ∀ d ∈ cs, d.isDigit) (hrest : startsSeparate rest) :
    pieces (c :: cs ++ rest) = ⟨.token .number, c :: cs⟩ :: pieces rest := by
  refine pieces_of_first ?_
  have hstop := eq_false_of_startsSeparate hrest fun _ => isWordPart_of_isDigit
  have hfraction : fraction rest = [] := by
    match rest with
    | [] | [_] => rfl
    | d :: _ :: _ =>
      have hd : d ≠ '.' := by
        rintro rfl
        exact absurd hrest (by simp [startsSeparate])
      simp [fraction, hd]
  rw [first_of_isDigit hc, Piece.number, takeWhile_append_eq hcs hstop,
    dropWhile_append_eq hcs hstop, hfraction, List.append_nil]

theorem pieces_fraction {c d : Char} {cs ds rest : List Char} (hc : c.isDigit)
    (hcs : ∀ x ∈ cs, x.isDigit) (hd : d.isDigit) (hds : ∀ x ∈ ds, x.isDigit)
    (hrest : startsSeparate rest) :
    pieces (c :: (cs ++ '.' :: d :: ds) ++ rest) =
      ⟨.token .number, c :: (cs ++ '.' :: d :: ds)⟩ :: pieces rest := by
  refine pieces_of_first ?_
  have hstop := eq_false_of_startsSeparate hrest fun _ => isWordPart_of_isDigit
  have hpoint : ∀ x ∈ ('.' :: d :: (ds ++ rest)).head?, x.isDigit = false := by
    rintro x ⟨⟩
    rfl
  have hfraction : fraction ('.' :: d :: (ds ++ rest)) = '.' :: d :: ds := by
    simp [fraction, hd, takeWhile_append_eq hds hstop]
  rw [first_of_isDigit hc, Piece.number,
    show cs ++ '.' :: d :: ds ++ rest = cs ++ '.' :: d :: (ds ++ rest) by simp,
    takeWhile_append_eq hcs hpoint, dropWhile_append_eq hcs hpoint, hfraction, List.cons_append]

theorem pieces_string {body : List Char} (hbody : ∀ c ∈ body, isQuote c = false)
    (rest : List Char) :
    pieces ('\x22' :: (body ++ ['\x22']) ++ rest) =
      ⟨.token .string, '\x22' :: (body ++ ['\x22'])⟩ :: pieces rest := by
  refine pieces_of_first ?_
  have hinside : ∀ c ∈ body, (!isQuote c) = true := fun c hc => by rw [hbody c hc]; rfl
  have hclose : ∀ c ∈ ('\x22' :: rest).head?, (!isQuote c) = false := by
    rintro c ⟨⟩
    rfl
  have hfirst : Piece.first '\x22' (body ++ '\x22' :: rest) =
      Piece.string '\x22' (body ++ '\x22' :: rest) := rfl
  rw [show body ++ ['\x22'] ++ rest = body ++ '\x22' :: rest by simp, hfirst, Piece.string]
  simp only [takeWhile_append_eq hinside hclose, dropWhile_append_eq hinside hclose]
  rfl

/-! ## Kinds with one spelling -/

/-- Whether a character begins a symbol or nothing. -/
def isSymbolStart (c : Char) : Bool :=
  !isBlank c && !isWordStart c && !c.isDigit && !isQuote c

/-- Whether characters have the form of a symbol. -/
def isSymbol : List Char → Bool
  | [c] => isSymbolStart c
  | [c, d] => isSymbolStart c && d == '='
  | _ => false

/-- Whether characters are a word. -/
def isWord : List Char → Bool
  | [] => false
  | c :: cs => isWordStart c && cs.all isWordPart

theorem isSymbol_spelling : ∀ k ∈ TokenKind.symbols, isSymbol k.spelling := by
  decide

theorem isWord_spelling : ∀ k ∈ TokenKind.reservedWords, isWord k.spelling := by
  decide

theorem wordKind_spelling : ∀ k ∈ TokenKind.reservedWords, wordKind k.spelling = k := by
  decide

theorem symbol?_spelling : ∀ k ∈ TokenKind.symbols, symbol? k.spelling = some k := by
  decide

/-- Symbols of two characters end in an equals sign. -/
theorem symbol?_pair {c d : Char} (h : d ≠ '=') : symbol? [c, d] = none := by
  have h' : '=' ≠ d := h.symm
  simp [symbol?, TokenKind.symbols, TokenKind.spelling, h']

theorem pieces_symbol {k : TokenKind} (hk : k ∈ TokenKind.symbols) {rest : List Char}
    (hrest : startsApart rest) :
    pieces (k.spelling ++ rest) = ⟨.token k, k.spelling⟩ :: pieces rest := by
  have hfound := symbol?_spelling k hk
  have hsymbol := isSymbol_spelling k hk
  match hspelling : k.spelling with
  | [] | _ :: _ :: _ :: _ => simp [hspelling, isSymbol] at hsymbol
  | [c] =>
    simp only [hspelling, isSymbol, isSymbolStart, Bool.and_eq_true, Bool.not_eq_true'] at hsymbol
    obtain ⟨⟨⟨hblank, hword⟩, hdigit⟩, hquote⟩ := hsymbol
    rw [hspelling] at hfound
    refine pieces_of_first ?_
    rw [List.nil_append]
    match rest with
    | [] => simp [Piece.first, hblank, hword, hdigit, hquote, Piece.symbol, hfound]
    | d :: rest =>
      simp only [startsApart, Bool.and_eq_true, bne_iff_ne, ne_eq] at hrest
      simp [Piece.first, hblank, hword, hdigit, hquote, Piece.symbol, hfound, hrest.2,
        symbol?_pair hrest.1]
  | [c, d] =>
    simp only [hspelling, isSymbol, isSymbolStart, Bool.and_eq_true, Bool.not_eq_true',
      beq_iff_eq] at hsymbol
    obtain ⟨⟨⟨⟨hblank, hword⟩, hdigit⟩, hquote⟩, rfl⟩ := hsymbol
    rw [hspelling] at hfound
    refine pieces_of_first ?_
    simp [Piece.first, hblank, hword, hdigit, hquote, Piece.symbol, hfound]

theorem pieces_reservedWord {k : TokenKind} (hk : k ∈ TokenKind.reservedWords) {rest : List Char}
    (hrest : startsSeparate rest) :
    pieces (k.spelling ++ rest) = ⟨.token k, k.spelling⟩ :: pieces rest := by
  have hkind := wordKind_spelling k hk
  have hword := isWord_spelling k hk
  match hspelling : k.spelling with
  | [] => simp [hspelling, isWord] at hword
  | c :: cs =>
    rw [hspelling, isWord, Bool.and_eq_true, List.all_eq_true] at hword
    rw [hspelling] at hkind
    rw [pieces_word hword.1 hword.2 hrest, hkind]

/-- A kind with a spelling, then the pieces of a text that does not go on with it. -/
theorem pieces_spelling {k : TokenKind} (hk : k.spelling ≠ []) {rest : List Char}
    (hrest : startsSeparate rest) :
    pieces (k.spelling ++ rest) = ⟨.token k, k.spelling⟩ :: pieces rest := by
  have hmem : k ∈ TokenKind.symbols ∨ k ∈ TokenKind.reservedWords := by
    revert hk
    cases k <;> decide
  rcases hmem with hmem | hmem
  · exact pieces_symbol hmem (startsApart_of_startsSeparate hrest)
  · exact pieces_reservedWord hmem hrest

end LoxSyntax
