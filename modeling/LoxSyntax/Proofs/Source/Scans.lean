import LoxSyntax.Proofs.Token.Spelling
import LoxSyntax.Proofs.Tree.Lines

/-!
# Texts put together from lexemes

A text that is put together from lexemes and blanks scans as the items of these, as long as no
lexeme is put in front of something that it would go on with.  Texts are built from their end: each
step puts a lexeme or a blank in front of a text whose items are known.

* `Scans` — a text has no errors, and trees keep the given items of it, lines aside.
* `Scans.blank`, `Scans.spaces` — blanks in front of a text.
* `Scans.mark`, `Scans.symbol`, `Scans.kept`, `Scans.unary`, `Scans.number`, `Scans.string` — a
  lexeme in front of a text.
* **`Scans.scan`** — the tokens and the errors of such a text.
-/

namespace LoxSyntax

/-- What a tree keeps of a piece, on no line. -/
def Piece.item? (p : Piece) : Option Item :=
  (p.token? 0).map Token.item

/-- The text has no errors, and lines aside the given items are kept of it. -/
structure Scans (text : List Char) (items : List Item) : Prop where
  clean : ∀ p ∈ pieces text, p.problem? = none
  items_eq : (pieces text).filterMap Piece.item? = items.map Item.unlined

namespace Scans

variable {rest : List Char} {items : List Item}

theorem nil : Scans [] [] where
  clean _ hp := absurd hp List.not_mem_nil
  items_eq := rfl

/-! ## Blanks -/

/-- Blanks at the beginning of a text make no difference. -/
theorem dropWhile_isBlank (h : Scans rest items) : Scans (rest.dropWhile isBlank) items := by
  cases rest with
  | nil => exact h
  | cons c rest =>
    by_cases hc : isBlank c
    · rw [List.dropWhile_cons_of_pos hc]
      obtain ⟨hclean, hkept⟩ := h
      rw [pieces_blank hc] at hclean hkept
      exact ⟨fun p hp => hclean p (List.mem_cons_of_mem _ hp), hkept⟩
    · rwa [List.dropWhile_cons_of_neg hc]

theorem blank {c : Char} (hc : isBlank c) (h : Scans rest items) : Scans (c :: rest) items := by
  obtain ⟨hclean, hkept⟩ := h.dropWhile_isBlank
  refine ⟨?_, ?_⟩
  · rw [pieces_blank hc]
    exact List.forall_mem_cons.2 ⟨rfl, hclean⟩
  · rw [pieces_blank hc]
    exact hkept

theorem space (h : Scans rest items) : Scans (' ' :: rest) items :=
  h.blank rfl

theorem spaces (n : Nat) (h : Scans rest items) : Scans (List.replicate n ' ' ++ rest) items := by
  induction n with
  | zero => exact h
  | succ n ih => exact ih.space

/-! ## Lexemes -/

/-- A lexeme that is the first piece adds what is kept of it. -/
theorem lexeme {k : TokenKind} {w : List Char} {i : Item}
    (hpieces : pieces (w ++ rest) = ⟨.token k, w⟩ :: pieces rest)
    (hitem : (⟨k, String.ofList w, 0, Literal.ofText? k w⟩ : Token).item = i.unlined)
    (h : Scans rest items) : Scans (w ++ rest) (i :: items) where
  clean := by
    rw [hpieces]
    exact List.forall_mem_cons.2 ⟨rfl, h.clean⟩
  items_eq := by
    have hpiece : Piece.item? ⟨.token k, w⟩ = some i.unlined := congrArg some hitem
    rw [hpieces, List.filterMap_cons_some hpiece, h.items_eq, List.map_cons]

/-- A kind of which only a mark is kept. -/
theorem mark {k : TokenKind} (hk : k.spelling ≠ []) (hmark : k.isMark)
    (hrest : startsSeparate rest) (h : Scans rest items) :
    Scans (k.spelling ++ rest) (.mark k :: items) :=
  h.lexeme (pieces_spelling hk hrest) (Token.item_of_mark rfl hmark)

/-- A symbol of which only a mark is kept, which more may follow directly. -/
theorem symbol {k : TokenKind} (hk : k ∈ TokenKind.symbols) (hmark : k.isMark)
    (hrest : startsApart rest) (h : Scans rest items) :
    Scans (k.spelling ++ rest) (.mark k :: items) :=
  h.lexeme (pieces_symbol hk hrest) (Token.item_of_mark rfl hmark)

/-- What is kept of a token without a value is all of it but its line. -/
theorem item_eq_unlined {t : Token} (hkept : t.kind.isKept) (hliteral : t.literal = none)
    (hvalue : Literal.ofText? t.kind t.lexeme.toList = none) :
    (⟨t.kind, String.ofList t.lexeme.toList, 0,
      Literal.ofText? t.kind t.lexeme.toList⟩ : Token).item = (Item.token t).unlined := by
  have htoken : (⟨t.kind, t.lexeme, 0, none⟩ : Token) = t.unlined := by
    rw [Token.unlined, hliteral]
  rw [hvalue, String.ofList_toList, htoken, Token.item_unlined, Token.item_of_isKept hkept]

theorem spelling_ne_nil_of_isUnary {k : TokenKind} (h : k.isUnary) :
    k ∈ TokenKind.symbols ∧ k.spelling ≠ [] := by
  revert h
  cases k <;> decide

theorem spelling_ne_nil_of_isKept {k : TokenKind} (h : k.isKept) (hname : k ≠ .identifier) :
    k.spelling ≠ [] := by
  revert h hname
  cases k <;> decide

/-- A name or an operator. -/
theorem kept {t : Token} (hspelled : t.isSpelled) (hkept : t.kind.isKept)
    (hrest : startsSeparate rest) (h : Scans rest items) :
    Scans (t.lexeme.toList ++ rest) (.token t :: items) := by
  by_cases hname : t.kind = .identifier
  · obtain ⟨c, cs, hlexeme, hc, hcs, hkind, hliteral⟩ :=
      Token.exists_word_of_isSpelled hspelled hname
    refine h.lexeme (k := t.kind) ?_ (item_eq_unlined hkept hliteral (by rw [hname]; rfl))
    rw [hlexeme, hname, pieces_word hc hcs hrest, hkind]
  · have hspelling := spelling_ne_nil_of_isKept hkept hname
    obtain ⟨hlexeme, hliteral⟩ := Token.lexeme_of_isSpelled hspelled hspelling
    refine h.lexeme (k := t.kind) ?_
      (item_eq_unlined hkept hliteral (Literal.ofText?_eq_none hspelling _))
    rw [hlexeme, pieces_spelling hspelling hrest]

/-- An operator of one operand, which may follow directly. -/
theorem unary {t : Token} (hspelled : t.isSpelled) (hkind : t.kind.isUnary)
    (hrest : startsApart rest) (h : Scans rest items) :
    Scans (t.lexeme.toList ++ rest) (.token t :: items) := by
  obtain ⟨hsymbol, hspelling⟩ := spelling_ne_nil_of_isUnary hkind
  obtain ⟨hlexeme, hliteral⟩ := Token.lexeme_of_isSpelled hspelled hspelling
  refine h.lexeme (k := t.kind) ?_ (item_eq_unlined (by simp [TokenKind.isKept, hkind]) hliteral
    (Literal.ofText?_eq_none hspelling _))
  rw [hlexeme, pieces_symbol hsymbol hrest]

/-- A string between its quotes. -/
theorem string {text : String} (hspelled : (Literal.string text).isSpelled)
    (h : Scans rest items) :
    Scans ('\x22' :: (text.toList ++ ['\x22']) ++ rest) (.literal (.string text) :: items) := by
  have hinside : ∀ c ∈ text.toList, isQuote c = false := by
    simpa [Literal.isSpelled] using hspelled
  refine h.lexeme (pieces_string hinside rest) (Token.item_of_string rfl ?_)
  simp [Literal.ofText?]

theorem pieces_number {value : Binary64} (hspelled : (Literal.number value).isSpelled)
    (hfinite : value.isFinite) (hrest : startsSeparate rest) :
    pieces (value.text.toList ++ rest) = ⟨.token .number, value.text.toList⟩ :: pieces rest := by
  have hnegative : value.isNegative = false := by
    simpa [Literal.isSpelled] using hspelled
  rw [Binary64.text_of_isFinite hfinite hnegative]
  obtain ⟨whole, hne, hwhole, htext | ⟨digits, hdigits, hall, htext⟩⟩ := value.magnitude.text_eq
  · obtain ⟨c, cs, rfl⟩ := List.exists_cons_of_ne_nil hne
    obtain ⟨hc, hcs⟩ := List.forall_mem_cons.1 hwhole
    rw [htext, pieces_digits hc hcs hrest]
  · obtain ⟨c, cs, rfl⟩ := List.exists_cons_of_ne_nil hne
    obtain ⟨d, ds, rfl⟩ := List.exists_cons_of_ne_nil hdigits
    obtain ⟨hc, hcs⟩ := List.forall_mem_cons.1 hwhole
    obtain ⟨hd, hds⟩ := List.forall_mem_cons.1 hall
    rw [htext, List.cons_append, pieces_fraction hc hcs hd hds hrest]

/-- A number by its digits. -/
theorem number {value : Binary64} (hspelled : (Literal.number value).isSpelled)
    (hfinite : value.isFinite) (hrest : startsSeparate rest) (h : Scans rest items) :
    Scans (value.text.toList ++ rest) (.literal (.number value) :: items) := by
  have hnegative : value.isNegative = false := by
    simpa [Literal.isSpelled] using hspelled
  refine h.lexeme (pieces_number hspelled hfinite hrest) (Token.item_of_number rfl ?_)
  rw [Literal.ofText?, Binary64.text_of_isFinite hfinite hnegative, Decimal.ofText_text,
    Binary64.ofDecimal_magnitude hfinite hnegative]

/-! ## The whole text -/

/-- A piece on some line is kept as it is on none. -/
theorem map_token? (p : Piece) (line : UInt32) :
    (p.token? line).map (fun t => t.item.unlined) = p.item? := by
  obtain ⟨kind, text⟩ := p
  cases kind with
  | token k =>
    simp only [Piece.token?, Piece.item?, Option.map_some, ← Token.item_unlined]
    rfl
  | _ => rfl

/-- The tokens and the errors of a text. -/
theorem scan {text : String} (h : Scans text.toList items) :
    (LoxSyntax.scan text).errors = [] ∧
      ((LoxSyntax.scan text).tokens.takeWhile (·.kind != .eof)).map (fun t => t.item.unlined) =
        items.map Item.unlined := by
  constructor
  · refine List.filterMap_eq_nil_iff.2 fun ⟨p, line⟩ hp => ?_
    have hmem : p ∈ pieces text.toList := by
      rw [← located_fst 1 (pieces text.toList)]
      exact List.mem_map_of_mem hp
    rw [Piece.error?, h.clean p hmem, Option.map_none]
  · rw [takeWhile_scan, List.map_filterMap, ← h.items_eq, ← located_fst 1 (pieces text.toList),
      List.filterMap_map, located_fst]
    congr 1
    funext ⟨p, line⟩
    exact map_token? p line

end Scans

end LoxSyntax
