import Mathlib.Data.List.Basic
import LoxSyntax.Proofs.Munch.Scan
import LoxSyntax.Proofs.Token.Seam
import LoxSyntax.Proofs.Tree.Lines

/-!
# Lexemes with blanks between them

What a token was read from is the longest match wherever something stands behind it that does not
go on with it, and blanks go on with nothing but a string without its quote, which is no token.  So
the lexemes of a text can be written down once more with any blanks between them, whatever stood
between them before, and the same tokens are scanned.

* `Token.IsLexical` — a token with the lexeme and the value of its kind.
* `pieces_matches` — a token in front of a text that does not go on with it.
* `Spaced` — lexemes in order, with blanks between them.
* `visible_lexeme`, `visible_blanks` — what is seen of a lexeme and of blanks.
* **`scan_spaced`** — lexemes with blanks between them are scanned as the tokens they are from.
-/

namespace LoxSyntax

/-! ## Lexemes -/

/-- The lexeme of a token matches its kind, but no kind that goes before it, and has its value. -/
structure Token.IsLexical (t : Token) : Prop where
  isMatch : (PieceKind.token t.kind).Matches t.lexeme.toList
  spelled : ∀ k : TokenKind, k.spelling ≠ [] → k.spelling = t.lexeme.toList → t.kind = k
  literal : t.literal = Literal.ofText? t.kind t.lexeme.toList

/-- A token that is the longest match of what is left has a lexeme of its own. -/
theorem Token.isLexical_of_munch {text : List Char} {p : Piece} {line : UInt32} {t : Token}
    (h : Munch text p) (ht : p.token? line = some t) : t.IsLexical := by
  obtain ⟨kind, w⟩ := p
  cases kind with
  | token k =>
    cases ht
    cases h with
    | longest _ hmatch _ hspelled =>
      refine ⟨?_, fun l hl hw => ?_, ?_⟩
      · rwa [String.toList_ofList]
      · rw [String.toList_ofList] at hw
        exact PieceKind.token.inj (hspelled l hl hw)
      · rw [String.toList_ofList]
  | _ => cases ht

/-- Every token of a text but its end is what its lexeme says. -/
theorem isLexical_of_mem_scan {text : String} {t : Token}
    (h : t ∈ (scan text).tokens.filter (·.kind != .eof)) : t.IsLexical := by
  obtain ⟨hmem, hkind⟩ := List.mem_filter.1 h
  rcases List.mem_append.1 hmem with hmem | hmem
  · obtain ⟨⟨p, line⟩, hp, ht⟩ := List.mem_filterMap.1 hmem
    have hpiece : p ∈ pieces text.toList := by
      rw [← located_fst 1 (pieces text.toList)]
      exact List.mem_map_of_mem hp
    obtain ⟨rest, hmunch⟩ := (split_pieces text.toList).munch_of_mem hpiece
    exact Token.isLexical_of_munch hmunch ht
  · rw [List.mem_singleton.1 hmem] at hkind
    cases hkind

/-- A token in front of a text that does not go on with it is the first piece. -/
theorem pieces_matches {k : TokenKind} {w rest : List Char}
    (h : (PieceKind.token k).Matches w)
    (hspelled : ∀ l : TokenKind, l.spelling ≠ [] → l.spelling = w → k = l)
    (hrest : startsSeparate rest) :
    pieces (w ++ rest) = ⟨.token k, w⟩ :: pieces rest := by
  cases h with
  | spelled hk => exact pieces_spelling hk hrest
  | @identifier c cs hc hcs =>
    have hname : wordKind (c :: cs) = .identifier := by
      refine Decidable.byContradiction fun hreserved => ?_
      obtain ⟨hne, hword⟩ := spelling_wordKind hreserved
      exact hreserved (hspelled _ hne hword).symm
    rw [pieces_word hc hcs hrest, hname]
  | string hbody =>
    refine pieces_string (fun c hc => ?_) rest
    simpa using not_isQuote_iff.2 hbody c hc
  | integer h =>
    obtain ⟨hne, hdigits⟩ := h
    obtain ⟨c, cs, rfl⟩ := List.exists_cons_of_ne_nil hne
    obtain ⟨hc, hcs⟩ := List.forall_mem_cons.1 hdigits
    exact pieces_digits hc hcs hrest
  | decimal hwhole hpart =>
    obtain ⟨c, cs, rfl⟩ := List.exists_cons_of_ne_nil hwhole.1
    obtain ⟨d, ds, rfl⟩ := List.exists_cons_of_ne_nil hpart.1
    obtain ⟨hc, hcs⟩ := List.forall_mem_cons.1 hwhole.2
    obtain ⟨hd, hds⟩ := List.forall_mem_cons.1 hpart.2
    exact pieces_fraction hc hcs hd hds hrest

/-! ## Blanks between them -/

/-- The lexemes of some tokens in order, with blanks between them. -/
inductive Spaced : List Token → List Char → Prop
  | nil : Spaced [] []
  | single (t : Token) : Spaced [t] t.lexeme.toList
  | cons {t u : Token} {ts : List Token} {blanks text : List Char} (hne : blanks ≠ [])
      (hblanks : ∀ c ∈ blanks, isBlank c) (hrest : Spaced (u :: ts) text) :
      Spaced (t :: u :: ts) (t.lexeme.toList ++ (blanks ++ text))

/-- Blanks do not go on with a token. -/
theorem startsSeparate_blanks {blanks : List Char} (hne : blanks ≠ [])
    (hblanks : ∀ c ∈ blanks, isBlank c) (rest : List Char) : startsSeparate (blanks ++ rest) := by
  obtain ⟨c, cs, rfl⟩ := List.exists_cons_of_ne_nil hne
  have hc := hblanks c List.mem_cons_self
  simp only [isBlank, Bool.or_eq_true, beq_iff_eq] at hc
  rcases hc with (((rfl | rfl) | rfl) | rfl) | rfl <;> rfl

/-- Of blanks nothing is seen. -/
theorem visible_blanks {blanks : List Char} (h : ∀ c ∈ blanks, isBlank c) (line : UInt32)
    (rest : List Char) : visible line (blanks ++ rest) = visible (lineAfter line blanks) rest := by
  induction blanks generalizing line with
  | nil => rw [List.nil_append, lineAfter_nil]
  | cons c cs ih =>
    obtain ⟨hc, hcs⟩ := List.forall_mem_cons.1 h
    rw [List.cons_append, visible_blank hc, ih hcs, lineAfter_lineAfter]
    rfl

/-- The piece that a token was read from. -/
def Token.piece (t : Token) : Piece :=
  ⟨.token t.kind, t.lexeme.toList⟩

/-- A lexeme is seen as the token it is of. -/
theorem visible_lexeme {t : Token} (h : t.IsLexical) {rest : List Char}
    (hrest : startsSeparate rest) (line : UInt32) :
    visible line (t.lexeme.toList ++ rest) =
      (t.piece, line) :: visible (lineAfter line t.lexeme.toList) rest := by
  rw [visible, pieces_matches h.isMatch h.spelled hrest, located, List.filter_cons_of_pos (by simp)]
  rfl

/-- Lexemes with blanks between them are seen as the tokens they are of. -/
theorem Spaced.visible_fst {ts : List Token} {text : List Char} (h : Spaced ts text)
    (hts : ∀ t ∈ ts, t.IsLexical) (line : UInt32) :
    (visible line text).map Prod.fst = ts.map Token.piece := by
  induction h generalizing line with
  | nil => rfl
  | single t =>
    have hseen : visible line (t.lexeme.toList ++ []) = _ :=
      visible_lexeme (hts t List.mem_cons_self) rfl line
    rw [List.append_nil] at hseen
    rw [hseen]
    rfl
  | cons hne hblanks _ ih =>
    obtain ⟨ht, hts⟩ := List.forall_mem_cons.1 hts
    rw [visible_lexeme ht (startsSeparate_blanks hne hblanks _), visible_blanks hblanks,
      List.map_cons, List.map_cons, ih hts]

/-! ## Scanning once more -/

theorem Token.error?_piece (t : Token) (line : UInt32) : t.piece.error? line = none := rfl

/-- A lexeme gives its token back, but not its line. -/
theorem Token.IsLexical.token?_piece {t : Token} (h : t.IsLexical) :
    t.piece.token? 0 = some t.unlined := by
  simp only [piece, Piece.token?, unlined, String.ofList_toList, h.literal]

theorem Piece.map_unlined_token? (p : Piece) (line : UInt32) :
    (p.token? line).map Token.unlined = p.token? 0 := by
  obtain ⟨kind, text⟩ := p
  cases kind <;> rfl

/-- The tokens of a text but its end. -/
theorem filter_scan (text : String) :
    (scan text).tokens.filter (·.kind != .eof) =
      (scan text).tokens.takeWhile (·.kind != .eof) := by
  have hkept : ∀ t ∈ (located 1 (pieces text.toList)).filterMap (fun p => p.1.token? p.2),
      (t.kind != .eof) = true := fun t ht =>
    bne_iff_ne.2 (Token.kind_ne_eof_of_isSpelled (isSpelled_of_mem_located ht))
  rw [takeWhile_scan, scan, List.filter_append, List.filter_eq_self.2 hkept]
  exact List.append_nil _

/-- Lines aside, the tokens of a text are the ones that are seen in it, and its end. -/
theorem map_unlined_scan (text : String) :
    (scan text).tokens.map Token.unlined =
      ((scan text).tokens.filter (·.kind != .eof)).map Token.unlined ++ [Token.eof 0] := by
  rw [filter_scan, takeWhile_scan, scan, List.map_append]
  rfl

/-- Lexemes with blanks between them are scanned as the tokens they are from, lines aside, and
without an error. -/
theorem scan_spaced {text spaced : String}
    (h : Spaced ((scan text).tokens.filter (·.kind != .eof)) spaced.toList) :
    (scan spaced).errors = [] ∧
      (scan spaced).tokens.map Token.unlined = (scan text).tokens.map Token.unlined := by
  have hlexical : ∀ t ∈ (scan text).tokens.filter (·.kind != .eof), t.IsLexical :=
    fun t ht => isLexical_of_mem_scan ht
  have hseen := h.visible_fst hlexical 1
  constructor
  · rw [scan_errors_eq, List.filterMap_eq_nil_iff]
    intro p hp
    obtain ⟨t, -, ht⟩ := List.mem_map.1 (hseen ▸ List.mem_map_of_mem hp)
    rw [← ht, Token.error?_piece]
  · rw [map_unlined_scan, map_unlined_scan text]
    congr 1
    calc ((scan spaced).tokens.filter (·.kind != .eof)).map Token.unlined
        = (visible 1 spaced.toList).filterMap fun p => p.1.token? 0 := by
          rw [filter_scan, scan_tokens_eq, List.map_filterMap]
          simp only [Piece.map_unlined_token?]
      _ = (((scan text).tokens.filter (·.kind != .eof)).map Token.piece).filterMap
            (·.token? 0) := by rw [← hseen, List.filterMap_map]; rfl
      _ = ((scan text).tokens.filter (·.kind != .eof)).map Token.unlined := by
          rw [List.filterMap_map, ← List.filterMap_eq_map]
          exact List.filterMap_congr fun t ht => (hlexical t ht).token?_piece

/-- Tokens without anything between them, characters that nothing begins with, a comment, a string
of two lines and one without end. -/
def crowdedText : String :=
  "a//b\n1.@.5\"x\n//\"/==!é\"y"

theorem crowdedText_spaced :
    let spaced := "a\t1\r\n. \x0c.\n5 \"x\n//\"\n/ == !"
    Spaced ((scan crowdedText).tokens.filter (·.kind != .eof)) spaced.toList ∧
      (scan crowdedText).errors.length = 3 ∧
      (scan spaced).errors = [] ∧
      (scan spaced).tokens.map Token.unlined = (scan crowdedText).tokens.map Token.unlined := by
  intro spaced
  have htokens : (scan crowdedText).tokens.filter (·.kind != .eof) =
      [⟨.identifier, "a", 1, none⟩, ⟨.number, "1", 2, some (.number ⟨0x3ff0000000000000⟩)⟩,
        ⟨.dot, ".", 2, none⟩, ⟨.dot, ".", 2, none⟩,
        ⟨.number, "5", 2, some (.number ⟨0x4014000000000000⟩)⟩,
        ⟨.string, "\"x\n//\"", 2, some (.string "x\n//")⟩, ⟨.slash, "/", 3, none⟩,
        ⟨.equalEqual, "==", 3, none⟩, ⟨.bang, "!", 3, none⟩] := by
    decide +kernel
  have htext : spaced.toList = "a".toList ++ (['\t'] ++ ("1".toList ++ (['\r', '\n'] ++
      (".".toList ++ ([' ', '\x0c'] ++ (".".toList ++ (['\n'] ++ ("5".toList ++ ([' '] ++
      ("\"x\n//\"".toList ++ (['\n'] ++ ("/".toList ++ ([' '] ++ ("==".toList ++ ([' '] ++
      "!".toList))))))))))))))) := by
    decide +kernel
  have hspaced : Spaced ((scan crowdedText).tokens.filter (·.kind != .eof)) spaced.toList := by
    rw [htokens, htext]
    repeat' first
      | exact Spaced.single _
      | apply Spaced.cons
    all_goals simp [isBlank]
  exact ⟨hspaced, by decide +kernel, scan_spaced hspaced⟩

end LoxSyntax
