import LoxSyntax.Proofs.Munch.First

/-!
# Scanning by the longest match

A text is split in one way only into pieces that are each the longest match of what is left.  The
tokens of a text are the pieces that are tokens, the end of the text behind them; its errors are the
stray characters and the string that is left open, which nothing can follow.

* `Split` — a text and its pieces.
* `split_iff` — the pieces of a text are its only split.
* `Token.IsRegular` — what holds of every scanned token.
* `Scan.Shows` — a scan and the pieces it was made from.
* **`scan_munch`** — a scan shows the only split of its text.
-/

namespace LoxSyntax

/-! ## The only split -/

/-- Pieces that cover a text, each the longest match of what is left. -/
inductive Split : List Char → List Piece → Prop
  | nil : Split [] []
  | cons {p : Piece} {rest : List Char} {ps : List Piece} (hfirst : Munch (p.text ++ rest) p)
      (hrest : Split rest ps) : Split (p.text ++ rest) (p :: ps)

theorem split_pieces (text : List Char) : Split text (pieces text) := by
  -- on the length of the text, which each piece makes shorter
  generalize hn : text.length = n
  induction n using Nat.strongRecOn generalizing text with
  | ind n ih =>
    subst hn
    cases text with
    | nil => exact .nil
    | cons c rest =>
      have hpos := List.length_pos_iff.2 (Piece.first_text_ne_nil c rest)
      have htext : (Piece.first c rest).text ++
          (c :: rest).drop (Piece.first c rest).text.length = c :: rest :=
        List.prefix_iff_eq_append.1 (Piece.first_isPrefix c rest)
      have hrest := ih _ (by simp only [List.length_drop, List.length_cons]; omega)
        ((c :: rest).drop (Piece.first c rest).text.length) rfl
      have hfirst := munch_first c rest
      rw [pieces_cons]
      rw [← htext] at hfirst
      conv => lhs; rw [← htext]
      exact .cons hfirst hrest

theorem Munch.text_ne_nil {text : List Char} {p : Piece} (h : Munch text p) : p.text ≠ [] := by
  cases h with
  | longest _ hmatch => exact hmatch.ne_nil
  | stray => exact List.cons_ne_nil _ _

/-- The pieces of a text are its only split. -/
theorem split_iff {text : List Char} {ps : List Piece} : Split text ps ↔ ps = pieces text := by
  refine ⟨fun h => ?_, fun h => h ▸ split_pieces text⟩
  induction h with
  | nil => rfl
  | @cons p rest ps hfirst _ ih =>
    cases htext : p.text ++ rest with
    | nil => exact absurd (List.append_eq_nil_iff.1 htext).1 hfirst.text_ne_nil
    | cons c tail =>
      obtain rfl := hfirst.unique (htext ▸ munch_first c tail)
      rw [pieces_cons, ← htext, List.drop_left, ih]

example : (pieces "1.//2\norx\x22".toList).map (fun p => (p.kind, String.ofList p.text)) =
    [(.token .number, "1"), (.token .dot, "."), (.comment, "//2"), (.blanks, "\n"),
      (.token .identifier, "orx"), (.openString, "\x22")] := by
  decide +kernel

theorem Split.munch_of_mem {text : List Char} {ps : List Piece} (h : Split text ps) {p : Piece}
    (hp : p ∈ ps) : ∃ rest, Munch (p.text ++ rest) p := by
  induction h with
  | nil => exact absurd hp List.not_mem_nil
  | @cons q rest ps hfirst _ ih =>
    rcases List.mem_cons.1 hp with rfl | hp
    · exact ⟨rest, hfirst⟩
    · exact ih hp

/-! ## An open string -/

/-- Nothing is left behind a string that is open: the next character would make it longer. -/
theorem Munch.eq_nil_of_openString {p : Piece} {rest : List Char} (h : Munch (p.text ++ rest) p)
    (hopen : p.kind = .openString) : rest = [] := by
  cases h with
  | longest _ hmatch hlongest =>
    obtain ⟨kind, text⟩ := p
    subst hopen
    cases hmatch with
    | @openString body hbody =>
    cases rest with
    | nil => rfl
    | cons d rest =>
      have hbegins : '\x22' :: (body ++ [d]) <+: '\x22' :: body ++ d :: rest := ⟨rest, by simp⟩
      by_cases hd : d = '\x22'
      · subst hd
        exact absurd (hlongest _ _ hbegins (.string hbody)) (by simp)
      · have hbody' : '\x22' ∉ body ++ [d] := by simpa [hbody] using Ne.symm hd
        exact absurd (hlongest _ _ hbegins (.openString hbody')) (by simp)
  | stray => cases hopen

/-- Only the last piece can be a string that is open. -/
theorem Split.kind_ne_openString {text : List Char} {ps : List Piece} (h : Split text ps) :
    ∀ p ∈ ps.dropLast, p.kind ≠ .openString := by
  induction h with
  | nil => exact fun p hp => absurd hp List.not_mem_nil
  | @cons p rest ps hfirst hrest ih =>
    cases ps with
    | nil => exact fun p hp => absurd hp List.not_mem_nil
    | cons q ps =>
      rw [List.dropLast_cons_cons]
      refine List.forall_mem_cons.2 ⟨fun hopen => ?_, ih⟩
      obtain rfl := hfirst.eq_nil_of_openString hopen
      cases split_iff.1 hrest

/-! ## What is scanned -/

/-- The kind and the text of a piece that is a token. -/
def Piece.entry? (p : Piece) : Option (TokenKind × List Char) :=
  match p.kind with
  | .token k => some (k, p.text)
  | _ => none

/-- The message on a piece that is no token and is not dropped either. -/
def Piece.complaint? (p : Piece) : Option String :=
  match p.kind with
  | .stray => some "Unexpected character."
  | .openString => some "Unterminated string."
  | _ => none

/-- What holds of every token that is scanned: no name is reserved, and the numbers and strings are
the tokens with a value, which for a string is what stands between its quotes. -/
structure Token.IsRegular (t : Token) : Prop where
  kind_ne : t.kind ≠ .unterminatedString
  not_reserved : t.kind = .identifier → ∀ k ∈ TokenKind.reservedWords, k.spelling ≠ t.lexeme.toList
  literal : t.literal.isSome ↔ t.kind = .number ∨ t.kind = .string
  number : t.kind = .number → ∃ value, t.literal = some (.number value)
  string : t.kind = .string → ∃ body : String, '\x22' ∉ body.toList ∧
    t.lexeme.toList = '\x22' :: (body.toList ++ ['\x22']) ∧ t.literal = some (.string body)

/-- A scan and the pieces that it was made from. -/
structure Scan.Shows (s : Scan) (ps : List Piece) : Prop where
  tokens : s.tokens.map (fun t => (t.kind, t.lexeme.toList)) =
    ps.filterMap Piece.entry? ++ [(.eof, [])]
  /-- The end of the text is scanned once. -/
  eof : s.tokens.countP (·.kind = .eof) = 1
  regular : ∀ t ∈ s.tokens, t.IsRegular
  errors : s.errors.map (fun e => (e.context, e.message)) =
    (ps.filterMap Piece.complaint?).map (fun message => ("", message))
  unexpected : s.errors.countP (·.message = "Unexpected character.") =
    ps.countP (·.kind = .stray)
  unterminated : s.errors.countP (·.message = "Unterminated string.") =
    if ∃ p ∈ ps, p.kind = .openString then 1 else 0
  /-- Only the last piece can be a string that is open. -/
  openString_last : ∀ p ∈ ps.dropLast, p.kind ≠ .openString

theorem filterMap_located {α : Type} (f : Piece → Option α) (line : UInt32) (ps : List Piece) :
    (located line ps).filterMap (fun p => f p.1) = ps.filterMap f := by
  conv => rhs; rw [← located_fst line ps, List.filterMap_map]
  rfl

theorem Piece.map_token? (p : Piece) (line : UInt32) :
    (p.token? line).map (fun t => (t.kind, t.lexeme.toList)) = p.entry? := by
  obtain ⟨kind, text⟩ := p
  cases kind <;> simp [token?, entry?]

theorem Piece.map_error? (p : Piece) (line : UInt32) :
    (p.error? line).map (fun e => (e.context, e.message)) =
      p.complaint?.map (fun message => ("", message)) := by
  obtain ⟨kind, text⟩ := p
  cases kind <;> rfl

theorem scan_tokens_shown (text : String) :
    (scan text).tokens.map (fun t => (t.kind, t.lexeme.toList)) =
      (pieces text.toList).filterMap Piece.entry? ++ [(.eof, [])] := by
  rw [← filterMap_located Piece.entry? 1, scan, List.map_append, List.map_filterMap]
  simp only [Piece.map_token?]
  rfl

theorem scan_errors_shown (text : String) :
    (scan text).errors.map (fun e => (e.context, e.message)) =
      ((pieces text.toList).filterMap Piece.complaint?).map (fun message => ("", message)) := by
  rw [← filterMap_located Piece.complaint? 1, scan, List.map_filterMap, List.map_filterMap]
  simp only [Piece.map_error?]

/-! ## The tokens -/

namespace Token

variable {t : Token}

/-- A token of a kind that has no values and is no name. -/
theorem isRegular_of_kind (hkind : t.kind ∉ [.identifier, .string, .unterminatedString, .number])
    (hliteral : t.literal = none) : t.IsRegular := by
  simp only [List.mem_cons, List.not_mem_nil, or_false, not_or] at hkind
  obtain ⟨hname, hstring, hopen, hnumber⟩ := hkind
  constructor <;> simp [*]

/-- A token that is the longest match of what is left. -/
theorem isRegular_of_munch {text : List Char} {p : Piece} {line : UInt32} (h : Munch text p)
    (ht : p.token? line = some t) : t.IsRegular := by
  obtain ⟨kind, text⟩ := p
  cases h with
  | stray => cases ht
  | longest _ hmatch _ hspelled =>
    cases hmatch with
    | blanks | comment | openString => cases ht
    | @spelled k hk =>
      have hkind : k ∉ [.identifier, .string, .unterminatedString, .number] := by
        revert hk
        cases k <;> decide
      cases ht
      exact isRegular_of_kind hkind (Literal.ofText?_eq_none hk _)
    | @identifier c cs hc hcs =>
      cases ht
      refine ⟨by simp, fun _ k hk htext => ?_, by simp [Literal.ofText?], by simp, by simp⟩
      rw [String.toList_ofList] at htext
      have hne : k.spelling ≠ [] := htext ▸ List.cons_ne_nil c cs
      cases hspelled k hne htext
      exact absurd rfl hne
    | @string body hbody =>
      cases ht
      refine ⟨by simp, by simp, by simp [Literal.ofText?], by simp, fun _ => ?_⟩
      refine ⟨String.ofList body, ?_, ?_, ?_⟩
      · rwa [String.toList_ofList]
      · rw [String.toList_ofList, String.toList_ofList]
      · simp [Literal.ofText?]
    | integer | decimal =>
      cases ht
      exact ⟨by simp, by simp, by simp [Literal.ofText?], fun _ => ⟨_, rfl⟩, by simp⟩

end Token

theorem isRegular_of_mem_scan {text : String} {t : Token} (h : t ∈ (scan text).tokens) :
    t.IsRegular := by
  rcases List.mem_append.1 h with h | h
  · obtain ⟨⟨p, line⟩, hp, ht⟩ := List.mem_filterMap.1 h
    have hpiece : p ∈ pieces text.toList := by
      rw [← located_fst 1 (pieces text.toList)]
      exact List.mem_map_of_mem hp
    obtain ⟨rest, hmunch⟩ := (split_pieces text.toList).munch_of_mem hpiece
    exact Token.isRegular_of_munch hmunch ht
  · obtain rfl := List.mem_singleton.1 h
    exact Token.isRegular_of_kind (by simp [Token.eof]) rfl

theorem countP_eof (text : String) : (scan text).tokens.countP (·.kind = .eof) = 1 := by
  have hpieces : ((located 1 (pieces text.toList)).filterMap fun p => p.1.token? p.2).countP
      (·.kind = .eof) = 0 := by
    refine List.countP_eq_zero.2 fun t ht => ?_
    simpa using Token.kind_ne_eof_of_isSpelled (isSpelled_of_mem_located ht)
  rw [scan, List.countP_append, hpieces]
  rfl

/-! ## The errors -/

/-- A message is reported once for each piece that it is about. -/
theorem countP_message (text : String) {message : String} {kind : PieceKind}
    (h : ∀ p : Piece, p.complaint? = some message ↔ p.kind = kind) :
    (scan text).errors.countP (·.message = message) =
      (pieces text.toList).countP (·.kind = kind) := by
  have hcount : (scan text).errors.countP (·.message = message) =
      ((scan text).errors.map fun e => (e.context, e.message)).countP (·.2 = message) := by
    rw [List.countP_map]
    rfl
  rw [hcount, scan_errors_shown, List.countP_map, List.countP_filterMap]
  refine List.countP_congr fun p _ => ?_
  rw [decide_eq_true_iff, ← h p]
  cases p.complaint? <;> simp

theorem complaint?_eq_unexpected (p : Piece) :
    p.complaint? = some "Unexpected character." ↔ p.kind = .stray := by
  obtain ⟨kind, text⟩ := p
  cases kind <;> simp [Piece.complaint?]

theorem complaint?_eq_unterminated (p : Piece) :
    p.complaint? = some "Unterminated string." ↔ p.kind = .openString := by
  obtain ⟨kind, text⟩ := p
  cases kind <;> simp [Piece.complaint?]

/-- One string at most is open. -/
theorem Split.countP_openString {text : List Char} {ps : List Piece} (h : Split text ps) :
    ps.countP (·.kind = .openString) = if ∃ p ∈ ps, p.kind = .openString then 1 else 0 := by
  have hlast := h.kind_ne_openString
  rcases List.eq_nil_or_concat ps with rfl | ⟨init, p, rfl⟩
  · simp
  · rw [List.concat_eq_append] at hlast ⊢
    rw [List.dropLast_concat] at hlast
    have hinit : init.countP (·.kind = .openString) = 0 :=
      List.countP_eq_zero.2 fun q hq => by simpa using hlast q hq
    have hexists : (∃ q ∈ init ++ [p], q.kind = .openString) ↔ p.kind = .openString := by
      constructor
      · rintro ⟨q, hq, hopen⟩
        rcases List.mem_append.1 hq with hq | hq
        · exact absurd hopen (hlast q hq)
        · rwa [List.mem_singleton.1 hq] at hopen
      · exact fun hopen => ⟨p, by simp, hopen⟩
    simp only [List.countP_append, hinit, Nat.zero_add, List.countP_singleton, hexists,
      decide_eq_true_eq]

/-! ## The scan -/

/-- A text has one split into longest matches, and a scan of the text shows it. -/
theorem scan_munch (text : String) :
    ∃ ps, (∀ qs, Split text.toList qs ↔ qs = ps) ∧ (scan text).Shows ps :=
  ⟨pieces text.toList, fun _ => split_iff,
    { tokens := scan_tokens_shown text
      eof := countP_eof text
      regular := fun _ ht => isRegular_of_mem_scan ht
      errors := scan_errors_shown text
      unexpected := countP_message text complaint?_eq_unexpected
      unterminated := (countP_message text complaint?_eq_unterminated).trans
        (split_pieces text.toList).countP_openString
      openString_last := (split_pieces text.toList).kind_ne_openString }⟩

end LoxSyntax
