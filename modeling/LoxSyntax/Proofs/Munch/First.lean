import LoxSyntax.Proofs.Munch.Pattern
import LoxSyntax.Proofs.Token.Spelling

/-!
# The first piece is the longest match

A piece is read by its first character.  For each class of first characters the patterns that can
match are known, and what is read is compared with each of them: blanks, a comment and a word take
all that the class of their characters holds, a number and a string end where their pattern ends,
and a symbol has two characters if two of them are one.

* `Munch.takeWhile` — all that a class of characters holds.
* `munch_blanks`, `munch_comment`, `munch_word`, `munch_number`, `munch_string`, `munch_symbol` —
  the pieces by their first characters.
* **`munch_first`** — every text that is not empty begins with the piece that is read.
-/

namespace LoxSyntax

variable {c : Char} {rest : List Char}

/-! ## Characters of one class -/

theorem length_le_takeWhile {p : Char → Bool} {w text : List Char} (hw : w <+: text)
    (h : ∀ d ∈ w, p d) : w.length ≤ (text.takeWhile p).length := by
  obtain ⟨tail, rfl⟩ := hw
  rw [List.takeWhile_append_of_pos h, List.length_append]
  exact Nat.le_add_right ..

theorem pos_of_mem_takeWhile {p : Char → Bool} {text : List Char} :
    ∀ d ∈ text.takeWhile p, p d :=
  List.all_eq_true.1 List.all_takeWhile

/-- All that a class of characters holds, if whatever can match is within the class. -/
theorem Munch.takeWhile {p : Char → Bool} {kind : PieceKind} {text : List Char}
    (hmatch : kind.Matches (text.takeWhile p))
    (hclass : ∀ l w, w <+: text → PieceKind.Matches l w → ∀ d ∈ w, p d)
    (hspelled : ∀ k : TokenKind, (PieceKind.token k).Matches (text.takeWhile p) →
      k.spelling = text.takeWhile p → kind = .token k) :
    Munch text ⟨kind, text.takeWhile p⟩ :=
  .longest (List.takeWhile_prefix p) hmatch
    (fun l w hw h => length_le_takeWhile hw (hclass l w hw h))
    fun k hk htext => by
      have hword : k.spelling = text.takeWhile p := htext
      exact hspelled k (hword ▸ .spelled hk) hword

theorem munch_blanks (hc : isBlank c) :
    Munch (c :: rest) ⟨.blanks, c :: rest.takeWhile isBlank⟩ := by
  have hlead : Lead.of c = .blank := if_pos hc
  rw [← List.takeWhile_cons_of_pos hc]
  refine .takeWhile (.blanks (by simp [hc]) pos_of_mem_takeWhile) ?_ ?_
  · exact fun l w hw h => (h.blank ((h.lead_of_prefix hw).trans hlead)).2
  · intro k h _
    exact nomatch (h.blank ((h.lead_of_prefix (List.takeWhile_prefix _)).trans hlead)).1

theorem newline_notMem_spelling : ∀ k ∈ TokenKind.symbols, '\n' ∉ k.spelling := by
  decide

theorem munch_comment :
    Munch ('/' :: '/' :: rest) ⟨.comment, '/' :: ('/' :: rest).takeWhile (· != '\n')⟩ := by
  have hlead : Lead.of '/' = .mark := by decide
  have hbody : '\n' ∉ rest.takeWhile (· != '\n') := fun h => by
    simpa using pos_of_mem_takeWhile '\n' h
  rw [← List.takeWhile_cons_of_pos (a := '/') (p := (· != '\n')) rfl]
  refine .takeWhile (.comment hbody) ?_ ?_
  · intro l w hw h d hd
    refine bne_iff_ne.2 fun hnewline => ?_
    subst hnewline
    obtain ⟨_, body, hbody, rfl⟩ | ⟨t, ht, _, rfl⟩ :=
      h.mark ((h.lead_of_prefix hw).trans hlead)
    · exact absurd hd (by simpa using hbody)
    · exact newline_notMem_spelling t ht hd
  · -- no symbol is spelled with two slashes
    intro k h _
    obtain ⟨hkind, _⟩ | ⟨t, ht, _, hspelling⟩ :=
      h.mark ((h.lead_of_prefix (List.takeWhile_prefix _)).trans hlead)
    · exact nomatch hkind
    · have hsymbol := isSymbol_spelling t ht
      rw [hspelling] at hsymbol
      cases hrest : rest.takeWhile (· != '\n') <;> simp [hrest, isSymbol] at hsymbol

/-! ## Words -/

theorem matches_wordKind {cs : List Char} (hc : isWordStart c) (hcs : ∀ d ∈ cs, isWordPart d) :
    (PieceKind.token (wordKind (c :: cs))).Matches (c :: cs) := by
  by_cases hkind : wordKind (c :: cs) = .identifier
  · rw [hkind]
    exact .identifier hc hcs
  · obtain ⟨hne, hspelling⟩ := spelling_wordKind hkind
    conv => rhs; rw [← hspelling]
    exact .spelled hne

theorem munch_word (hc : isWordStart c) :
    Munch (c :: rest)
      ⟨.token (wordKind (c :: rest.takeWhile isWordPart)), c :: rest.takeWhile isWordPart⟩ := by
  have hlead : Lead.of c = .letter := lead_of_isWordStart hc
  have hmatch : (PieceKind.token (wordKind (c :: rest.takeWhile isWordPart))).Matches
      (c :: rest.takeWhile isWordPart) := matches_wordKind hc pos_of_mem_takeWhile
  rw [← List.takeWhile_cons_of_pos (isWordPart_of_isWordStart hc)] at hmatch ⊢
  refine .takeWhile hmatch ?_ ?_
  · exact fun l w hw h => (h.word ((h.lead_of_prefix hw).trans hlead)).1
  · intro k h htext
    have hne : k.spelling ≠ [] := htext ▸ h.ne_nil
    obtain ⟨_, hkind | ⟨t, ht, hspelling⟩⟩ :=
      h.word ((h.lead_of_prefix (List.takeWhile_prefix _)).trans hlead)
    · cases hkind
      exact absurd rfl hne
    · obtain rfl := TokenKind.spelling_injective (htext.trans hspelling.symm) hne
      rw [← htext, wordKind_spelling k ht]

/-! ## Numbers -/

theorem fraction_cases (text : List Char) :
    fraction text = [] ∨ ∃ part, IsDigits part ∧ fraction text = '.' :: part := by
  match text with
  | [] | [_] => exact .inl rfl
  | point :: d :: rest =>
    by_cases h : point = '.' ∧ d.isDigit
    · obtain ⟨rfl, hd⟩ := h
      refine .inr ⟨d :: rest.takeWhile Char.isDigit, ⟨List.cons_ne_nil _ _, ?_⟩, ?_⟩
      · exact List.forall_mem_cons.2 ⟨hd, pos_of_mem_takeWhile⟩
      · simp [fraction, hd]
    · refine .inl (if_neg ?_)
      simpa using h

theorem length_le_fraction {part : List Char} (h : IsDigits part) (tail : List Char) :
    part.length + 1 ≤ (fraction ('.' :: (part ++ tail))).length := by
  obtain ⟨hne, hdigits⟩ := h
  obtain ⟨d, ds, rfl⟩ := List.exists_cons_of_ne_nil hne
  obtain ⟨hd, hds⟩ := List.forall_mem_cons.1 hdigits
  have hlength := length_le_takeWhile (List.prefix_append ds tail) hds
  simpa [fraction, hd] using hlength

theorem number_text (hc : c.isDigit) :
    (Piece.number c rest).text = (c :: rest).takeWhile Char.isDigit ++
      fraction ((c :: rest).dropWhile Char.isDigit) := by
  simp [Piece.number, hc]

theorem munch_number (hc : c.isDigit) : Munch (c :: rest) (Piece.number c rest) := by
  have hlead : Lead.of c = .digit := lead_of_isDigit hc
  have hbegins : (Piece.number c rest).text <+: c :: rest :=
    first_of_isDigit hc rest ▸ Piece.first_isPrefix c rest
  refine .longest hbegins ?_ ?_ ?_
  · have hwhole : IsDigits (c :: rest.takeWhile Char.isDigit) :=
      ⟨List.cons_ne_nil _ _, List.forall_mem_cons.2 ⟨hc, pos_of_mem_takeWhile⟩⟩
    rw [Piece.number]
    obtain hnone | ⟨part, hpart, hfraction⟩ := fraction_cases (rest.dropWhile Char.isDigit)
    · rw [hnone, List.append_nil]
      exact .integer hwhole
    · rw [hfraction]
      exact .decimal hwhole hpart
  · intro l w hw h
    rw [number_text hc, List.length_append]
    obtain ⟨_, ⟨_, hdigits⟩ | ⟨whole, part, hwhole, hpart, rfl⟩⟩ :=
      h.number ((h.lead_of_prefix hw).trans hlead)
    · exact Nat.le_add_right_of_le (length_le_takeWhile hw hdigits)
    · -- the digits end at the point, and the fraction takes at least the digits behind it
      obtain ⟨tail, htail⟩ := hw
      have htext : c :: rest = whole ++ '.' :: (part ++ tail) := by simp [← htail]
      have hpoint : ∀ d ∈ ('.' :: (part ++ tail)).head?, d.isDigit = false := by
        rintro d ⟨⟩
        rfl
      rw [htext, takeWhile_append_eq hwhole.2 hpoint, dropWhile_append_eq hwhole.2 hpoint,
        List.length_append, List.length_cons]
      exact Nat.add_le_add_left (length_le_fraction hpart tail) _
  · intro k hk htext
    have h : (PieceKind.token k).Matches k.spelling := .spelled hk
    exact ((h.number ((h.lead_of_prefix (htext ▸ hbegins)).trans hlead)).1).symm

/-! ## Strings -/

theorem not_isQuote_iff {body : List Char} : (∀ d ∈ body, (!isQuote d) = true) ↔ '\x22' ∉ body := by
  simp only [isQuote, Bool.not_eq_true', beq_eq_false_iff_ne]
  exact ⟨fun h hmem => h _ hmem rfl, fun h d hd heq => h (heq ▸ hd)⟩

theorem spelling_ne_quoted (k : TokenKind) (body : List Char) : k.spelling ≠ '\x22' :: body := by
  have hhead : k.spelling.head? ≠ some '\x22' := by cases k <;> decide
  exact fun h => hhead (congrArg List.head? h)

theorem munch_openString {body : List Char} (hbody : '\x22' ∉ body) :
    Munch ('\x22' :: body) ⟨.openString, '\x22' :: body⟩ :=
  .longest List.prefix_rfl (.openString hbody) (fun _ _ hw _ => hw.length_le)
    fun k _ htext => absurd htext (spelling_ne_quoted k body)

theorem munch_closedString {body tail : List Char} (hbody : '\x22' ∉ body) :
    Munch ('\x22' :: (body ++ '\x22' :: tail)) ⟨.token .string, '\x22' :: (body ++ ['\x22'])⟩ := by
  have hlead : Lead.of '\x22' = .quote := by decide
  have htake (body tail : List Char) (hbody : '\x22' ∉ body) :
      (body ++ '\x22' :: tail).takeWhile (!isQuote ·) = body :=
    takeWhile_append_eq (not_isQuote_iff.2 hbody) (by rintro d ⟨⟩; rfl)
  refine .longest ⟨tail, by simp⟩ (.string hbody) ?_ ?_
  · intro l w hw h
    obtain ⟨body', hbody', ⟨_, rfl⟩ | ⟨_, rfl⟩⟩ := h.quoted ((h.lead_of_prefix hw).trans hlead)
    · -- both strings end at the first quote
      obtain ⟨tail', htail⟩ := (List.cons_prefix_cons.1 hw).2
      rw [List.append_assoc, List.singleton_append] at htail
      have hbodies : body' = body := by
        rw [← htake body' tail' hbody', htail, htake body tail hbody]
      exact Nat.le_of_eq (by rw [hbodies])
    · have hlength := length_le_takeWhile (List.cons_prefix_cons.1 hw).2
        (not_isQuote_iff.2 hbody')
      rw [htake body tail hbody] at hlength
      simp only [List.length_cons, List.length_append]
      omega
  · exact fun k _ htext => absurd htext (spelling_ne_quoted k _)

theorem munch_string : Munch ('\x22' :: rest) (Piece.string '\x22' rest) := by
  have hbody : '\x22' ∉ rest.takeWhile (!isQuote ·) := not_isQuote_iff.1 pos_of_mem_takeWhile
  have hrest : rest.takeWhile (!isQuote ·) ++ rest.dropWhile (!isQuote ·) = rest :=
    List.takeWhile_append_dropWhile
  unfold Piece.string
  cases hdrop : rest.dropWhile (!isQuote ·) with
  | nil =>
    rw [hdrop, List.append_nil] at hrest
    conv => lhs; rw [← hrest]
    exact munch_openString hbody
  | cons close tail =>
    have hclose := List.head?_dropWhile_not (!isQuote ·) rest
    rw [hdrop] at hclose hrest
    obtain rfl : close = '\x22' := by simpa [isQuote] using hclose
    conv => lhs; rw [← hrest]
    exact munch_closedString hbody

/-! ## Symbols -/

/-- What a symbol can be in front of a text: one character or two. -/
theorem exists_symbol_of_prefix {l : PieceKind} {w : List Char} (hc : Lead.of c = .mark)
    (hslash : ¬ (c = '/' ∧ rest.head? = some '/')) (hw : w <+: c :: rest) (h : l.Matches w) :
    (w = [c] ∨ w = c :: rest.take 1) ∧ ∃ k, symbol? w = some k := by
  obtain ⟨_, body, _, rfl⟩ | ⟨t, ht, _, rfl⟩ := h.mark ((h.lead_of_prefix hw).trans hc)
  · obtain ⟨rfl, hrest⟩ := List.cons_prefix_cons.1 hw
    obtain ⟨tail, rfl⟩ := hrest
    exact absurd ⟨rfl, rfl⟩ hslash
  · refine ⟨?_, t, symbol?_spelling t ht⟩
    have hsymbol := isSymbol_spelling t ht
    match hspelling : t.spelling with
    | [] | _ :: _ :: _ :: _ => simp [hspelling, isSymbol] at hsymbol
    | [d] =>
      rw [hspelling] at hw
      exact .inl (by rw [(List.cons_prefix_cons.1 hw).1])
    | [d, e] =>
      rw [hspelling] at hw
      obtain ⟨rfl, tail, rfl⟩ := List.cons_prefix_cons.1 hw
      exact .inr rfl

theorem munch_symbol (hc : Lead.of c = .mark) (hslash : ¬ (c = '/' ∧ rest.head? = some '/')) :
    Munch (c :: rest) (Piece.symbol c rest) := by
  have hcases {l : PieceKind} {w : List Char} (hw : w <+: c :: rest) (h : l.Matches w) :=
    exists_symbol_of_prefix hc hslash hw h
  have hmatch {k : TokenKind} {w : List Char} (h : symbol? w = some k) :
      (PieceKind.token k).Matches w := by
    obtain ⟨hne, hspelling⟩ := spelling_of_symbol? h
    conv => rhs; rw [← hspelling]
    exact .spelled hne
  have hspelled {k : TokenKind} {w : List Char} (h : symbol? w = some k) :
      ∀ t : TokenKind, t.spelling ≠ [] → t.spelling = w → PieceKind.token k = .token t := by
    intro t ht hw
    rw [TokenKind.spelling_injective (hw.trans (spelling_of_symbol? h).2.symm) ht]
  unfold Piece.symbol
  cases hpair : symbol? (c :: rest.take 1) with
  | some k =>
    refine .longest ((List.prefix_cons_inj c).2 (List.take_prefix 1 rest)) (hmatch hpair) ?_
      (hspelled hpair)
    intro l w hw h
    obtain ⟨rfl | rfl, _⟩ := hcases hw h
    · simp
    · exact Nat.le_refl _
  | none =>
    have hsingle {l : PieceKind} {w : List Char} (hw : w <+: c :: rest) (h : l.Matches w) :
        w = [c] ∧ ∃ k, symbol? w = some k := by
      obtain ⟨rfl | rfl, k, hk⟩ := hcases hw h
      · exact ⟨rfl, k, hk⟩
      · exact nomatch hpair.symm.trans hk
    cases hone : symbol? [c] with
    | some k =>
      refine .longest ⟨rest, rfl⟩ (hmatch hone) ?_ (hspelled hone)
      intro l w hw h
      exact Nat.le_of_eq (congrArg List.length (hsingle hw h).1)
    | none =>
      refine .stray rfl fun l w hw h => ?_
      obtain ⟨rfl, k, hk⟩ := hsingle hw h
      exact nomatch hone.symm.trans hk

/-! ## All characters -/

/-- What is read of a text first is its longest match. -/
theorem munch_first (c : Char) (rest : List Char) : Munch (c :: rest) (Piece.first c rest) := by
  unfold Piece.first
  split
  · next hc => exact munch_blanks hc
  next hblank =>
  split
  · next hcomment =>
    obtain ⟨rfl, hrest⟩ : c = '/' ∧ rest.head? = some '/' := by simpa using hcomment
    obtain ⟨tail, rfl⟩ := List.head?_eq_some_iff.1 hrest
    exact munch_comment
  next hcomment =>
  split
  · next hc => exact munch_word hc
  next hword =>
  split
  · next hc => exact munch_number hc
  next hdigit =>
  split
  · next hc =>
    obtain rfl : c = '\x22' := eq_of_beq hc
    exact munch_string
  next hquote =>
  exact munch_symbol (by simp [Lead.of, hblank, hword, hdigit, hquote]) (by simpa using hcomment)

end LoxSyntax
