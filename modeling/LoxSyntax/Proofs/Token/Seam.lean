import LoxSyntax.Proofs.Reading.Relined
import LoxSyntax.Proofs.Token.Spelling

/-!
# Two texts on separate lines

Nothing goes on over the end of a line but a string and a run of blanks.  Where a text leaves no
string open, the text on the lines behind it is scanned as if it stood alone, on later lines.

* `visible` — the pieces of a text that are no blanks, with their lines.
* `Piece.first_append` — a piece in front of a further line.
* **`visible_append`** — the pieces of two texts on separate lines.
* **`scan_append`** — their tokens and errors.
-/

namespace LoxSyntax

/-! ## Lines -/

@[simp] theorem lineAfter_nil (line : UInt32) : lineAfter line [] = line :=
  UInt32.add_zero line

theorem lineAfter_lineAfter (line : UInt32) (text more : List Char) :
    lineAfter (lineAfter line text) more = lineAfter line (text ++ more) := by
  simp only [lineAfter, newlines, List.count_append, UInt32.ofNat_add, UInt32.add_assoc]

theorem lineAfter_add (line k : UInt32) (text : List Char) :
    lineAfter (line + k) text = lineAfter line text + k := by
  simp only [lineAfter, UInt32.add_assoc, UInt32.add_comm k]

/-- What begins on a later line lies on later lines. -/
theorem located_add (line k : UInt32) (ps : List Piece) :
    located (line + k) ps = (located line ps).map fun p => (p.1, p.2 + k) := by
  induction ps generalizing line with
  | nil => rfl
  | cons p ps ih => rw [located, located, lineAfter_add, ih, List.map_cons]

/-! ## Visible pieces -/

/-- The pieces of a text but the blanks, with the lines they begin on, the first one on `line`. -/
def visible (line : UInt32) (text : List Char) : List (Piece × UInt32) :=
  (located line (pieces text)).filter fun p => p.1.kind != .blanks

theorem visible_add (line k : UInt32) (text : List Char) :
    visible (line + k) text = (visible line text).map fun p => (p.1, p.2 + k) := by
  rw [visible, located_add, List.filter_map, visible]
  rfl

/-- The blanks that a text begins with only move the lines. -/
theorem visible_dropWhile (line : UInt32) (text : List Char) :
    visible (lineAfter line (text.takeWhile isBlank)) (text.dropWhile isBlank) =
      visible line text := by
  cases text with
  | nil => rfl
  | cons c rest =>
    by_cases hc : isBlank c
    · rw [List.takeWhile_cons_of_pos hc, List.dropWhile_cons_of_pos hc, visible, visible,
        pieces_blank hc, located, List.filter_cons_of_neg (by simp)]
    · rw [List.takeWhile_cons_of_neg hc, List.dropWhile_cons_of_neg hc, lineAfter_nil]

theorem visible_blank {c : Char} (hc : isBlank c) (line : UInt32) (rest : List Char) :
    visible line (c :: rest) = visible (lineAfter line [c]) rest := by
  rw [← visible_dropWhile line, ← visible_dropWhile (lineAfter line [c]), lineAfter_lineAfter,
    List.takeWhile_cons_of_pos hc, List.dropWhile_cons_of_pos hc]
  rfl

/-- Only a blank begins blanks. -/
theorem Piece.first_kind_ne {c : Char} (hc : isBlank c = false) (rest : List Char) :
    (Piece.first c rest).kind ≠ .blanks := by
  simp only [Piece.first, hc, Bool.false_eq_true, ↓reduceIte, Piece.number, Piece.string,
    Piece.symbol]
  repeat' split
  all_goals simp

theorem visible_cons {c : Char} (hc : isBlank c = false) (line : UInt32) (rest : List Char) :
    visible line (c :: rest) = (Piece.first c rest, line) ::
      visible (lineAfter line (Piece.first c rest).text)
        ((c :: rest).drop (Piece.first c rest).text.length) := by
  rw [visible, pieces_cons, located,
    List.filter_cons_of_pos (by simpa using Piece.first_kind_ne hc rest), visible]

/-! ## At the end of a line -/

section Seam

variable {x : Char} (rest more : List Char)

theorem takeWhile_append_stop {p : Char → Bool} (hx : p x = false) :
    (rest ++ x :: more).takeWhile p = rest.takeWhile p := by
  induction rest with
  | nil => simp [hx]
  | cons c rest ih => simp only [List.cons_append, List.takeWhile_cons, ih]

theorem dropWhile_append_stop {p : Char → Bool} (hx : p x = false) :
    (rest ++ x :: more).dropWhile p = rest.dropWhile p ++ x :: more := by
  induction rest with
  | nil => simp [hx]
  | cons c rest ih =>
    simp only [List.cons_append, List.dropWhile_cons, ih]
    split <;> rfl

theorem fraction_append : fraction (rest ++ '\n' :: more) = fraction rest := by
  match rest with
  | [] => cases more <;> rfl
  | [point] =>
    have hdigit : Char.isDigit '\n' = false := by decide
    simp [fraction, hdigit]
  | point :: digit :: rest =>
    simp only [List.cons_append, fraction, takeWhile_append_stop rest more (p := Char.isDigit)
      (x := '\n') (by decide)]

/-- What stops within some elements stops there in front of any others. -/
theorem takeWhile_append_of_dropWhile {p : Char → Bool} (h : rest.dropWhile p ≠ []) :
    (rest ++ more).takeWhile p = rest.takeWhile p ∧
      (rest ++ more).dropWhile p = rest.dropWhile p ++ more := by
  induction rest with
  | nil => exact absurd rfl h
  | cons c rest ih =>
    by_cases hc : p c
    · rw [List.dropWhile_cons_of_pos hc] at h
      simpa [hc] using ih h
    · simp [hc]

namespace Piece

/-- A string that is closed ends where it is closed. -/
theorem string_append {c : Char} (hopen : (Piece.string c rest).kind ≠ .openString) :
    Piece.string c (rest ++ more) = Piece.string c rest := by
  have hclosed : rest.dropWhile (!isQuote ·) ≠ [] := by
    intro hnil
    simp [Piece.string, hnil] at hopen
  obtain ⟨htake, hdrop⟩ := takeWhile_append_of_dropWhile rest more hclosed
  simp only [Piece.string, htake, hdrop]
  cases hrest : rest.dropWhile (!isQuote ·) with
  | nil => exact absurd hrest hclosed
  | cons close tail => rfl

/-- No symbol goes on over the end of a line. -/
theorem symbol_append (c : Char) :
    Piece.symbol c (rest ++ '\n' :: more) = Piece.symbol c rest := by
  cases rest with
  | nil =>
    have hpair : symbol? [c, '\n'] = none := symbol?_pair (by decide)
    cases hfound : symbol? [c] <;> simp [Piece.symbol, hpair, hfound]
  | cons d rest => rfl

theorem number_append (c : Char) :
    Piece.number c (rest ++ '\n' :: more) = Piece.number c rest := by
  have hdigit : Char.isDigit '\n' = false := by decide
  simp only [Piece.number, takeWhile_append_stop rest more hdigit,
    dropWhile_append_stop rest more hdigit, fraction_append]

/-- A piece that is no open string is the same in front of a further line. -/
theorem first_append {c : Char} (hc : isBlank c = false)
    (hopen : (Piece.first c rest).kind ≠ .openString) :
    Piece.first c (rest ++ '\n' :: more) = Piece.first c rest := by
  have hhead : ((rest ++ '\n' :: more).head? == some '/') = (rest.head? == some '/') := by
    cases rest <;> rfl
  have hcomment : (rest ++ '\n' :: more).takeWhile (· != '\n') = rest.takeWhile (· != '\n') :=
    takeWhile_append_stop rest more rfl
  have hword : (rest ++ '\n' :: more).takeWhile isWordPart = rest.takeWhile isWordPart :=
    takeWhile_append_stop rest more (by decide)
  simp only [Piece.first, hc, hhead, hcomment, hword, number_append, symbol_append,
    Bool.false_eq_true, ↓reduceIte] at hopen ⊢
  split
  · rfl
  split
  · rfl
  split
  · rfl
  split
  · -- a string, which is closed
    refine string_append rest _ ?_
    simp_all
  · rfl

end Piece

end Seam

/-- The pieces of two texts on separate lines, if the first one leaves no string open. -/
theorem visible_append (line : UInt32) (text more : List Char)
    (hopen : ∀ p ∈ visible line text, p.1.kind ≠ .openString) :
    visible line (text ++ '\n' :: more) =
      visible line text ++ visible (lineAfter line (text ++ ['\n'])) more := by
  -- on the length of the first text: a blank at its front is left out, or else a piece
  generalize hn : text.length = n
  induction n using Nat.strongRecOn generalizing line text with
  | ind n ih =>
    subst hn
    match text with
    | [] => exact visible_blank (by decide) line more
    | c :: rest =>
      by_cases hc : isBlank c
      · rw [visible_blank hc] at hopen ⊢
        rw [List.cons_append, visible_blank hc,
          ih rest.length (Nat.lt_succ_self _) _ rest hopen rfl, lineAfter_lineAfter]
        rfl
      · rw [Bool.not_eq_true] at hc
        rw [visible_cons hc] at hopen
        obtain ⟨hfirst, hrest⟩ := List.forall_mem_cons.1 hopen
        have hprefix := Piece.first_isPrefix c rest
        have hpos := List.length_pos_iff.2 (Piece.first_text_ne_nil c rest)
        have hlines : (Piece.first c rest).text ++
            (c :: rest).drop (Piece.first c rest).text.length = c :: rest :=
          List.prefix_iff_eq_append.1 hprefix
        rw [List.cons_append, visible_cons hc, visible_cons hc,
          Piece.first_append rest more hc hfirst, ← List.cons_append,
          List.drop_append_of_le_length hprefix.length_le,
          ih _ (by simp only [List.length_drop, List.length_cons]; omega) _ _ hrest rfl,
          lineAfter_lineAfter, ← List.append_assoc, hlines]
        rfl

/-! ## Tokens -/

theorem scan_tokens_eq (text : String) :
    (scan text).tokens.takeWhile (·.kind != .eof) =
      (visible 1 text.toList).filterMap fun p => p.1.token? p.2 := by
  rw [takeWhile_scan, visible, List.filterMap_filter]
  congr 1
  funext ⟨⟨kind, text⟩, line⟩
  cases kind <;> simp [Piece.token?]

theorem scan_errors_eq (text : String) :
    (scan text).errors = (visible 1 text.toList).filterMap fun p => p.1.error? p.2 := by
  show (located 1 (pieces text.toList)).filterMap _ = _
  rw [visible, List.filterMap_filter]
  congr 1
  funext ⟨⟨kind, text⟩, line⟩
  cases kind <;> simp [Piece.error?, Piece.problem?]

/-- A text without errors leaves no string open. -/
theorem kind_ne_openString_of_errors {text : String} (h : (scan text).errors = []) :
    ∀ p ∈ visible 1 text.toList, p.1.kind ≠ .openString := by
  intro p hp hkind
  rw [scan_errors_eq, List.filterMap_eq_nil_iff] at h
  have hnone := h p hp
  simp [Piece.error?, Piece.problem?, hkind] at hnone

theorem Piece.token?_add (p : Piece) (line k : UInt32) :
    p.token? (line + k) = (p.token? line).map (Token.relined (· + k)) := by
  obtain ⟨kind, text⟩ := p
  cases kind <;> rfl

theorem Piece.error?_eq_none {p : Piece} {line line' : UInt32} (h : p.error? line = none) :
    p.error? line' = none := by
  simpa [Piece.error?] using h

/-- A text without errors in front of another one on a separate line: the tokens of both, the second
ones on later lines, and no errors if the second one has none. -/
theorem scan_append {a b : String} (ha : (scan a).errors = []) (hb : (scan b).errors = []) :
    let behind := UInt32.ofNat (1 + newlines a.toList)
    (scan (a ++ "\n" ++ b)).errors = [] ∧
      (scan (a ++ "\n" ++ b)).tokens.takeWhile (·.kind != .eof) =
        (scan a).tokens.takeWhile (·.kind != .eof) ++
          ((scan b).tokens.takeWhile (·.kind != .eof)).map (Token.relined (· + behind)) := by
  intro behind
  have htext : (a ++ "\n" ++ b).toList = a.toList ++ '\n' :: b.toList := by simp
  have hline : lineAfter 1 (a.toList ++ ['\n']) = 1 + behind := by
    simp [lineAfter, newlines, behind, Nat.add_comm]
  have hvisible := visible_append 1 a.toList b.toList (kind_ne_openString_of_errors ha)
  rw [hline, visible_add] at hvisible
  rw [scan_errors_eq] at ha hb
  rw [scan_errors_eq, scan_tokens_eq, scan_tokens_eq, scan_tokens_eq, htext, hvisible,
    List.filterMap_append, List.filterMap_append, ha]
  constructor
  · rw [List.filterMap_map, List.nil_append, List.filterMap_eq_nil_iff]
    rw [List.filterMap_eq_nil_iff] at hb
    exact fun p hp => Piece.error?_eq_none (hb p hp)
  · rw [List.filterMap_map, List.map_filterMap]
    congr 2
    funext p
    exact p.1.token?_add p.2 behind

end LoxSyntax
