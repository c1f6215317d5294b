import Mathlib.Data.List.TakeWhile
import LoxSyntax.Proofs.Munch.Scan
import LoxSyntax.Proofs.Source.Concatenation
import LoxSyntax.Text.Line

/-!
# Programs line by line

A text whose lines are programs is the program of all their statements.  No string is open at the
end of such a line, and no statement goes on over it.

* `LinesOf` — a text and its lines.
* `exists_openString_newline` — a string that is open at the end of a line stays open.
* `Program.Stands` — tokens that are read as a program.
* **`Program.ofText_line`** — a line that is a program in front of a text that is one.
-/

namespace LoxSyntax

/-! ## Lines -/

/-- A text and its lines: each ends with its newline, but the last one may lack it. -/
inductive LinesOf : List Char → List (List Char) → Prop
  | nil : LinesOf [] []
  | last {line} (hne : line ≠ []) (hline : '\n' ∉ line) : LinesOf line [line]
  | cons {line rest lines} (hline : '\n' ∉ line) (hrest : LinesOf rest lines) :
      LinesOf (line ++ '\n' :: rest) ((line ++ ['\n']) :: lines)

theorem linesOf_splitLines (text : List Char) : LinesOf text (splitLines text) := by
  induction text with
  | nil => exact .nil
  | cons c rest ih =>
    rw [splitLines]
    split
    · next hc =>
      subst hc
      exact @LinesOf.cons [] rest _ List.not_mem_nil ih
    · next hc =>
      have hcons : ∀ {line : List Char}, '\n' ∉ line → '\n' ∉ c :: line := by
        simp [Ne.symm hc]
      generalize splitLines rest = lines at ih
      cases ih with
      | nil => exact .last (List.cons_ne_nil _ _) (hcons List.not_mem_nil)
      | last _ hline => exact .last (List.cons_ne_nil _ _) (hcons hline)
      | cons hline hrest => exact .cons (hcons hline) hrest

theorem splitLines_last {line : List Char} (hne : line ≠ []) (hline : '\n' ∉ line) :
    splitLines line = [line] := by
  induction line with
  | nil => exact absurd rfl hne
  | cons c line ih =>
    simp only [List.mem_cons, not_or] at hline
    rw [splitLines, if_neg (Ne.symm hline.1)]
    cases line with
    | nil => rfl
    | cons d line => rw [ih (List.cons_ne_nil _ _) hline.2]

theorem splitLines_append_newline {line : List Char} (hline : '\n' ∉ line) (rest : List Char) :
    splitLines (line ++ '\n' :: rest) = (line ++ ['\n']) :: splitLines rest := by
  induction line with
  | nil => rw [List.nil_append, splitLines, if_pos rfl, List.nil_append]
  | cons c line ih =>
    simp only [List.mem_cons, not_or] at hline
    rw [List.cons_append, splitLines, if_neg (Ne.symm hline.1), ih hline.2]
    rfl

/-- A text has its lines in one way only. -/
theorem linesOf_iff {text : List Char} {lines : List (List Char)} :
    LinesOf text lines ↔ lines = splitLines text := by
  refine ⟨fun h => ?_, fun h => h ▸ linesOf_splitLines text⟩
  induction h with
  | nil => rfl
  | last hne hline => exact (splitLines_last hne hline).symm
  | cons hline _ ih => rw [splitLines_append_newline hline, ih]

/-- A newline can only be the last character of a line. -/
theorem LinesOf.newline_notMem {text : List Char} {lines : List (List Char)}
    (h : LinesOf text lines) : ∀ line ∈ lines, '\n' ∉ line.dropLast := by
  induction h with
  | nil => simp
  | last _ hline => simpa using fun hmem => hline (List.dropLast_subset _ hmem)
  | cons hline _ ih => simpa [hline] using ih

/-! ## Open strings -/

/-- A string is open where no quote stands behind the first one. -/
theorem Piece.kind_first_eq_openString {c : Char} {rest : List Char} :
    (Piece.first c rest).kind = .openString ↔ c = '\x22' ∧ '\x22' ∉ rest := by
  have hquote : rest.dropWhile (!isQuote ·) = [] ↔ '\x22' ∉ rest := by
    rw [List.dropWhile_eq_nil_iff]
    exact not_isQuote_iff
  have hstring : (Piece.string c rest).kind = .openString ↔ '\x22' ∉ rest := by
    rw [← hquote]
    simp only [Piece.string]
    split
    · next hdrop => simp [hdrop]
    · next hdrop => simp [hdrop]
  constructor
  · intro h
    simp only [Piece.first, Piece.number] at h
    split at h
    · cases h
    split at h
    · cases h
    split at h
    · cases h
    split at h
    · cases h
    split at h
    · next hc => exact ⟨by simpa [isQuote] using hc, hstring.1 h⟩
    · simp only [Piece.symbol] at h
      split at h
      · cases h
      · split at h <;> cases h
  · rintro ⟨rfl, hrest⟩
    exact hstring.2 hrest

/-- A string that is open at the end of a line stays open. -/
theorem exists_openString_newline {line : UInt32} {text : List Char}
    (h : ∃ p ∈ visible line text, p.1.kind = .openString) :
    ∃ p ∈ visible line (text ++ ['\n']), p.1.kind = .openString := by
  -- on the length of the text, as its pieces are told apart
  generalize hn : text.length = n
  induction n using Nat.strongRecOn generalizing line text with
  | ind n ih =>
    subst hn
    match text with
    | [] =>
      obtain ⟨p, hp, -⟩ := h
      exact absurd hp List.not_mem_nil
    | c :: rest =>
      by_cases hc : isBlank c
      · rw [visible_blank hc] at h
        rw [List.cons_append, visible_blank hc]
        exact ih rest.length (Nat.lt_succ_self _) h rfl
      rw [Bool.not_eq_true] at hc
      rw [List.cons_append, visible_cons hc]
      by_cases hopen : (Piece.first c rest).kind = .openString
      · obtain ⟨hquote, hrest⟩ := Piece.kind_first_eq_openString.1 hopen
        exact ⟨_, List.mem_cons_self,
          Piece.kind_first_eq_openString.2 ⟨hquote, by simpa using hrest⟩⟩
      · have hpos := List.length_pos_iff.2 (Piece.first_text_ne_nil c rest)
        rw [visible_cons hc] at h
        obtain ⟨p, hp, hkind⟩ := h
        obtain rfl | hp := List.mem_cons.1 hp
        · exact absurd hkind hopen
        obtain ⟨q, hq, hqkind⟩ := ih _ (by simp only [List.length_drop, List.length_cons]; omega)
          ⟨p, hp, hkind⟩ rfl
        refine ⟨q, List.mem_cons_of_mem _ ?_, hqkind⟩
        rwa [Piece.first_append rest [] hc hopen, ← List.cons_append,
          List.drop_append_of_le_length (Piece.first_isPrefix c rest).length_le]

/-- A line without errors has none without its newline either, and the same tokens. -/
theorem scan_newline {a : String} (h : (scan (a ++ "\n")).errors = []) :
    (scan a).errors = [] ∧
      (scan (a ++ "\n")).tokens.takeWhile (·.kind != .eof) =
        (scan a).tokens.takeWhile (·.kind != .eof) := by
  have hclosed : ∀ p ∈ visible 1 a.toList, p.1.kind ≠ .openString := by
    intro p hp hkind
    obtain ⟨q, hq, hqkind⟩ := exists_openString_newline ⟨p, hp, hkind⟩
    exact kind_ne_openString_of_errors h q (by simpa using hq) hqkind
  have hvisible : visible 1 (a ++ "\n").toList = visible 1 a.toList := by
    have hseam := visible_append 1 a.toList [] hclosed
    rw [String.toList_append]
    exact hseam.trans (List.append_nil _)
  rw [scan_errors_eq, hvisible] at h
  rw [scan_tokens_eq, scan_tokens_eq, scan_errors_eq, hvisible]
  exact ⟨h, rfl⟩

/-! ## Programs in a row -/

/-- The tokens are read as this program, all of them and without a complaint. -/
def Program.Stands (m : Nat) (ts : List Token) (p : Program) : Prop :=
  ∀ endLine : UInt32, ∃ ev, problemsOf ev = [] ∧
    Stmt.Reads endLine m (.declarations .eof) ts p [] ev

/-- On what line the tokens end makes no difference. -/
theorem Stmt.Reads.stands_program {endLine : UInt32} {m : Nat} {ts : List Token} {p : Program}
    {ev : List Event} (h : Stmt.Reads endLine m (.declarations .eof) ts p [] ev)
    (hev : problemsOf ev = []) : Program.Stands m ts p := by
  intro endLine'
  obtain ⟨used, ev', hused, hev', hreads⟩ := h.retail
    (unbroken_of_clean (problemsOf_eq_nil.1 hev)) endLine' (Nat.le_refl m) [] ⟨.inl rfl, by simp⟩
  rw [List.append_nil] at hused hreads
  rw [← hused] at hreads
  exact ⟨ev', hev'.trans hev, hreads⟩

namespace Program

namespace Stands

variable {m : Nat} {ts us : List Token} {p q : Program}

theorem relined (f : UInt32 → UInt32) (h : Stands m ts p) :
    Stands m (ts.map (Token.relined f)) (Program.relined f p) := by
  obtain ⟨ev, hev, hreads⟩ := h 0
  exact (hreads.relined f).stands_program
    (problemsOf_eq_nil.2 (clean_relined f (problemsOf_eq_nil.1 hev)))

/-- No program begins with an `else` that the one in front of it could take. -/
theorem append (h : Stands m ts p) (h' : Stands m us q) : Stands m (ts ++ us) (p ++ q) := by
  intro endLine
  obtain ⟨ev, hev, hfirst⟩ := h endLine
  obtain ⟨ev', hev', hrest⟩ := h' endLine
  have helse := hrest.nextKind_ne_else (unbroken_of_clean (problemsOf_eq_nil.1 hev')) (by simp)
  obtain ⟨ev₁, hev₁, hwhole⟩ :=
    hfirst.append (unbroken_of_clean (problemsOf_eq_nil.1 hev)) (Nat.le_refl m) hrest helse
  exact ⟨ev₁ ++ ev', by simp [hev₁, hev, hev'], hwhole⟩

end Stands

/-- A text is a program where its tokens are. -/
theorem ofText_eq_ok_iff_stands {ceiling : Nat} {text : String} {p : Program} :
    ofText ceiling text = .ok p ↔ (scan text).errors = [] ∧
      Stands ceiling ((scan text).tokens.takeWhile (·.kind != .eof)) p := by
  rw [ofText_eq_ok_iff]
  refine and_congr_right fun _ => ⟨?_, fun h => ?_⟩
  · rintro ⟨ev, hclean, hreads⟩
    exact hreads.stands_program (problemsOf_eq_nil.2 hclean)
  · obtain ⟨ev, hev, hreads⟩ := h (Place.ofTokens (scan text).tokens).endLine
    exact ⟨ev, problemsOf_eq_nil.1 hev, hreads⟩

theorem ofText_nil (ceiling : Nat) : ofText ceiling "" = .ok [] :=
  ofText_eq_ok_iff_stands.2 ⟨rfl, fun _ => ⟨[], rfl, .done (.inl rfl)⟩⟩

/-- A line that is a program, its newline included, and more text that is one: together they are the
program of the line and the other one, on later lines. -/
theorem ofText_line {ceiling : Nat} {a b : String} {p q : Program}
    (hp : ofText ceiling (a ++ "\n") = .ok p) (hq : ofText ceiling b = .ok q) :
    ofText ceiling (a ++ "\n" ++ b) =
      .ok (p ++ relined (· + UInt32.ofNat (1 + newlines a.toList)) q) := by
  rw [ofText_eq_ok_iff_stands] at hp hq
  obtain ⟨hscan, hline⟩ := hp
  obtain ⟨hscanB, hrest⟩ := hq
  obtain ⟨hscanA, htokens⟩ := scan_newline hscan
  obtain ⟨herrors, hall⟩ := scan_append hscanA hscanB
  rw [htokens] at hline
  refine ofText_eq_ok_iff_stands.2 ⟨herrors, ?_⟩
  rw [hall]
  exact hline.append (hrest.relined _)

end Program

end LoxSyntax
