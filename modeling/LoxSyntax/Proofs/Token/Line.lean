import Mathlib.Data.List.Basic
import LoxSyntax.Proofs.Munch.Scan
import LoxSyntax.Proofs.Token.Seam

/-!
# The lines of tokens and errors

A piece of a text begins on the line that is told by the newlines in front of it, whatever these
stand in: blanks, comments, strings or characters that fit nothing.  Lines are counted piece by
piece; as long as there are fewer of them than numbers, the count is exact, and nothing that comes
later in the text lies on an earlier line.

* `placed` — pieces, each with the text in front of it.
* `Scan.LiesOn` — a scan whose tokens and errors lie where their pieces begin.
* `placed_isPrefix`, `pairwise_placed` — where the pieces of a text stand in it.
* `toNat_lineAfter` — lines are numbers as long as they fit.
* **`scan_liesOn`** — the lines of a text with fewer than `2³² - 1` newlines are exact.
-/

namespace LoxSyntax

/-! ## Pieces and what stands in front of them -/

/-- Pieces, each with the text in front of it, the first one behind `before`. -/
def placed (before : List Char) : List Piece → List (List Char × Piece)
  | [] => []
  | p :: ps => (before, p) :: placed (before ++ p.text) ps

theorem placed_snd (before : List Char) (ps : List Piece) :
    (placed before ps).map Prod.snd = ps := by
  induction ps generalizing before with
  | nil => rfl
  | cons p ps ih => rw [placed, List.map_cons, ih]

/-- A piece stands in the text, between what is in front of it and what is left. -/
theorem placed_isPrefix {before : List Char} {ps : List Piece} {q : List Char × Piece}
    (h : q ∈ placed before ps) :
    before <+: q.1 ∧ q.1 ++ q.2.text <+: before ++ (ps.map Piece.text).flatten := by
  induction ps generalizing before with
  | nil => exact absurd h List.not_mem_nil
  | cons p ps ih =>
    rw [List.map_cons, List.flatten_cons, ← List.append_assoc]
    rcases List.mem_cons.1 h with rfl | h
    · exact ⟨List.prefix_rfl, List.prefix_append ..⟩
    · obtain ⟨hbefore, hbehind⟩ := ih h
      exact ⟨(List.prefix_append ..).trans hbefore, hbehind⟩

/-- What stands in front of a piece stands in front of all later ones. -/
theorem pairwise_placed (before : List Char) (ps : List Piece) :
    (placed before ps).Pairwise fun q r => q.1 <+: r.1 := by
  induction ps generalizing before with
  | nil => exact .nil
  | cons p ps ih =>
    refine .cons (fun r hr => ?_) (ih _)
    exact (List.prefix_append ..).trans (placed_isPrefix hr).1

/-! ## Lines -/

/-- Counting goes on behind what has been counted. -/
theorem located_lineAfter (before : List Char) (ps : List Piece) :
    located (lineAfter 1 before) ps =
      (placed before ps).map fun q => (q.2, lineAfter 1 q.1) := by
  induction ps generalizing before with
  | nil => rfl
  | cons p ps ih => rw [located, placed, lineAfter_lineAfter, ih, List.map_cons]

/-- A line that fits is one more than the newlines in front of it. -/
theorem toNat_lineAfter {text : List Char} (h : newlines text < UInt32.size - 1) :
    (lineAfter 1 text).toNat = 1 + newlines text := by
  have hone : UInt32.toNat 1 = 1 := rfl
  have hsize : UInt32.size = 4294967296 := rfl
  rw [lineAfter, UInt32.toNat_add, UInt32.toNat_ofNat', hone]
  omega

theorem newlines_le_of_isPrefix {w text : List Char} (h : w <+: text) :
    newlines w ≤ newlines text :=
  h.sublist.count_le '\n'

/-! ## What a scan shows -/

/-- The tokens and the errors of a text, in the order of the places that its pieces have in it, each
on the line where its piece begins. -/
structure Scan.LiesOn (s : Scan) (text : List Char) (places : List (List Char × Piece)) : Prop where
  /-- The pieces are the longest matches that the text is split into. -/
  split : Split text (places.map Prod.snd)
  /-- Each of them stands in the text where it is said to. -/
  stands : ∀ q ∈ places, ∃ after, text = q.1 ++ (q.2.text ++ after)
  tokens : s.tokens.map (fun t => (t.kind, t.lexeme.toList, t.line.toNat)) =
    places.filterMap (fun q => q.2 |> Piece.entry? |>.map fun entry =>
      (entry.1, entry.2, 1 + newlines q.1)) ++ [(.eof, [], 1 + newlines text)]
  errors : s.errors.map (fun e => (e.message, e.line.toNat)) =
    places.filterMap fun q => q.2.complaint?.map fun message => (message, 1 + newlines q.1)
  tokens_sorted : s.tokens.Pairwise fun t u => t.line ≤ u.line
  errors_sorted : s.errors.Pairwise fun e f => e.line ≤ f.line

section Scan

variable (text : String)

theorem located_pieces : located 1 (pieces text.toList) =
    (placed [] (pieces text.toList)).map fun q => (q.2, lineAfter 1 q.1) := by
  rw [← located_lineAfter, lineAfter_nil]

theorem scan_tokens_placed :
    (scan text).tokens =
      (placed [] (pieces text.toList)).filterMap (fun q => q.2.token? (lineAfter 1 q.1)) ++
        [Token.eof (lineAfter 1 text.toList)] := by
  rw [scan, located_pieces, List.filterMap_map]
  rfl

theorem scan_errors_placed :
    (scan text).errors =
      (placed [] (pieces text.toList)).filterMap fun q => q.2.error? (lineAfter 1 q.1) := by
  rw [scan, located_pieces]
  exact List.filterMap_map

end Scan

theorem Piece.map_token?_line (p : Piece) (line : UInt32) :
    (p.token? line).map (fun t => (t.kind, t.lexeme.toList, t.line.toNat)) =
      Option.map (fun entry => (entry.1, entry.2, line.toNat)) p.entry? := by
  obtain ⟨kind, text⟩ := p
  cases kind <;> simp [token?, entry?]

theorem Piece.map_error?_line (p : Piece) (line : UInt32) :
    (p.error? line).map (fun e => (e.message, e.line.toNat)) =
      p.complaint?.map fun message => (message, line.toNat) := by
  obtain ⟨kind, text⟩ := p
  cases kind <;> rfl

theorem Piece.line_of_token? {p : Piece} {line : UInt32} {t : Token} (h : p.token? line = some t) :
    t.line = line := by
  unfold token? at h
  split at h
  · cases h
    rfl
  · cases h

theorem Piece.line_of_error? {p : Piece} {line : UInt32} {e : SyntaxError}
    (h : p.error? line = some e) : e.line = line := by
  obtain ⟨problem, -, rfl⟩ := Option.map_eq_some_iff.1 h
  rfl

/-! ## Exact lines -/

section Exact

variable {text : String}

/-- A piece of a text stands between what is in front of it and what is left. -/
theorem exists_after_of_mem_placed {q : List Char × Piece}
    (h : q ∈ placed [] (pieces text.toList)) :
    ∃ after, text.toList = q.1 ++ (q.2.text ++ after) := by
  obtain ⟨after, hafter⟩ := (placed_isPrefix h).2
  rw [List.nil_append, pieces_flatten, List.append_assoc] at hafter
  exact ⟨after, hafter.symm⟩

variable (hfits : newlines text.toList < UInt32.size - 1)

include hfits

/-- No line of a piece is lost by being too large. -/
theorem toNat_line_of_mem_placed {q : List Char × Piece}
    (h : q ∈ placed [] (pieces text.toList)) : (lineAfter 1 q.1).toNat = 1 + newlines q.1 := by
  obtain ⟨after, hafter⟩ := exists_after_of_mem_placed h
  have hle : newlines q.1 ≤ newlines text.toList :=
    newlines_le_of_isPrefix (hafter ▸ List.prefix_append ..)
  exact toNat_lineAfter (Nat.lt_of_le_of_lt hle hfits)

/-- What stands later lies on a later line or on the same one. -/
theorem pairwise_lineAfter : (placed [] (pieces text.toList)).Pairwise fun q r =>
    lineAfter 1 q.1 ≤ lineAfter 1 r.1 := by
  refine (pairwise_placed [] _).imp_of_mem fun hq hr hprefix => ?_
  rw [UInt32.le_iff_toNat_le, toNat_line_of_mem_placed hfits hq, toNat_line_of_mem_placed hfits hr]
  exact Nat.add_le_add_left (newlines_le_of_isPrefix hprefix) 1

/-- In a text with fewer newlines than there are numbers of lines, every token and every error lies
on the line that the newlines in front of it tell. -/
theorem scan_liesOn : (scan text).LiesOn text.toList (placed [] (pieces text.toList)) where
  split := by
    rw [placed_snd]
    exact split_pieces text.toList
  stands q hq := exists_after_of_mem_placed hq
  tokens := by
    rw [scan_tokens_placed, List.map_append, List.map_filterMap, List.map_singleton, Token.eof,
      toNat_lineAfter hfits]
    congr 1
    refine List.filterMap_congr fun q hq => ?_
    rw [Piece.map_token?_line, toNat_line_of_mem_placed hfits hq]
  errors := by
    rw [scan_errors_placed, List.map_filterMap]
    refine List.filterMap_congr fun q hq => ?_
    rw [Piece.map_error?_line, toNat_line_of_mem_placed hfits hq]
  tokens_sorted := by
    rw [scan_tokens_placed, List.pairwise_append]
    refine ⟨?_, List.pairwise_singleton .., fun t ht u hu => ?_⟩
    · refine (pairwise_lineAfter hfits).filterMap _ fun q r hle t ht u hu => ?_
      rwa [Piece.line_of_token? ht, Piece.line_of_token? hu]
    · obtain ⟨q, hq, ht⟩ := List.mem_filterMap.1 ht
      obtain ⟨after, hafter⟩ := exists_after_of_mem_placed hq
      rw [List.mem_singleton.1 hu, Piece.line_of_token? ht, UInt32.le_iff_toNat_le,
        toNat_line_of_mem_placed hfits hq, Token.eof, toNat_lineAfter hfits]
      exact Nat.add_le_add_left (newlines_le_of_isPrefix (hafter ▸ List.prefix_append ..)) 1
  errors_sorted := by
    rw [scan_errors_placed]
    refine (pairwise_lineAfter hfits).filterMap _ fun q r hle e he f hf => ?_
    rwa [Piece.line_of_error? he, Piece.line_of_error? hf]

end Exact

/-- Newlines in a string, behind a comment, behind a stray character and in a string without end. -/
def windingText : String :=
  "a\n\"b\n\" // c\n@é\r\n+\"d\ne"

theorem windingText_liesOn :
    newlines windingText.toList < UInt32.size - 1 ∧
      (scan windingText).LiesOn windingText.toList (placed [] (pieces windingText.toList)) ∧
      (scan windingText).tokens.map (fun t => (t.kind, t.line)) =
        [(.identifier, 1), (.string, 2), (.plus, 5), (.eof, 6)] ∧
      (scan windingText).errors.map (·.line) = [4, 4, 5] := by
  have hfits : newlines windingText.toList < UInt32.size - 1 := by decide +kernel
  exact ⟨hfits, scan_liesOn hfits, by decide +kernel, by decide +kernel⟩

end LoxSyntax
