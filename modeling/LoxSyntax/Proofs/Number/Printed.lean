import LoxSyntax.Proofs.Source.Acceptance
import LoxSyntax.Proofs.Token.Spaced
import LoxSyntax.Proofs.Traversal.Nodes

/-!
# The numbers of a program in its text

The values of number literals come from decimals, so they are not negative, and they are numbers.
Each of them is written by the digits of a decimal, and these are scanned back as one number of the
same value.  The exception are literals from half a step above the largest finite number on: their
value is infinity, which is written as a word.

* `Binary64.ReadsBack` — the text of a number is a number token of that value.
* `Program.exists_decimal` — the numbers of a program are values of decimals.
* **`Program.readsBack_iff_isFinite`** — the numbers of a program that read back.
-/

namespace LoxSyntax

/-! ## Values -/

namespace Binary64

/-- The value of a decimal is a number. -/
theorem rank_ofDecimal_le (x : Decimal) : (ofDecimal x).rank ≤ infinityRank := by
  have hlt : infinityRank < 2 ^ 63 := by decide
  have hle := Nat.min_le_right (nearestRank x.coefficient (Nat.pow 10 x.places)) infinityRank
  rw [ofDecimal, nearest, ofRank, rank, UInt64.toNat_ofNat']
  exact Nat.le_trans (Nat.mod_le _ _) (Nat.le_trans (Nat.mod_le _ _) hle)

/-- A value of a decimal that is not finite is written as a word. -/
theorem text_ofDecimal {x : Decimal} (h : ¬ (ofDecimal x).isFinite) :
    (ofDecimal x).text = "inf" := by
  have hle := rank_ofDecimal_le x
  rw [isFinite, decide_eq_true_iff, Nat.not_lt] at h
  have hnan : (ofDecimal x).isNaN = false := decide_eq_false (Nat.not_lt.2 hle)
  have hinfinite : (ofDecimal x).isInfinite = true := decide_eq_true (Nat.le_antisymm hle h)
  simp [text, hnan, hinfinite, isNegative_ofDecimal]

/-- The text that a number literal of this value is written as is scanned as a single token, a
number of this value. -/
def ReadsBack (x : Binary64) : Prop :=
  ∃ t, scan (Expr.number x).source = ⟨[t, Token.eof 1], []⟩ ∧ t.kind = .number ∧
    t.literal = some (.number x)

/-- A finite number that is not negative has no newline in its text. -/
theorem newlines_text {x : Binary64} (hfinite : x.isFinite) (h : x.isNegative = false) :
    newlines x.text.toList = 0 := by
  have hdigit : ∀ c : Char, c.isDigit → '\n' ≠ c := by
    rintro c hc rfl
    exact absurd hc (by decide)
  rw [text_of_isFinite hfinite h, newlines, List.count_eq_zero]
  obtain ⟨whole, -, hwhole, htext | ⟨digits, -, hdigits, htext⟩⟩ := x.magnitude.text_eq
  · rw [htext]
    exact fun hmem => hdigit _ (hwhole _ hmem) rfl
  · rw [htext, List.mem_append, List.mem_cons]
    rintro (hmem | hpoint | hmem)
    · exact hdigit _ (hwhole _ hmem) rfl
    · exact absurd hpoint (by decide)
    · exact hdigit _ (hdigits _ hmem) rfl

theorem readsBack_of_isFinite {x : Binary64} (hfinite : x.isFinite) (h : x.isNegative = false) :
    x.ReadsBack := by
  have hspelled : (Literal.number x).isSpelled := by simpa [Literal.isSpelled] using h
  have hpieces : pieces (x.text.toList ++ []) = _ := Scans.pieces_number hspelled hfinite rfl
  rw [List.append_nil] at hpieces
  have hvalue : Literal.ofText? .number x.text.toList = some (.number x) := by
    rw [Literal.ofText?, text_of_isFinite hfinite h, Decimal.ofText_text,
      ofDecimal_magnitude hfinite h]
  refine ⟨⟨.number, x.text, 1, some (.number x)⟩, ?_, rfl, rfl⟩
  have hline : lineAfter 1 x.text.toList = 1 := by
    rw [lineAfter, newlines_text hfinite h]
    rfl
  simp only [Expr.source, scan, hpieces, hline, located, List.filterMap_cons, Piece.token?,
    Piece.error?, Piece.problem?, hvalue, String.ofList_toList, Option.map_none, List.cons_append]
  rfl

/-- A value of a decimal that is not finite is read as a name. -/
theorem scan_ofDecimal {x : Decimal} (h : ¬ (ofDecimal x).isFinite) :
    scan (Expr.number (ofDecimal x)).source =
      ⟨[⟨.identifier, "inf", 1, none⟩, Token.eof 1], []⟩ := by
  rw [Expr.source, text_ofDecimal h]
  decide +kernel

/-- Among the values of decimals just the finite ones read back. -/
theorem readsBack_ofDecimal (x : Decimal) :
    (ofDecimal x).ReadsBack ↔ (ofDecimal x).isFinite := by
  refine ⟨fun h => ?_, fun h => readsBack_of_isFinite h (isNegative_ofDecimal x)⟩
  refine Decidable.byContradiction fun hinfinite => ?_
  obtain ⟨t, hscan, hkind, -⟩ := h
  rw [scan_ofDecimal hinfinite] at hscan
  cases hscan
  cases hkind

end Binary64

/-! ## Programs -/

namespace Program

section Numbers

variable {ceiling d : Nat} {text : String} {p : Program} {value : Binary64}
  (hp : ofText ceiling text = .ok p)
  (hnode : ⟨d, .number, .number value⟩ ∈ rows (fun _ => false) p)

include hp hnode

/-- The number that a node of a program holds is the value of a decimal. -/
theorem exists_decimal : ∃ x, value = Binary64.ofDecimal x := by
  obtain ⟨-, ev, -, hreads⟩ := ofText_eq_ok_iff.1 hp
  obtain ⟨k, hk⟩ | ⟨t, ht, hitem⟩ := hreads.keptFrom _ (number_mem_items p hnode)
  · cases hk
  obtain ⟨hkind, hvalue⟩ := Token.of_item_number hitem
  rw [← filter_scan] at ht
  have hliteral := (isLexical_of_mem_scan ht).literal
  rw [hvalue, hkind] at hliteral
  cases hliteral
  exact ⟨_, rfl⟩

/-- The text that a number of a program is written as is scanned as that number alone just where
the number is finite, and otherwise it is scanned as a name. -/
theorem readsBack_iff_isFinite :
    (value.ReadsBack ↔ value.isFinite) ∧
      (¬ value.isFinite → scan (Expr.number value).source =
        ⟨[⟨.identifier, "inf", 1, none⟩, Token.eof 1], []⟩) := by
  obtain ⟨x, rfl⟩ := exists_decimal hp hnode
  exact ⟨Binary64.readsBack_ofDecimal x, Binary64.scan_ofDecimal⟩

end Numbers

/-- A fraction, a whole number that is rounded, and one that is too large. -/
def numbersText : String :=
  String.ofList ("0.1; 9007199254740993; 1".toList ++ List.replicate 309 '0' ++ [';'])

/-- Its tree. -/
def numbersTree : Program :=
  [.expression (.number ⟨0x3fb999999999999a⟩), .expression (.number ⟨0x4340000000000000⟩),
    .expression (.number ⟨0x7ff0000000000000⟩)]

theorem scan_of_toList {text : String} {chars : List Char} (h : text.toList = chars) :
    scan text = ⟨(located 1 (pieces chars)).filterMap (fun p => p.1.token? p.2) ++
        [Token.eof (lineAfter 1 chars)],
      (located 1 (pieces chars)).filterMap fun p => p.1.error? p.2⟩ := by
  subst h
  rfl

theorem scan_numbersText :
    scan numbersText = ⟨[⟨.number, "0.1", 1, some (.number ⟨0x3fb999999999999a⟩)⟩,
      ⟨.semicolon, ";", 1, none⟩,
      ⟨.number, "9007199254740993", 1, some (.number ⟨0x4340000000000000⟩)⟩,
      ⟨.semicolon, ";", 1, none⟩,
      ⟨.number, String.ofList ('1' :: List.replicate 309 '0'), 1,
        some (.number ⟨0x7ff0000000000000⟩)⟩,
      ⟨.semicolon, ";", 1, none⟩, Token.eof 1], []⟩ := by
  refine (scan_of_toList String.toList_ofList).trans ?_
  decide +kernel

theorem ofText_numbersText : ofText 3 numbersText = .ok numbersTree := by
  have hclean : (Parser.ofText 3 numbersText).program.2.report.errors.isEmpty = true := by
    rw [Parser.ofText, scan_numbersText]
    decide +kernel
  have htree : (Parser.ofText 3 numbersText).program.1 = numbersTree := by
    rw [Parser.ofText, scan_numbersText]
    decide +kernel
  rw [ofText_eq, if_pos hclean, htree]

theorem numbersText_readsBack :
    ofText 3 numbersText = .ok numbersTree ∧
      ⟨1, .number, .number ⟨0x3fb999999999999a⟩⟩ ∈ rows (fun _ => false) numbersTree ∧
      ⟨1, .number, .number ⟨0x4340000000000000⟩⟩ ∈ rows (fun _ => false) numbersTree ∧
      (⟨0x3fb999999999999a⟩ : Binary64).ReadsBack ∧
      (⟨0x4340000000000000⟩ : Binary64).ReadsBack := by
  have hfraction : ⟨1, .number, .number ⟨0x3fb999999999999a⟩⟩ ∈
    rows (fun _ => false) numbersTree := by decide +kernel
  have hwhole : ⟨1, .number, .number ⟨0x4340000000000000⟩⟩ ∈
    rows (fun _ => false) numbersTree := by decide +kernel
  exact ⟨ofText_numbersText, hfraction, hwhole,
    (readsBack_iff_isFinite ofText_numbersText hfraction).1.2 (by decide +kernel),
    (readsBack_iff_isFinite ofText_numbersText hwhole).1.2 (by decide +kernel)⟩

/-- A number that is too large does not read back. -/
theorem numbersText_loses :
    ofText 3 numbersText = .ok numbersTree ∧
      ⟨1, .number, .number ⟨0x7ff0000000000000⟩⟩ ∈ rows (fun _ => false) numbersTree ∧
      scan (Expr.number ⟨0x7ff0000000000000⟩).source =
        ⟨[⟨.identifier, "inf", 1, none⟩, Token.eof 1], []⟩ ∧
      ¬ (⟨0x7ff0000000000000⟩ : Binary64).ReadsBack := by
  have hscan : scan (Expr.number ⟨0x7ff0000000000000⟩).source =
      ⟨[⟨.identifier, "inf", 1, none⟩, Token.eof 1], []⟩ := by decide +kernel
  refine ⟨ofText_numbersText, by decide +kernel, hscan, ?_⟩
  rintro ⟨t, h, hkind, -⟩
  rw [hscan] at h
  cases h
  cases hkind

end Program

end LoxSyntax
