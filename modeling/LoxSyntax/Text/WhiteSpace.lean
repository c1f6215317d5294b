/-!
# White space at the end of a text

Output is cut after its last character that is no white space.  White space is meant in the sense
of the Unicode property `White_Space`: twenty-five code points, six of them ASCII.

* `isWhiteSpace` — the property.
* `trimEnd` — a text without the white space at its end.
-/

namespace LoxSyntax

/-- The code points with the property `White_Space`, in ranges with both ends included. -/
def whiteSpaceRanges : List (Nat × Nat) :=
  [(0x9, 0xD), (0x20, 0x20), (0x85, 0x85), (0xA0, 0xA0), (0x1680, 0x1680), (0x2000, 0x200A),
    (0x2028, 0x2029), (0x202F, 0x202F), (0x205F, 0x205F), (0x3000, 0x3000)]

def isWhiteSpace (c : Char) : Bool :=
  whiteSpaceRanges.any fun range => decide (range.1 ≤ c.toNat ∧ c.toNat ≤ range.2)

/-- The text without the white space at its end. -/
def trimEnd (text : String) : String :=
  String.ofList (text.toList.reverse.dropWhile isWhiteSpace).reverse

/-- A text that ends in something else is left as it is. -/
theorem trimEnd_of_getLast {text : String} {c : Char} (h : text.toList.getLast? = some c)
    (hc : isWhiteSpace c = false) : trimEnd text = text := by
  obtain ⟨init, hinit⟩ := List.getLast?_eq_some_iff.1 h
  simp [trimEnd, hinit, hc, ← String.toList_inj]

example : (whiteSpaceRanges.map fun range => range.2 + 1 - range.1).sum = 25 := rfl

end LoxSyntax
