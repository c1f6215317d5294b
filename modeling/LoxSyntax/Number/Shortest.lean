import LoxSyntax.Number.Binary64

/-!
# The shortest text of a number

A finite number is written with the fewest digits that read back as the same number, and among
those with the ones nearest to it.  The digits lie on a grid of multiples of a power of ten, and
only the two neighbours of the number on that grid can qualify; the search goes from the grid with
one digit to the one with seventeen.  The notation is positional for every size: there is no
exponent, and a whole number has no point.

* `Binary64.shortest?` — the digits found on the first grid that has some.
* `Binary64.magnitude` — the digits to write; the exact value should no grid have any.
* **`Binary64.ofDecimal_of_shortest?`** — what is found reads back.
* `Binary64.text` — the text, with sign, infinity and what is no number.
-/

namespace LoxSyntax

namespace Binary64

/-! ## Grids -/

/-- The decimal `n * 10 ^ grid`. -/
def gridPoint (n : Nat) : (grid : Int) → Decimal
  | .ofNat k => ⟨n * Nat.pow 10 k, 0⟩
  | .negSucc k => Decimal.trimmed ⟨n, k + 1⟩

/-- How many steps of `10 ^ grid` fit into a number of quanta. -/
def gridFloor (quanta : Nat) : (grid : Int) → Nat
  | .ofNat k => quanta / (quantaInOne * Nat.pow 10 k)
  | .negSucc k => quanta * Nat.pow 10 (k + 1) / quantaInOne

/-- The grid whose step is the first digit of a number of quanta. -/
def leadingGrid (quanta : Nat) : Int :=
  if quantaInOne ≤ quanta then
    ((Nat.toDigits 10 (quanta / quantaInOne)).length : Int) - 1
  else
    -((Nat.toDigits 10 ((quantaInOne - 1) / quanta)).length : Int)

/-! ## Digits that read back -/

/-- The neighbour on the grid that reads back as `x`.  If both do, the nearer one is taken, and the
upper one if they are equally near. -/
def onGrid? (x : Binary64) (grid : Int) : Option Decimal :=
  let n := gridFloor x.quanta grid
  let lower := gridPoint n grid
  let upper := gridPoint (n + 1) grid
  let lowerIsNearer := gridFloor (2 * x.quanta) grid % 2 = 0
  if ofDecimal lower = x ∧ (lowerIsNearer ∨ ofDecimal upper ≠ x) then some lower
  else if ofDecimal upper = x then some upper
  else none

/-- The fewest digits, up to seventeen, that read back as the non-negative finite number `x`. -/
def shortest? (x : Binary64) : Option Decimal :=
  (List.range 17).findSome? fun (k : Nat) => x.onGrid? (leadingGrid x.quanta - k)

/-- The exact value as a decimal: a quantum is `5 ^ 1074` units of the decimal place 1074. -/
def exact (x : Binary64) : Decimal :=
  Decimal.trimmed ⟨x.quanta * Nat.pow 5 1074, 1074⟩

/-- The decimal that is written for the magnitude of a finite number. -/
def magnitude (x : Binary64) : Decimal :=
  (ofRank x.rank).shortest?.getD (ofRank x.rank).exact

theorem ofDecimal_of_onGrid? {x : Binary64} {grid : Int} {d : Decimal}
    (h : x.onGrid? grid = some d) : ofDecimal d = x := by
  simp only [onGrid?] at h
  split at h
  · next hlower => cases h; exact hlower.1
  · split at h
    · next hupper => cases h; exact hupper
    · cases h

/-- Digits that were found read back. -/
theorem ofDecimal_of_shortest? {x : Binary64} {d : Decimal} (h : x.shortest? = some d) :
    ofDecimal d = x := by
  obtain ⟨k, _, hk⟩ := List.exists_of_findSome?_eq_some h
  exact ofDecimal_of_onGrid? hk

/-! ## Text -/

/-- The text of a number. -/
def text (x : Binary64) : String :=
  if x.isNaN then "NaN"
  else
    let digits := if x.isInfinite then "inf" else String.ofList x.magnitude.text
    if x.isNegative then "-" ++ digits else digits

end Binary64

end LoxSyntax
