import LoxSyntax.Number.Decimal

/-!
# Binary64 numbers

The numbers of the language are IEEE 754 binary64 numbers, held as their 64 bits.  The top bit is
the sign; the other 63 rank the magnitudes, from zero over the finite numbers and infinity to the
ones that are no number.  Every finite magnitude is a whole number of quanta of `2⁻¹⁰⁷⁴`, so all
arithmetic here is on natural numbers.

* `Binary64.equal` — equality as numbers, which is not equality of the bits.
* `Binary64.quanta` — a finite magnitude in quanta.
* `Binary64.nearest` — a quotient rounded to the nearest number, a half going to the even one.
* `Binary64.ofDecimal` — the value of a decimal.
-/

namespace LoxSyntax

/-- An IEEE 754 binary64 number. -/
structure Binary64 where
  bits : UInt64
deriving DecidableEq, Repr

namespace Binary64

/-! ## Sign and rank -/

/-- The sign bit, and so the number of magnitudes. -/
def signBit : Nat :=
  Nat.pow 2 63

/-- How many magnitudes share an exponent. -/
def binade : Nat :=
  Nat.pow 2 52

/-- One, in quanta. -/
def quantaInOne : Nat :=
  Nat.pow 2 1074

/-- Whether the sign bit is set, also on a zero. -/
def isNegative (x : Binary64) : Bool :=
  decide (signBit ≤ x.bits.toNat)

/-- The place of the magnitude among all magnitudes; zero has rank zero. -/
def rank (x : Binary64) : Nat :=
  x.bits.toNat % signBit

/-- The non-negative number of a rank. -/
def ofRank (rank : Nat) : Binary64 :=
  ⟨UInt64.ofNat rank⟩

/-- The rank of infinity, one above the largest finite number. -/
def infinityRank : Nat :=
  2047 * binade

def isFinite (x : Binary64) : Bool :=
  decide (x.rank < infinityRank)

def isInfinite (x : Binary64) : Bool :=
  decide (x.rank = infinityRank)

def isNaN (x : Binary64) : Bool :=
  decide (infinityRank < x.rank)

/-- Equality as numbers: what is no number equals nothing, and the two zeros are equal. -/
def equal (x y : Binary64) : Bool :=
  !x.isNaN && !y.isNaN && (x.bits == y.bits || (x.rank == 0 && y.rank == 0))

/-! ## Magnitudes -/

/-- The magnitude of a finite number in units of `2⁻¹⁰⁷⁴`. -/
def quanta (x : Binary64) : Nat :=
  let fraction := x.rank % binade
  match x.rank / binade with
  | 0 => fraction
  | shift + 1 => (binade + fraction) * Nat.pow 2 shift

/-- A quotient as a whole number, a half going to the even neighbour. -/
def roundHalfEven (num den : Nat) : Nat :=
  let whole := num / den
  let rest := num % den
  if 2 * rest < den ∨ (2 * rest = den ∧ whole % 2 = 0) then whole else whole + 1

/-- The rank of the number nearest to `num / den`.  In quanta, a quotient of `53 + shift` bits is
cut to its first 53 bits; the ranks of that shift begin at `shift * binade`, less the leading bit
that the number does not store, and a round-up to the next power of two lands on its rank. -/
def nearestRank (num den : Nat) : Nat :=
  let scaled := num * quantaInOne
  let shift := (scaled / den).log2 - 52
  shift * binade + roundHalfEven scaled (den * Nat.pow 2 shift)

/-- The non-negative number nearest to `num / den`; from half a step above the largest finite
number on it is infinity. -/
def nearest (num den : Nat) : Binary64 :=
  ofRank (min (nearestRank num den) infinityRank)

/-- The number nearest to a decimal. -/
def ofDecimal (d : Decimal) : Binary64 :=
  nearest d.coefficient (Nat.pow 10 d.places)

end Binary64

end LoxSyntax
