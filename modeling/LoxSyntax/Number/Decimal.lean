/-!
# Decimals

A decimal is a whole number of units in some decimal place: `coefficient / 10 ^ places`.  Its text
is positional, the way numbers are written in a program: digits, and behind a point the digits of
the fraction, if there are any.

* `Decimal.ofText` — reads digits with an optional fraction.
* `Decimal.text` — writes them.
* `Decimal.trimmed` — the same value without zeros at the end of the fraction.
* **`Decimal.ofText_text`** — reading what was written gives the decimal back.
-/

namespace LoxSyntax

/-- The number `coefficient / 10 ^ places`. -/
structure Decimal where
  coefficient : Nat
  places : Nat
deriving DecidableEq, Repr

namespace Decimal

/-! ## Reading -/

/-- Reads digits, a point and more digits; without a point there is no fraction. -/
def ofText (digits : List Char) : Decimal :=
  let whole := digits.takeWhile (· != '.')
  let fraction := (digits.dropWhile (· != '.')).drop 1
  ⟨Nat.ofDigitChars 10 (whole ++ fraction) 0, fraction.length⟩

/-! ## Writing -/

/-- The digits of the fraction, as many as there are places. -/
def fraction (d : Decimal) : List Char :=
  (Nat.toDigits 10 (d.coefficient % Nat.pow 10 d.places)).leftpad d.places '0'

/-- Digits, and behind a point the fraction unless it has no places. -/
def text (d : Decimal) : List Char :=
  let whole := Nat.toDigits 10 (d.coefficient / Nat.pow 10 d.places)
  if d.places = 0 then whole else whole ++ '.' :: d.fraction

/-- Drops the zeros that end a fraction of `places` digits. -/
def trim (coefficient : Nat) : (places : Nat) → Decimal
  | 0 => ⟨coefficient, 0⟩
  | places + 1 =>
    if coefficient % 10 = 0 then trim (coefficient / 10) places else ⟨coefficient, places + 1⟩

/-- The same value, in the fewest places. -/
def trimmed (d : Decimal) : Decimal :=
  trim d.coefficient d.places

/-! ## Reading what was written -/

theorem length_fraction {d : Decimal} (h : d.places ≠ 0) : d.fraction.length = d.places := by
  have hlt : d.coefficient % 10 ^ d.places < 10 ^ d.places :=
    Nat.mod_lt _ (Nat.pow_pos (by decide))
  have hlen := (Nat.length_toDigits_le_iff (by decide) (Nat.pos_of_ne_zero h)).2 hlt
  simp only [fraction, Nat.pow_eq, List.leftpad, List.length_append, List.length_replicate]
  omega

private theorem point_ne_of_isDigit {c : Char} (h : c.isDigit = true) : (c != '.') = true := by
  rw [bne_iff_ne]
  rintro rfl
  exact absurd h (by decide)

private theorem bne_point_of_mem {n : Nat} {c : Char} (h : c ∈ Nat.toDigits 10 n) :
    (c != '.') = true :=
  point_ne_of_isDigit (Nat.isDigit_of_mem_toDigits (by decide) (by decide) h)

private theorem takeWhile_whole (n : Nat) (rest : List Char) :
    (Nat.toDigits 10 n ++ rest).takeWhile (· != '.') =
      Nat.toDigits 10 n ++ rest.takeWhile (· != '.') :=
  List.takeWhile_append_of_pos fun _ => bne_point_of_mem

private theorem dropWhile_whole (n : Nat) (rest : List Char) :
    (Nat.toDigits 10 n ++ rest).dropWhile (· != '.') = rest.dropWhile (· != '.') :=
  List.dropWhile_append_of_pos fun _ => bne_point_of_mem

/-- Reading what was written gives the decimal back. -/
theorem ofText_text (d : Decimal) : ofText d.text = d := by
  obtain ⟨c, p⟩ := d
  by_cases h : p = 0
  · subst h
    have htake := takeWhile_whole c []
    have hdrop := dropWhile_whole c []
    simp only [List.append_nil, List.takeWhile_nil, List.dropWhile_nil] at htake hdrop
    simp [text, ofText, htake, hdrop]
  · have hlen := @length_fraction ⟨c, p⟩ h
    have hfraction : Nat.ofDigitChars 10 (fraction ⟨c, p⟩) 0 = c % 10 ^ p := by
      simp [fraction, List.leftpad, Nat.ofDigitChars_append, Nat.ofDigitChars_replicate_zero]
    have htake := takeWhile_whole (c / 10 ^ p) ('.' :: fraction ⟨c, p⟩)
    have hdrop := dropWhile_whole (c / 10 ^ p) ('.' :: fraction ⟨c, p⟩)
    simp only [bne_self_eq_false, Bool.false_eq_true, not_false_eq_true,
      List.takeWhile_cons_of_neg, List.dropWhile_cons_of_neg, List.append_nil] at htake hdrop
    simp only [text, Nat.pow_eq, h, ↓reduceIte, ofText, htake, hdrop, List.drop_one, List.tail_cons]
    refine congr (congrArg Decimal.mk ?_) hlen
    rw [Nat.ofDigitChars_append, Nat.ofDigitChars_ten_toDigits,
      Nat.ofDigitChars_eq_ofDigitChars_zero, hlen, hfraction]
    exact Nat.div_add_mod c (10 ^ p)

end Decimal

end LoxSyntax
