import LoxSyntax.Number.Shortest

/-!
# Numbers read back

The text of a finite number that is not negative reads back as that number, whichever way its digits
were found.  The shortest digits do by the search that found them; the exact ones do because a
number is the nearest one to itself.

* `Binary64.nearest_mul` — only the quotient matters.
* `Binary64.nearest_quanta` — a number is the nearest one to its own value.
* **`Binary64.ofDecimal_magnitude`** — the digits that are written read back.
-/

namespace LoxSyntax

namespace Binary64

/-! ## The nearest number -/

/-- Rounding depends on the quotient alone. -/
theorem roundHalfEven_mul {k : Nat} (hk : 0 < k) (num den : Nat) :
    roundHalfEven (k * num) (k * den) = roundHalfEven num den := by
  have hlt : 2 * (k * (num % den)) < k * den ↔ 2 * (num % den) < den := by
    rw [Nat.mul_left_comm]
    exact Nat.mul_lt_mul_left hk
  have heq : 2 * (k * (num % den)) = k * den ↔ 2 * (num % den) = den := by
    rw [Nat.mul_left_comm]
    exact Nat.mul_right_inj (Nat.ne_of_gt hk)
  simp only [roundHalfEven, Nat.mul_div_mul_left _ _ hk, Nat.mul_mod_mul_left, hlt, heq]

theorem nearestRank_mul {k : Nat} (hk : 0 < k) (num den : Nat) :
    nearestRank (k * num) (k * den) = nearestRank num den := by
  simp only [nearestRank, Nat.mul_assoc, Nat.mul_div_mul_left _ _ hk, roundHalfEven_mul hk]

/-- Only the quotient matters. -/
theorem nearest_mul {k : Nat} (hk : 0 < k) (num den : Nat) :
    nearest (k * num) (k * den) = nearest num den := by
  rw [nearest, nearestRank_mul hk, nearest]

/-! ## Exact values -/

/-- A whole number is not rounded. -/
theorem roundHalfEven_self {den : Nat} (hden : 0 < den) (n : Nat) :
    roundHalfEven (n * den) den = n := by
  simp [roundHalfEven, Nat.mul_div_cancel _ hden, hden]

/-- The binary digits behind the first 53 of a number's value. -/
theorem log2_quanta (x : Binary64) : x.quanta.log2 - 52 = x.rank / binade - 1 := by
  have hlt : x.rank % binade < binade := Nat.mod_lt _ (Nat.pow_pos (by decide))
  rw [quanta]
  rcases hshift : x.rank / binade with _ | shift
  · have : (x.rank % binade).log2 ≤ 51 := by
      by_cases hzero : x.rank % binade = 0
      · rw [hzero]
        decide
      · exact Nat.le_of_lt_succ ((Nat.log2_lt hzero).2 hlt)
    show (x.rank % binade).log2 - 52 = 0 - 1
    omega
  · show ((binade + x.rank % binade) * Nat.pow 2 shift).log2 - 52 = shift + 1 - 1
    have hbinade : binade = 2 ^ 52 := rfl
    have hpow : 0 < 2 ^ shift := Nat.two_pow_pos shift
    have hlog : ((binade + x.rank % binade) * 2 ^ shift).log2 = 52 + shift := by
      refine (Nat.log2_eq_iff (Nat.ne_of_gt (Nat.mul_pos (by omega) hpow))).2 ⟨?_, ?_⟩
      · rw [Nat.pow_add]
        exact Nat.mul_le_mul_right _ (by omega)
      · rw [show 52 + shift + 1 = 53 + shift by omega, Nat.pow_add]
        exact Nat.mul_lt_mul_of_pos_right (by omega) hpow
    rw [Nat.pow_eq, hlog]
    omega

/-- The value of a number is its own leading digits. -/
theorem rank_eq (x : Binary64) :
    (x.rank / binade - 1) * binade + x.quanta / Nat.pow 2 (x.rank / binade - 1) = x.rank ∧
      Nat.pow 2 (x.rank / binade - 1) ∣ x.quanta := by
  have hdiv := Nat.div_add_mod x.rank binade
  rw [quanta]
  rcases hshift : x.rank / binade with _ | shift
  · rw [hshift] at hdiv
    show (0 - 1) * binade + x.rank % binade / Nat.pow 2 0 = x.rank ∧ _
    refine ⟨?_, Nat.one_dvd _⟩
    simpa using hdiv
  · rw [hshift] at hdiv
    show (shift + 1 - 1) * binade + (binade + x.rank % binade) * Nat.pow 2 shift /
      Nat.pow 2 (shift + 1 - 1) = x.rank ∧ _
    have hpow : 0 < Nat.pow 2 shift := Nat.two_pow_pos shift
    rw [Nat.add_sub_cancel, Nat.mul_div_cancel _ hpow]
    refine ⟨?_, Nat.dvd_mul_left _ _⟩
    rw [Nat.mul_add, Nat.mul_one, Nat.mul_comm] at hdiv
    omega

/-- A number is the nearest one to its own value. -/
theorem nearestRank_quanta (x : Binary64) : nearestRank x.quanta quantaInOne = x.rank := by
  have hone : 0 < quantaInOne := (Nat.two_pow_pos : ∀ k, 0 < Nat.pow 2 k) 1074
  obtain ⟨hrank, n, hn⟩ := x.rank_eq
  have hpow : 0 < Nat.pow 2 (x.rank / binade - 1) := Nat.pow_pos (by decide)
  rw [hn, Nat.mul_div_cancel_left _ hpow] at hrank
  rw [nearestRank]
  simp only [Nat.mul_div_cancel _ hone, log2_quanta]
  rw [Nat.mul_comm x.quanta, roundHalfEven_mul hone, hn, Nat.mul_comm (Nat.pow 2 _) n,
    roundHalfEven_self hpow, hrank]

theorem nearest_quanta {x : Binary64} (hfinite : x.isFinite) :
    nearest x.quanta quantaInOne = ofRank x.rank := by
  have hrank : x.rank < infinityRank := of_decide_eq_true hfinite
  rw [nearest, nearestRank_quanta, Nat.min_eq_left (Nat.le_of_lt hrank)]

/-! ## Decimals -/

/-- Zeros at the end of the fraction make no difference. -/
theorem ofDecimal_trim (places coefficient : Nat) :
    ofDecimal (Decimal.trim coefficient places) = ofDecimal ⟨coefficient, places⟩ := by
  induction places generalizing coefficient with
  | zero => rfl
  | succ places ih =>
    rw [Decimal.trim]
    split
    · next hzero =>
      have hten : 10 * (coefficient / 10) = coefficient := by omega
      have hpow : Nat.pow 10 (places + 1) = 10 * Nat.pow 10 places :=
        (Nat.pow_succ ..).trans (Nat.mul_comm _ _)
      rw [ih]
      show nearest (coefficient / 10) (Nat.pow 10 places) =
        nearest coefficient (Nat.pow 10 (places + 1))
      rw [hpow, ← nearest_mul (by decide : 0 < 10), hten]
    · rfl

/-- Decimal places stand for binary ones if the powers of five are made up for. -/
theorem nearest_mul_pow (n places : Nat) :
    nearest (n * Nat.pow 5 places) (Nat.pow 10 places) = nearest n (Nat.pow 2 places) := by
  have hpow : Nat.pow 10 places = Nat.pow 5 places * Nat.pow 2 places := Nat.mul_pow 5 2 places
  have hpos : 0 < Nat.pow 5 places := Nat.pow_pos (by decide)
  rw [hpow, Nat.mul_comm n, nearest_mul hpos]

theorem ofDecimal_mul_pow (n places : Nat) :
    ofDecimal (Decimal.trimmed ⟨n * Nat.pow 5 places, places⟩) = nearest n (Nat.pow 2 places) := by
  rw [Decimal.trimmed, ofDecimal_trim, ofDecimal, nearest_mul_pow]

/-- The exact value reads back. -/
theorem ofDecimal_exact {x : Binary64} (hfinite : x.isFinite) :
    ofDecimal x.exact = ofRank x.rank := by
  rw [exact, ofDecimal_mul_pow, ← nearest_quanta hfinite, quantaInOne]

/-! ## Magnitudes -/

/-- The bits of a number that is not negative are its rank. -/
theorem ofRank_rank {x : Binary64} (h : x.isNegative = false) : ofRank x.rank = x := by
  have hlt : x.bits.toNat < signBit := Nat.not_le.1 (of_decide_eq_false h)
  rw [rank, Nat.mod_eq_of_lt hlt, ofRank, UInt64.ofNat_toNat]

/-- The digits that are written for a number that is not negative read back. -/
theorem ofDecimal_magnitude {x : Binary64} (hfinite : x.isFinite) (h : x.isNegative = false) :
    ofDecimal x.magnitude = x := by
  rw [magnitude, ofRank_rank h]
  rcases hfound : x.shortest? with _ | d
  · rw [Option.getD_none, ofDecimal_exact hfinite, ofRank_rank h]
  · exact ofDecimal_of_shortest? hfound

/-- What is read is not negative. -/
theorem isNegative_ofDecimal (d : Decimal) : (ofDecimal d).isNegative = false := by
  have hlt : infinityRank < signBit := by decide
  rw [isNegative, decide_eq_false_iff_not, Nat.not_le, ofDecimal, nearest, ofRank,
    UInt64.toNat_ofNat']
  exact Nat.lt_of_le_of_lt (Nat.mod_le _ _) (Nat.lt_of_le_of_lt (Nat.min_le_right _ _) hlt)

/-- A finite number that is not negative is written by its digits alone. -/
theorem text_of_isFinite {x : Binary64} (hfinite : x.isFinite) (h : x.isNegative = false) :
    x.text.toList = x.magnitude.text := by
  have hrank : x.rank < infinityRank := of_decide_eq_true hfinite
  have hnan : x.isNaN = false := decide_eq_false (by omega)
  have hinfinite : x.isInfinite = false := decide_eq_false (by omega)
  simp [text, hnan, hinfinite, h]

end Binary64

/-! ## The characters of a decimal -/

namespace Decimal

/-- Digits, or digits and behind a point more digits. -/
theorem text_eq (d : Decimal) :
    ∃ whole : List Char, whole ≠ [] ∧ (∀ c ∈ whole, c.isDigit) ∧
      (d.text = whole ∨ ∃ digits : List Char, digits ≠ [] ∧ (∀ c ∈ digits, c.isDigit) ∧
        d.text = whole ++ '.' :: digits) := by
  have hdigits : ∀ {n : Nat} {c : Char}, c ∈ Nat.toDigits 10 n → c.isDigit := fun hc =>
    Nat.isDigit_of_mem_toDigits (by decide) (by decide) hc
  refine ⟨Nat.toDigits 10 (d.coefficient / Nat.pow 10 d.places), Nat.toDigits_ne_nil,
    fun c hc => hdigits hc, ?_⟩
  by_cases hplaces : d.places = 0
  · left
    simp [text, hplaces]
  · right
    refine ⟨d.fraction, ?_, ?_, by simp [text, hplaces]⟩
    · have hlength := length_fraction hplaces
      intro hnil
      rw [hnil] at hlength
      exact hplaces hlength.symm
    · intro c hc
      rw [fraction, List.leftpad, List.mem_append] at hc
      rcases hc with hc | hc
      · rw [(List.mem_replicate.1 hc).2]
        decide
      · exact hdigits hc

end Decimal

end LoxSyntax
