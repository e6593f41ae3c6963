import Mathlib
import TypeGraph.Number.Binary64

/-!
# Integers without a nearest real

The greatest finite real is `(2 ^ 53 - 1) * 2 ^ 971`.  The integers from the middle between it and
`2 ^ 1024` on are rounded to `2 ^ 1024`, which is out of range; all others have a nearest real.

**Results.**
* `le_roundHalfEven_iff`: when a quotient is rounded to an even number or above it.
* `Binary64.exponentOf_one`: the exponent of a natural is that of its leading binary digit.
* `Binary64.ofInt?_eq_none_iff`: which integers have no nearest real.
-/

namespace TypeGraph

/-- A quotient is rounded to an even number or above it from half a unit below that number on. -/
theorem le_roundHalfEven_iff
    {num den k : Nat}
    (hden : 0 < den)
    (heven : k % 2 = 0)
    (hpos : 0 < k) :
    k ≤ roundHalfEven num den ↔ (2 * k - 1) * den ≤ 2 * num := by
  have hnum := Nat.div_add_mod num den
  have hrem := Nat.mod_lt num hden
  unfold roundHalfEven
  generalize num / den = quotient at hnum ⊢
  generalize num % den = rest at hnum hrem ⊢
  subst hnum
  have hexpand : (2 * k - 1) * den = 2 * (den * k) - den := by
    rw [Nat.sub_mul, Nat.one_mul, Nat.mul_assoc, Nat.mul_comm k den]
  rw [hexpand]
  -- the number is at most the quotient, one more than it, or further above
  rcases Nat.lt_trichotomy k (quotient + 1) with hlt | rfl | hgt
  · have hle : den * k ≤ den * quotient := Nat.mul_le_mul_left den (by omega)
    simp only
    split_ifs <;> omega
  · rw [Nat.mul_add, Nat.mul_one]
    simp only
    split_ifs <;> omega
  · have hle : den * (quotient + 2) ≤ den * k := Nat.mul_le_mul_left den (by omega)
    rw [Nat.mul_add] at hle
    simp only
    split_ifs <;> omega

/-- A quotient is rounded to one of the two naturals next to it. -/
theorem roundHalfEven_le
    (num den : Nat) :
    roundHalfEven num den ≤ num / den + 1 := by
  simp only [roundHalfEven]
  split_ifs <;> omega

namespace Binary64

/-- The least natural without a nearest real, the middle between the greatest finite one and
`2 ^ 1024`. -/
def overflow : Nat := (2 ^ 54 - 1) * 2 ^ 970

theorem overflow_pos :
    0 < overflow := by
  have hunits : ∀ k, 0 < (2 ^ 54 - 1) * 2 ^ k := fun k => Nat.mul_pos (by decide) (Nat.two_pow_pos k)
  unfold overflow
  exact hunits 970

section Overflow

variable {n : Nat} {negative : Bool}

/-- The exponent of a natural is that of its leading binary digit. -/
theorem exponentOf_one
    (hn : n ≠ 0) :
    exponentOf n 1 = (n.log2 : Int) - 52 := by
  have hlow : 2 ^ n.log2 ≤ n := Nat.log2_self_le hn
  have hfits : ¬ (scaled n 1 ((n.log2 : Int) - 52)).1 <
      (scaled n 1 ((n.log2 : Int) - 52)).2 * Nat.pow 2 52 := by
    unfold scaled
    split
    · have hsplit : 2 ^ n.log2 = 2 ^ ((n.log2 : Int) - 52).toNat * 2 ^ 52 := by
        rw [← Nat.pow_add]
        congr 1
        omega
      simpa [hsplit] using hlow
    · have hsplit : 2 ^ 52 = 2 ^ n.log2 * 2 ^ (-((n.log2 : Int) - 52)).toNat := by
        rw [← Nat.pow_add]
        congr 1
        omega
      have hle := Nat.mul_le_mul_right (2 ^ (-((n.log2 : Int) - 52)).toNat) hlow
      rw [← hsplit] at hle
      simpa using hle
  have hone : Nat.log2 1 = 0 := by decide
  simp only [exponentOf, hone, Int.ofNat_zero, Int.sub_zero, if_neg hfits, minExponent]
  omega

/-- A rounded mantissa is out of range beyond the greatest exponent, and at it when rounding has
carried. -/
theorem pack_eq_infinite_iff
    {mantissa : Nat}
    {exponent : Int} :
    pack negative mantissa exponent = .infinite negative ↔
      maxExponent < exponent ∨ exponent = maxExponent ∧ mantissa = mantissaLimit := by
  unfold pack
  split_ifs with hcarry <;> simp <;> omega

/-- What is packed is a finite real or an infinity, with the sign given. -/
theorem pack_infinite_or_finite
    (negative : Bool)
    (mantissa : Nat)
    (exponent : Int) :
    pack negative mantissa exponent = .infinite negative ∨
      ∃ m e, pack negative mantissa exponent = .finite negative m e := by
  unfold pack
  split_ifs with hcarry <;> simp only <;> split_ifs <;> simp

/-- A ratio that is not zero is rounded and packed. -/
theorem ofRatio_eq_pack
    {num den n d : Nat}
    {e : Int}
    (hn : num ≠ 0)
    (he : exponentOf num den = e)
    (hs : scaled num den e = (n, d)) :
    ofRatio negative num den = pack negative (roundHalfEven n d) e := by
  subst he
  unfold ofRatio
  rw [if_neg hn]
  extract_lets e
  split
  next n' d' hscaled =>
    cases hscaled.symm.trans hs
    rfl

/-- A ratio has a nearest real of its sign, or is too large for one. -/
theorem ofRatio_infinite_or_finite
    (negative : Bool)
    (num den : Nat) :
    ofRatio negative num den = .infinite negative ∨
      ∃ m e, ofRatio negative num den = .finite negative m e := by
  by_cases hn : num = 0
  · exact Or.inr ⟨0, minExponent, if_pos hn⟩
  · rcases hs : scaled num den (exponentOf num den) with ⟨n, d⟩
    rw [ofRatio_eq_pack hn rfl hs]
    exact pack_infinite_or_finite _ _ _

/-- A natural is measured in units of `2 ^ k`. -/
theorem scaled_one
    (n k : Nat) :
    scaled n 1 k = (n, 2 ^ k) := by
  simp [scaled]

/-- Below `2 ^ (54 + k)`, in units of `2 ^ (k + 1)`, a natural is rounded up to that power from half a unit
below it on. -/
theorem roundHalfEven_carries_iff
    {k : Nat}
    (hlt : n < 2 ^ 54 * 2 ^ k) :
    roundHalfEven n (2 ^ (k + 1)) = mantissaLimit ↔ (2 ^ 54 - 1) * 2 ^ k ≤ n := by
  have hden : (0 : Nat) < 2 ^ (k + 1) := Nat.two_pow_pos _
  have hquotient : n / 2 ^ (k + 1) < 2 ^ 53 := by
    rw [Nat.div_lt_iff_lt_mul hden, Nat.pow_succ]
    omega
  have hle := roundHalfEven_le n (2 ^ (k + 1))
  have hreaches := @le_roundHalfEven_iff n (2 ^ (k + 1)) (2 ^ 53) hden (by decide) (by decide)
  have hlimit : mantissaLimit = 2 ^ 53 := rfl
  have hunits : (2 * 2 ^ 53 - 1) * 2 ^ (k + 1) = 2 * ((2 ^ 54 - 1) * 2 ^ k) := by
    rw [Nat.pow_succ]
    omega
  rw [hunits] at hreaches
  omega

/-- A natural is too large for a real from `overflow` on. -/
theorem ofRatio_one_eq_infinite_iff :
    ofRatio negative n 1 = .infinite negative ↔ overflow ≤ n := by
  have hpos := overflow_pos
  by_cases hn : n = 0
  · have hzero : ofRatio negative n 1 = zero negative := if_pos hn
    simp only [hzero, zero, reduceCtorEq, false_iff]
    omega
  have hbelow : ∀ a b, n.log2 < a + b → n < 2 ^ a * 2 ^ b := fun a b h => by
    rw [← Nat.pow_add]
    exact (Nat.log2_lt hn).1 h
  have habove : ∀ a b, a + b ≤ n.log2 → 2 ^ a * 2 ^ b ≤ n := fun a b h => by
    rw [← Nat.pow_add]
    exact (Nat.le_log2 hn).1 h
  rcases hs : scaled n 1 ((n.log2 : Int) - 52) with ⟨m, d⟩
  rw [ofRatio_eq_pack hn (exponentOf_one hn) hs, pack_eq_infinite_iff, maxExponent]
  rcases Nat.lt_trichotomy n.log2 1023 with hlt | heq | hgt
  · -- below `2 ^ 1023` the exponent is small
    have hlow := hbelow 53 970 (by omega)
    unfold overflow
    omega
  · -- at `2 ^ 1023` the exponent is the greatest, and rounding decides
    have hexponent : (n.log2 : Int) - 52 = (970 + 1 : Nat) := by omega
    rw [hexponent, scaled_one] at hs
    cases hs
    rw [roundHalfEven_carries_iff (hbelow 54 970 (by omega))]
    unfold overflow
    omega
  · -- from `2 ^ 1024` on the exponent is too large
    have hhigh := habove 54 970 (by omega)
    unfold overflow
    omega

end Overflow

/-- The integers without a nearest real are those from `overflow` on, in either direction. -/
theorem ofInt?_eq_none_iff
    {n : Int} :
    ofInt? n = none ↔ overflow ≤ n.natAbs := by
  rw [← @ofRatio_one_eq_infinite_iff n.natAbs (decide (n < 0))]
  unfold ofInt?
  rcases ofRatio_infinite_or_finite (decide (n < 0)) n.natAbs 1 with h | ⟨m, e, h⟩ <;> simp [h]

end Binary64
end TypeGraph
