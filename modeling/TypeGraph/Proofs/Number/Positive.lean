import TypeGraph.Proofs.Number.Overflow

/-!
# Numbers above zero

What is not a number is neither above zero nor at zero or below it.  All other numbers are the one or the
other, and an integer above zero is rounded to a real above zero, however it is rounded.

**Results.**
* `Binary64.isPositive_iff`: what is above zero is a number that is not at zero or below.
* `Binary64.isPositive_of_ofInt?`: the nearest real of an integer above zero is above zero.
-/

namespace TypeGraph

/-- Rounding does not lead below the whole part of a quotient. -/
theorem div_le_roundHalfEven
    (num den : Nat) :
    num / den ≤ roundHalfEven num den := by
  simp only [roundHalfEven]
  split_ifs <;> omega

namespace Binary64

/-- The value is above zero. -/
def isPositive : Binary64 → Bool
  | .finite s m _ => !s && m != 0
  | .infinite s => !s
  | .nan => false

/-- What is above zero is a number that is not at zero or below. -/
theorem isPositive_iff
    {x : Binary64} :
    x.isPositive = true ↔ x.isNonpositive = false ∧ x ≠ .nan := by
  cases x <;> simp [isPositive, isNonpositive]

section Rounded

variable {negative sign : Bool} {n m : Nat} {e : Int}

/-- Packing a mantissa above zero gives a mantissa above zero. -/
theorem mantissa_ne_zero_of_pack
    {mantissa : Nat}
    {exponent : Int}
    (hmantissa : mantissa ≠ 0)
    (h : pack negative mantissa exponent = .finite sign m e) :
    m ≠ 0 := by
  unfold pack at h
  split_ifs at h with hcarry
  · simp only at h
    split_ifs at h
    cases h
    exact Nat.ne_of_gt (Nat.pow_pos (by decide))
  · simp only at h
    split_ifs at h
    cases h
    exact hmantissa

/-- A natural above zero is at least one unit of the last place that its exponent stands for. -/
theorem unit_le_of_scaled
    {num den : Nat}
    (hn : n ≠ 0)
    (hs : scaled n 1 ((n.log2 : Int) - 52) = (num, den)) :
    0 < den ∧ den ≤ num := by
  unfold scaled at hs
  split_ifs at hs with he
  · cases hs
    have hpow : (2 : Nat) ^ ((n.log2 : Int) - 52).toNat ≤ 2 ^ n.log2 :=
      Nat.pow_le_pow_right (by decide) (by omega)
    have hle := hpow.trans (Nat.log2_self_le hn)
    have hpos := Nat.two_pow_pos ((n.log2 : Int) - 52).toNat
    simpa using And.intro hpos hle
  · cases hs
    have hpos := Nat.mul_pos (Nat.pos_of_ne_zero hn)
      (Nat.two_pow_pos (-((n.log2 : Int) - 52)).toNat)
    exact ⟨Nat.one_pos, hpos⟩

/-- The mantissa of a natural above zero is above zero. -/
theorem mantissa_ne_zero_of_ofRatio
    (hn : n ≠ 0)
    (h : ofRatio negative n 1 = .finite sign m e) :
    m ≠ 0 := by
  rcases hs : scaled n 1 ((n.log2 : Int) - 52) with ⟨num, den⟩
  obtain ⟨hden, hle⟩ := unit_le_of_scaled hn hs
  rw [ofRatio_eq_pack hn (exponentOf_one hn) hs] at h
  refine mantissa_ne_zero_of_pack (Nat.ne_of_gt ?_) h
  calc 0 < num / den := Nat.div_pos hle hden
    _ ≤ roundHalfEven num den := div_le_roundHalfEven num den

end Rounded

/-- The nearest real of an integer above zero is above zero. -/
theorem isPositive_of_ofInt?
    {n : Int}
    {x : Binary64}
    (hn : 0 < n)
    (h : ofInt? n = some x) :
    x.isPositive = true := by
  have hsign : decide (n < 0) = false := decide_eq_false (by omega)
  rw [ofInt?, hsign] at h
  rcases ofRatio_infinite_or_finite false n.natAbs 1 with hinf | ⟨m, e, hfinite⟩
  · rw [hinf] at h
    cases h
  · rw [hfinite] at h
    cases h
    have hm := mantissa_ne_zero_of_ofRatio (by omega) hfinite
    simpa [isPositive] using hm

end Binary64

namespace Number

/-- The number is above zero. -/
def isPositive : Number → Bool
  | .int n => decide (0 < n)
  | .real x => x.isPositive

end Number
end TypeGraph
