import MapStyle.Proofs.Decimals.Doubles

/-!
# Numbers that read as the same floating-point number

Around each magnitude of the double-precision format is the interval of the numbers that it is nearest to.
Two magnitudes whose intervals meet are the same (`Positive.IsDouble.eq_of_mem`): between neighbours the
middle belongs to the even one only. A floating-point number is determined by what it stands for
(`Decoded.ofFloat_injective`).
-/

namespace MapStyle.Decimal

/-! ### Magnitudes of the format -/

/-- A magnitude of the double-precision format: it has 53 bits, or fewer at the least exponent. -/
structure Positive.IsDouble (x : Positive) : Prop where
  significand_lt : x.significand < 2 ^ 53
  le_exponent : -1074 ≤ x.exponent
  exponent_le : x.exponent ≤ 971
  normal : -1074 < x.exponent → 2 ^ 52 ≤ x.significand
  narrowBelow_iff : x.narrowBelow ↔ x.significand = 2 ^ 52 ∧ -1074 < x.exponent

variable {x y : Positive} {negative : Bool} {q r : ℚ}

lemma Positive.IsDouble.ext (hx : x.IsDouble) (hy : y.IsDouble) (hsignificand : x.significand = y.significand)
    (hexponent : x.exponent = y.exponent) : x = y := by
  obtain ⟨s, e, n⟩ := x
  obtain ⟨_, _, m⟩ := y
  obtain rfl : s = _ := hsignificand
  obtain rfl : e = _ := hexponent
  rw [Positive.mk.injEq]
  exact ⟨rfl, rfl, Bool.eq_iff_iff.mpr (hx.narrowBelow_iff.trans hy.narrowBelow_iff.symm)⟩

/-- The fields of a finite number are a magnitude of the format. -/
lemma isDouble_ofFields {field fraction : ℕ} (hfield : field < 2047) (hfraction : fraction < 2 ^ 52) :
    (Positive.ofFields 52 1023 field fraction).IsDouble := by
  unfold Positive.ofFields
  simp only [Nat.pow_eq]
  split_ifs with hzero
  · constructor <;> simp
    omega
  · constructor <;> simp <;> omega

lemma isDouble_of_ofFloat {f : Float} (h : Decoded.ofFloat f = .finite negative x) : x.IsDouble := by
  simp only [Decoded.ofFloat, Decoded.ofBits, Positive.ofBits, Nat.pow_eq] at h
  split_ifs at h with hspecial
  obtain ⟨-, rfl⟩ := Decoded.finite.inj h
  refine isDouble_ofFields ?_ (Nat.mod_lt _ (by decide))
  have hlt : f.toBits.toNat / 2 ^ 52 % 2 ^ 11 < 2 ^ 11 := Nat.mod_lt _ (by decide)
  omega

/-! ### Numbers and what they stand for -/

/-- The fields of a finite number can be read off its magnitude. -/
lemma ofFields_inj {field field' fraction fraction' : ℕ} (hfraction : fraction < 2 ^ 52)
    (hfraction' : fraction' < 2 ^ 52)
    (h : Positive.ofFields 52 1023 field fraction = Positive.ofFields 52 1023 field' fraction') :
    field = field' ∧ fraction = fraction' := by
  unfold Positive.ofFields at h
  simp only [Nat.pow_eq] at h
  split_ifs at h <;> simp only [Positive.mk.injEq] at h <;> omega

/-- The bits of a number, or of what is none in the one way that the format keeps, can be read off what they
stand for. -/
lemma ofBits_inj {b c : ℕ} (hb : b < 2 ^ 64) (hc : c < 2 ^ 64)
    (hnumber : Decoded.ofBits 11 52 b ≠ .notANumber) (h : Decoded.ofBits 11 52 b = Decoded.ofBits 11 52 c) :
    b = c := by
  have hfield (a : ℕ) : a / 2 ^ 52 % 2 ^ 11 < 2 ^ 11 := Nat.mod_lt _ (by decide)
  have hfraction (a : ℕ) : a % 2 ^ 52 < 2 ^ 52 := Nat.mod_lt _ (by decide)
  simp only [Decoded.ofBits, Positive.ofBits, Nat.pow_eq] at h hnumber
  split_ifs at h hnumber
  · have hsign := Decoded.infinite.inj h
    rw [decide_eq_decide] at hsign
    omega
  · exact absurd rfl hnumber
  · obtain ⟨hsign, hmagnitude⟩ := Decoded.finite.inj h
    obtain ⟨hfields, hfractions⟩ := ofFields_inj (hfraction b) (hfraction c) hmagnitude
    rw [decide_eq_decide] at hsign
    omega

open Float.Model Float.Model.UnpackedFloat in
lemma toBitVec_eq_of_notANumber {f : Float} (h : Decoded.ofFloat f = .notANumber) :
    f.toBits.toBitVec = packedNaN Format.binary64 := by
  simp only [Decoded.ofFloat, Decoded.ofBits] at h
  split_ifs at h with hfield hfraction
  refine f.toModel.valid.eq_packedNaN (unpackExponent_eq_neg_one_iff.mpr hfield) ?_
  exact mt unpackMantissa_eq_zero_iff.mp hfraction

lemma Decoded.ofFloat_injective : Function.Injective Decoded.ofFloat := by
  intro f g h
  have hbits : f.toBits = g.toBits := by
    by_cases hnumber : Decoded.ofFloat f = .notANumber
    · rw [← UInt64.toBitVec_inj, toBitVec_eq_of_notANumber hnumber, toBitVec_eq_of_notANumber (h ▸ hnumber)]
    · exact UInt64.toNat_inj.mp (ofBits_inj f.toBits.toNat_lt g.toBits.toNat_lt hnumber h)
  obtain ⟨_, _⟩ := f
  obtain ⟨_, _⟩ := g
  obtain rfl := hbits
  rfl

/-! ### Intervals -/

/-- A number inside an interval. The ends are inside if it is closed. -/
structure Interval.Has (i : Interval) (q : ℚ) : Prop where
  low_le : i.low * 2 ^ i.exponent ≤ q
  le_high : q ≤ i.high * 2 ^ i.exponent
  inside : ¬ i.closed → i.low * 2 ^ i.exponent < q ∧ q < i.high * 2 ^ i.exponent

namespace Interval

variable {i j : Interval}

/-- Of two intervals with a common number, neither begins behind the end of the other, and both are closed if
they only touch. -/
lemma Has.low_le_high {k : ℕ} (hi : i.Has q) (hj : j.Has q) (hk : j.exponent = i.exponent + k) :
    j.low * 2 ^ k ≤ i.high ∧ (j.low * 2 ^ k = i.high → i.closed ∧ j.closed) := by
  have hpos : (0 : ℚ) < 2 ^ i.exponent := by positivity
  have hscale : (j.low : ℚ) * 2 ^ j.exponent = (j.low * 2 ^ k : ℕ) * 2 ^ i.exponent := by
    rw [hk, zpow_add₀ two_ne_zero, zpow_natCast]
    push_cast
    ring
  have hlow := hj.low_le
  have hlow' := hj.inside
  rw [hscale] at hlow hlow'
  constructor
  · have hle := le_of_mul_le_mul_right (hlow.trans hi.le_high) hpos
    exact_mod_cast hle
  · intro htouch
    rw [htouch] at hlow hlow'
    constructor
    · by_contra hopen
      exact absurd hlow (not_le.mpr (hi.inside hopen).2)
    · by_contra hopen
      exact absurd hi.le_high (not_le.mpr (hlow' hopen).1)

/-- What a step of a decimal grid and one of the interval are on their common scale. -/
lemma scale_eq (i : Interval) (k : ℤ) : ∃ u : ℚ, 0 < u ∧ (10 : ℚ) ^ k * u = (i.scale k).decimal ∧
    (2 : ℚ) ^ i.exponent * u = (i.scale k).binary := by
  have hzpow {a : ℚ} (ha : a ≠ 0) (n : ℤ) : a ^ n * a ^ (-n).toNat = a ^ n.toNat := by
    rw [← zpow_natCast, ← zpow_natCast, ← zpow_add₀ ha]
    congr 1
    omega
  refine ⟨10 ^ (-k).toNat * 2 ^ (-i.exponent).toNat, by positivity, ?_, ?_⟩
  · rw [← mul_assoc, hzpow (by norm_num)]
    simp [scale]
  · rw [mul_comm (10 ^ _ : ℚ), ← mul_assoc, hzpow two_ne_zero]
    simp [scale]

section

variable {k : ℤ} {a d : ℕ}

lemma decimal_le_iff : (d : ℚ) * 10 ^ k ≤ a * 2 ^ i.exponent ↔
    d * (i.scale k).decimal ≤ a * (i.scale k).binary := by
  obtain ⟨u, hu, hdecimal, hbinary⟩ := i.scale_eq k
  rw [← mul_le_mul_iff_left₀ hu, mul_assoc, mul_assoc, hdecimal, hbinary]
  norm_cast

lemma le_decimal_iff : (a : ℚ) * 2 ^ i.exponent ≤ d * 10 ^ k ↔
    a * (i.scale k).binary ≤ d * (i.scale k).decimal := by
  obtain ⟨u, hu, hdecimal, hbinary⟩ := i.scale_eq k
  rw [← mul_le_mul_iff_left₀ hu, mul_assoc, mul_assoc, hdecimal, hbinary]
  norm_cast

lemma contains_iff : i.contains k d ↔ i.Has (d * 10 ^ k) := by
  have hlt : (d : ℚ) * 10 ^ k < i.high * 2 ^ i.exponent ↔
      d * (i.scale k).decimal < i.high * (i.scale k).binary := by
    rw [← not_le, le_decimal_iff, not_le]
  have hgt : (i.low : ℚ) * 2 ^ i.exponent < d * 10 ^ k ↔
      i.low * (i.scale k).binary < d * (i.scale k).decimal := by
    rw [← not_le, decimal_le_iff, not_le]
  simp only [contains]
  split_ifs with hclosed <;> rw [Bool.and_eq_true, decide_eq_true_eq, decide_eq_true_eq]
  · rw [← le_decimal_iff, ← decimal_le_iff]
    exact ⟨fun h => ⟨h.1, h.2, fun hopen => absurd hclosed hopen⟩, fun h => ⟨h.low_le, h.le_high⟩⟩
  · rw [← hgt, ← hlt]
    exact ⟨fun h => ⟨h.1.le, h.2.le, fun _ => h⟩, fun h => h.inside hclosed⟩

end

end Interval

namespace Positive

/-- Two magnitudes that a number is nearest to are the same. -/
theorem IsDouble.eq_of_mem (hx : x.IsDouble) (hy : y.IsDouble) (hq : x.interval.Has q)
    (hq' : y.interval.Has q) : x = y := by
  wlog hle : x.exponent ≤ y.exponent generalizing x y
  · exact (this hy hx hq' hq (le_of_not_ge hle)).symm
  obtain ⟨k, hk⟩ := Int.exists_add_of_le hle
  have hk' : y.interval.exponent = x.interval.exponent + k := by
    simp only [interval]
    omega
  -- the lower interval reaches the upper one, and at a common end both are even
  obtain ⟨hmeet, htouch⟩ := hq.low_le_high hq' hk'
  simp only [interval, decide_eq_true_eq] at hmeet htouch
  have hlt := hx.significand_lt
  cases k with
  | zero =>
    have hexponent : x.exponent = y.exponent := by omega
    -- with the same exponent this holds both ways, which leaves one significand
    obtain ⟨hmeet', htouch'⟩ := hq'.low_le_high (k := 0) hq (by simp [interval, hexponent])
    simp only [interval, decide_eq_true_eq] at hmeet' htouch'
    refine hx.ext hy ?_ hexponent
    split_ifs at * <;> omega
  | succ k =>
    have hexponent : -1074 < y.exponent := by
      have hle := hx.le_exponent
      omega
    have hnormal := hy.normal hexponent
    -- a larger exponent at least doubles the spacing, so that the upper interval starts too far up
    have htwo : 2 ≤ 2 ^ (k + 1) := Nat.le_self_pow k.succ_ne_zero 2
    have hdouble := Nat.mul_le_mul_left (4 * y.significand - if y.narrowBelow then 1 else 2) htwo
    by_cases hnarrow : y.narrowBelow
    · have hleast := (hy.narrowBelow_iff.mp hnarrow).1
      rw [if_pos hnarrow] at *
      omega
    · have hleast : y.significand ≠ 2 ^ 52 :=
        fun hleast => hnarrow (hy.narrowBelow_iff.mpr ⟨hleast, hexponent⟩)
      rw [if_neg hnarrow] at *
      omega

end Positive

end MapStyle.Decimal
