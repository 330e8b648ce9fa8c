import MapStyle.Proofs.Decimals.Intervals

/-!
# Rounding

A product is rounded to the floating-point number nearest to it. What the bits that are shifted out of a
significand were is kept in two residual bits, and these say on which side of the middle the exact number is.
-/

namespace MapStyle.Decimal

open Float.Model hiding unpack pack
open Float.Model.UnpackedFloat

variable {em : ExtendedMantissa} {q : ℚ} {m n : ℕ} {e : ℤ} {s : Sign}

/-! ### Residual bits -/

/-- What a mantissa and its residual bits say of a number: it is the mantissa, or between that and the middle
to the next one, or the middle, or between the middle and the next one. -/
def Approximates (em : ExtendedMantissa) (q : ℚ) : Prop :=
  match em.roundBit, em.stickyBit with
  | false, false => q = em.mantissa
  | false, true => em.mantissa < q ∧ q < em.mantissa + 1 / 2
  | true, false => q = em.mantissa + 1 / 2
  | true, true => em.mantissa + 1 / 2 < q ∧ q < em.mantissa + 1

lemma Approximates.shiftRightOne (h : Approximates em q) : Approximates em.shiftRightOne (q / 2) := by
  obtain ⟨m, round, sticky⟩ := em
  have hm : (m : ℚ) = 2 * (m / 2 : ℕ) + (m % 2 : ℕ) := by exact_mod_cast (Nat.div_add_mod m 2).symm
  have hlast := Nat.mod_two_eq_zero_or_one m
  obtain hlast | hlast := hlast <;> cases round <;> cases sticky <;>
    simp only [Approximates, ExtendedMantissa.shiftRightOne, hlast, bne_self_eq_false, Bool.or_false,
      Bool.or_true, Bool.or_self, Nat.cast_zero, Nat.cast_one, add_zero, Nat.reduceBNe] at h hm ⊢ <;>
    rw [hm] at h <;> first | linarith | constructor <;> linarith

lemma Approximates.shiftRight (h : Approximates em q) (n : ℕ) : Approximates (em >>> n) (q / 2 ^ n) := by
  induction n with
  | zero =>
    rw [pow_zero, div_one]
    exact h
  | succ n ih =>
    rw [pow_succ, ← div_div]
    exact ih.shiftRightOne

/-- Rounding goes to the nearest integer, and to the even one from the middle. -/
lemma Approximates.roundedMantissa (h : Approximates em q) :
    2 * (em.roundedMantissa : ℚ) - 1 ≤ 2 * q ∧ 2 * q ≤ 2 * em.roundedMantissa + 1 ∧
      (em.roundedMantissa % 2 ≠ 0 →
        2 * (em.roundedMantissa : ℚ) - 1 < 2 * q ∧ 2 * q < 2 * em.roundedMantissa + 1) := by
  obtain ⟨m, round, sticky⟩ := em
  cases round <;> cases sticky <;>
    simp only [Approximates, ExtendedMantissa.roundedMantissa, ExtendedMantissa.accuracy,
      Accuracy.roundToNearestEven] at h ⊢
  · refine ⟨?_, ?_, fun _ => ⟨?_, ?_⟩⟩ <;> linarith
  · refine ⟨?_, ?_, fun _ => ⟨?_, ?_⟩⟩ <;> linarith
  · have hlast := Nat.mod_two_eq_zero_or_one m
    obtain hlast | hlast := hlast
    · rw [hlast]
      push_cast
      refine ⟨?_, ?_, fun hodd => absurd hlast hodd⟩ <;> linarith
    · rw [hlast]
      push_cast
      refine ⟨?_, ?_, fun hodd => absurd ?_ hodd⟩
      · linarith
      · linarith
      · omega
  · push_cast
    refine ⟨?_, ?_, fun _ => ⟨?_, ?_⟩⟩ <;> linarith

/-! ### Rounding to the format -/

lemma targetExponent_eq (h : -1074 ≤ e + m.log2 - 52) :
    Format.binary64.targetExponent (totalExponent m e) = e + m.log2 - 52 := by
  have hmin : Format.binary64.minExponent = -1074 := rfl
  have hbits : (Format.binary64.mantissaBits : ℤ) = 53 := rfl
  rw [Format.targetExponent, totalExponent, hmin, hbits]
  omega

/-- The magnitude with that significand and that exponent. -/
def Positive.ofParts (significand : ℕ) (exponent : ℤ) : Positive :=
  ⟨significand, exponent, significand = 2 ^ 52 && -1074 < exponent⟩

lemma shiftToTargetExponent_eq (hm : 2 ^ 52 ≤ m) (he : -1074 ≤ e + m.log2 - 52) (accuracy : Accuracy) :
    shiftToTargetExponent Format.binary64 m e accuracy =
      (ExtendedMantissa.ofMantissaAndAccuracy m accuracy >>> (m.log2 - 52), e + m.log2 - 52) := by
  have hlog : 52 ≤ m.log2 := (Nat.le_log2 (by omega)).mpr hm
  have hshift : (e + m.log2 - 52 - e).toNat = m.log2 - 52 := by omega
  simp only [shiftToTargetExponent, shiftToExponent, targetExponent_eq he, hshift, Prod.mk.injEq, true_and]
  omega

/-- The interval around a magnitude, measured in gaps. -/
lemma Positive.has_interval_iff {x : Positive} {v : ℚ} : x.interval.Has (v * 2 ^ x.exponent) ↔
    (x.interval.low ≤ 4 * v ∧ 4 * v ≤ x.interval.high) ∧
      (x.significand % 2 ≠ 0 → x.interval.low < 4 * v ∧ 4 * v < x.interval.high) := by
  have hpos : (0 : ℚ) < 2 ^ x.interval.exponent := by positivity
  have hgap : v * 2 ^ x.exponent = 4 * v * 2 ^ x.interval.exponent := by
    have hfour : (4 : ℚ) = 2 ^ (2 : ℤ) := by norm_num
    rw [mul_comm 4 v, mul_assoc, hfour, ← zpow_add₀ two_ne_zero]
    simp [interval]
  have hclosed : ¬ x.interval.closed ↔ x.significand % 2 ≠ 0 := by simp [interval]
  rw [hgap]
  constructor
  · rintro ⟨hlow, hhigh, hinside⟩
    rw [hclosed] at hinside
    simp only [mul_le_mul_iff_left₀ hpos, mul_lt_mul_iff_left₀ hpos] at hlow hhigh hinside
    exact ⟨⟨hlow, hhigh⟩, hinside⟩
  · rintro ⟨⟨hlow, hhigh⟩, hinside⟩
    refine ⟨?_, ?_, ?_⟩
    · exact (mul_le_mul_iff_left₀ hpos).mpr hlow
    · exact (mul_le_mul_iff_left₀ hpos).mpr hhigh
    · rw [hclosed, mul_lt_mul_iff_left₀ hpos, mul_lt_mul_iff_left₀ hpos]
      exact hinside

lemma Positive.has_ofParts_iff {M : ℕ} {E : ℤ} {v : ℚ} (hM : 0 < M) :
    (ofParts M E).interval.Has (v * 2 ^ E) ↔
      (4 * M - (if M = 2 ^ 52 ∧ -1074 < E then 1 else 2) ≤ 4 * v ∧ 4 * v ≤ 4 * M + 2) ∧
        (M % 2 ≠ 0 → 4 * M - (if M = 2 ^ 52 ∧ -1074 < E then 1 else 2) < 4 * v ∧ 4 * v < 4 * M + 2) := by
  have hlow : ((ofParts M E).interval.low : ℚ) = 4 * M - if M = 2 ^ 52 ∧ -1074 < E then 1 else 2 := by
    simp only [interval, ofParts, Bool.and_eq_true, decide_eq_true_eq]
    split_ifs <;> rw [Nat.cast_sub (by omega)] <;> push_cast <;> rfl
  have hhigh : ((ofParts M E).interval.high : ℚ) = 4 * M + 2 := by
    simp only [interval, ofParts]
    push_cast
    rfl
  rw [← hlow, ← hhigh]
  exact has_interval_iff (x := .ofParts M E)

/-- A significand with 53 bits or more is brought to 53 bits, and the exact number is within one gap above what
is left. -/
lemma approximates_shiftRight (hm : 2 ^ 52 ≤ m) :
    ∃ v : ℚ, (2 ^ 52 ≤ v ∧ v < 2 ^ 53) ∧ (m : ℚ) * 2 ^ e = v * 2 ^ (e + m.log2 - 52) ∧
      Approximates (ExtendedMantissa.ofMantissaAndAccuracy m .exact >>> (m.log2 - 52)) v := by
  have hlog : 52 ≤ m.log2 := (Nat.le_log2 (by omega)).mpr hm
  obtain ⟨k, hk⟩ := Nat.exists_eq_add_of_le hlog
  have hlow : (2 : ℚ) ^ (52 + k) ≤ m := by exact_mod_cast hk ▸ Nat.log2_self_le (by omega : m ≠ 0)
  have hhigh : (m : ℚ) < 2 ^ (53 + k) := by
    have hlt : m < 2 ^ (m.log2 + 1) := Nat.lt_log2_self
    rw [hk] at hlt
    exact_mod_cast (show 52 + k + 1 = 53 + k by omega) ▸ hlt
  have hpos : (0 : ℚ) < 2 ^ k := by positivity
  refine ⟨m / 2 ^ k, ⟨?_, ?_⟩, ?_, ?_⟩
  · rwa [le_div_iff₀ hpos, ← pow_add]
  · rwa [div_lt_iff₀ hpos, ← pow_add]
  · have hexponent : e + (m.log2 : ℤ) - 52 = e + k := by omega
    rw [hexponent, zpow_add₀ two_ne_zero, zpow_natCast]
    field_simp
  · rw [hk, Nat.add_sub_cancel_left]
    have hexact : Approximates (.ofMantissaAndAccuracy m .exact) (m : ℚ) := rfl
    exact hexact.shiftRight k

/-- A number with 53 bits before the point is in the interval around the integer that it is rounded to. -/
lemma has_ofParts_of_rounded {r : ℕ} {v : ℚ} (hr : 2 ^ 52 ≤ r) (hlow : 2 ^ 52 ≤ v)
    (hdown : 2 * (r : ℚ) - 1 ≤ 2 * v) (hup : 2 * v ≤ 2 * r + 1)
    (hodd : r % 2 ≠ 0 → 2 * (r : ℚ) - 1 < 2 * v ∧ 2 * v < 2 * r + 1) (E : ℤ) :
    (Positive.ofParts r E).interval.Has (v * 2 ^ E) := by
  rw [Positive.has_ofParts_iff (by omega)]
  split_ifs with hnarrow
  · have hv : (r : ℚ) ≤ v := by
      rw [hnarrow.1]
      exact_mod_cast hlow
    refine ⟨⟨?_, ?_⟩, fun hr => absurd hnarrow.1 ?_⟩
    · linarith
    · linarith
    · omega
  · refine ⟨⟨?_, ?_⟩, fun hr => ?_⟩
    · linarith
    · linarith
    · obtain ⟨hdown, hup⟩ := hodd hr
      constructor <;> linarith

/-- A number that is rounded up to 54 bits is in the interval around the least significand of the next
exponent. -/
lemma has_ofParts_of_carry {v : ℚ} {E : ℤ} (hE : -1074 ≤ E) (hdown : 2 * 2 ^ 53 - 1 ≤ 2 * v)
    (hhigh : v < 2 ^ 53) : (Positive.ofParts (2 ^ 52) (E + 1)).interval.Has (v * 2 ^ E) := by
  have hv : v * 2 ^ E = v / 2 * 2 ^ (E + 1) := by
    rw [zpow_add_one₀ two_ne_zero]
    ring
  rw [hv, Positive.has_ofParts_iff (by decide), if_pos ⟨rfl, by omega⟩]
  push_cast
  refine ⟨⟨?_, ?_⟩, fun hr => absurd rfl hr⟩
  · linarith
  · linarith

/-- A product with enough bits is rounded to the number of the format that is nearest to it. -/
theorem exists_roundWithAccuracy (hm : 2 ^ 52 ≤ m) (he : -1074 ≤ e + m.log2 - 52) (s : Sign) :
    ∃ (M : ℕ) (E : ℤ) (hM : 0 < M), roundWithAccuracy Format.binary64 s m e .exact = .finite s M E hM ∧
      (2 ^ 52 ≤ M ∧ M < 2 ^ 53) ∧ (e + m.log2 - 52 ≤ E ∧ E ≤ e + m.log2 - 51) ∧
      (Positive.ofParts M E).interval.Has (m * 2 ^ e) := by
  obtain ⟨v, ⟨hlow, hhigh⟩, hvalue, happrox⟩ := approximates_shiftRight (e := e) hm
  rw [roundWithAccuracy, shiftToTargetExponent_eq hm he, hvalue]
  dsimp only
  generalize ExtendedMantissa.ofMantissaAndAccuracy m .exact >>> (m.log2 - 52) = em at happrox ⊢
  generalize hexponent : e + (m.log2 : ℤ) - 52 = E at he ⊢
  obtain ⟨hdown, hup, hodd⟩ := happrox.roundedMantissa
  generalize em.roundedMantissa = r at hdown hup hodd ⊢
  have hle : 2 ^ 52 ≤ r := by
    have hle : (2 : ℚ) * 2 ^ 52 ≤ 2 * r + 1 := by linarith
    have hle' : 2 * 2 ^ 52 ≤ 2 * r + 1 := by exact_mod_cast hle
    omega
  have hge : r ≤ 2 ^ 53 := by
    have hlt : (2 : ℚ) * r < 2 * 2 ^ 53 + 1 := by linarith
    have hlt' : 2 * r < 2 * 2 ^ 53 + 1 := by exact_mod_cast hlt
    omega
  have hlog : 52 ≤ r.log2 := (Nat.le_log2 (by omega)).mpr hle
  rw [shiftToTargetExponent_eq hle (by omega)]
  dsimp only
  -- rounding may carry into a further bit, and then one bit is shifted out again
  obtain hlt | rfl := Nat.lt_or_eq_of_le hge
  · have hlog' : r.log2 = 52 := by
      have hlt' : r.log2 < 53 := (Nat.log2_lt (by omega)).mpr hlt
      omega
    have hr : (ExtendedMantissa.ofMantissaAndAccuracy r .exact >>> (r.log2 - 52)).mantissa = r := by
      rw [hlog']
      rfl
    have hE : E + r.log2 - 52 = E := by omega
    rw [hr, hE, dif_neg (by omega)]
    exact ⟨r, E, by omega, rfl, ⟨hle, hlt⟩, ⟨le_rfl, by omega⟩,
      has_ofParts_of_rounded hle hlow hdown hup hodd E⟩
  · have hlog' : (2 ^ 53).log2 = 53 := Nat.log2_two_pow
    have hr : (ExtendedMantissa.ofMantissaAndAccuracy (2 ^ 53) .exact >>>
        ((2 ^ 53).log2 - 52)).mantissa = 2 ^ 52 := by
      rw [hlog']
      rfl
    have hE : E + (2 ^ 53).log2 - 52 = E + 1 := by
      rw [hlog']
      omega
    rw [hr, hE, dif_neg (by decide)]
    push_cast at hdown
    exact ⟨2 ^ 52, E + 1, by decide, rfl, by decide, ⟨by omega, by omega⟩,
      has_ofParts_of_carry he hdown hhigh⟩

end MapStyle.Decimal
