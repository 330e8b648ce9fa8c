import Mathlib
import MapStyle.Decimal.Binary

/-!
# What floating-point numbers are

The library gives each floating-point number a meaning: it is taken apart into a sign, a significand and an
exponent. That agrees with reading its bits field by field (`ofFloat_eq`), and says which rational number it
is. A floating-point number without a fraction is that integer (`Decoded.toInt?_eq_some_iff`).
-/

namespace MapStyle.Decimal

open Float.Model hiding unpack pack
open Float.Model.UnpackedFloat

/-! ### Two ways to take a number apart -/

/-- Whether a sign is a minus. -/
def isMinus : Sign → Bool
  | .negative => true
  | .positive => false

/-- What a floating-point number stands for, by the library's own account of it. -/
def Decoded.ofUnpacked : UnpackedFloat → Decoded
  | .notANumber => .notANumber
  | .infinity s => .infinite (isMinus s)
  | .zero s => .finite (isMinus s) ⟨0, -1074, false⟩
  | .finite s m e _ => .finite (isMinus s) ⟨m, e, m = 2 ^ 52 && -1074 < e⟩

variable {b : BitVec Format.binary64.numBits}

lemma toNat_unpackMantissa : (unpackMantissa b).toNat = b.toNat % 2 ^ 52 := by
  simp [unpackMantissa, BitVec.extractLsb_toNat]

lemma toNat_unpackExponent : (unpackExponent b).toNat = b.toNat / 2 ^ 52 % 2 ^ 11 := by
  simp [unpackExponent, BitVec.extractLsb_toNat, Nat.shiftRight_eq_div_pow]

lemma isMinus_unpackSign : isMinus (Sign.ofBitVec (unpackSign b)) = decide (b.toNat / 2 ^ 63 % 2 = 1) := by
  have h : (unpackSign b).toNat = b.toNat / 2 ^ 63 % 2 := by
    simp [unpackSign, BitVec.extractLsb_toNat, Nat.shiftRight_eq_div_pow]
  rw [← h]
  generalize unpackSign b = s
  revert s
  decide

lemma unpackExponent_eq_neg_one_iff :
    unpackExponent b = -1#_ ↔ b.toNat / Nat.pow 2 52 % Nat.pow 2 11 = Nat.pow 2 11 - 1 := by
  rw [← BitVec.toNat_inj, toNat_unpackExponent]
  rfl

lemma unpackExponent_eq_zero_iff : unpackExponent b = 0#_ ↔ b.toNat / Nat.pow 2 52 % Nat.pow 2 11 = 0 := by
  rw [← BitVec.toNat_inj, toNat_unpackExponent]
  rfl

lemma unpackMantissa_eq_zero_iff : unpackMantissa b = 0#_ ↔ b.toNat % Nat.pow 2 52 = 0 := by
  rw [← BitVec.toNat_inj, toNat_unpackMantissa]
  rfl

lemma toNat_append_unpackMantissa : (1#1 ++ unpackMantissa b).toNat = 2 ^ 52 + b.toNat % 2 ^ 52 := by
  rw [BitVec.toNat_append, ← Nat.shiftLeft_add_eq_or_of_lt (unpackMantissa b).isLt, toNat_unpackMantissa]
  rfl

lemma ofBits_eq (b : BitVec Format.binary64.numBits) :
    Decoded.ofBits 11 52 b.toNat = .ofUnpacked (unpack Format.binary64 b) := by
  unfold Decoded.ofBits unpack
  -- all ones in the exponent field: infinity or no number
  by_cases hspecial : unpackExponent b = -1#_
  · rw [if_pos hspecial, if_pos (unpackExponent_eq_neg_one_iff.mp hspecial)]
    by_cases hzero : unpackMantissa b = 0#_
    · rw [if_pos hzero, if_pos (unpackMantissa_eq_zero_iff.mp hzero), Decoded.ofUnpacked, isMinus_unpackSign]
      rfl
    · rw [if_neg hzero, if_neg (mt unpackMantissa_eq_zero_iff.mpr hzero)]
      rfl
  · rw [if_neg hspecial, if_neg (mt unpackExponent_eq_neg_one_iff.mpr hspecial), Positive.ofBits]
    dsimp only
    -- zero there: no implicit bit, and zero if the mantissa is zero too
    by_cases hsubnormal : unpackExponent b = 0#_
    · rw [if_pos hsubnormal, Positive.ofFields, if_pos (unpackExponent_eq_zero_iff.mp hsubnormal)]
      by_cases hzero : unpackMantissa b = 0#_
      · rw [dif_pos hzero, Decoded.ofUnpacked, isMinus_unpackSign, unpackMantissa_eq_zero_iff.mp hzero]
        rfl
      · have hlt : b.toNat % 2 ^ 52 ≠ 2 ^ 52 := (Nat.mod_lt _ (by decide)).ne
        rw [dif_neg hzero, Decoded.ofUnpacked, isMinus_unpackSign, toNat_unpackMantissa, hsubnormal,
          decide_eq_false hlt]
        rfl
    · -- otherwise the implicit bit is in front of the mantissa
      have hfield : b.toNat / Nat.pow 2 52 % Nat.pow 2 11 ≠ 0 := mt unpackExponent_eq_zero_iff.mpr hsubnormal
      have hbias : (Format.binary64.exponentBias : Int) = 1023 := rfl
      rw [if_neg hsubnormal, Positive.ofFields, if_neg hfield, Decoded.ofUnpacked, isMinus_unpackSign,
        toNat_append_unpackMantissa, toNat_unpackExponent, hbias]
      refine congrArg (Decoded.finite _) (Positive.mk.injEq .. ▸ ⟨rfl, ?_, ?_⟩)
      · simp only [Nat.pow_eq]
        omega
      · rw [Bool.eq_iff_iff]
        simp only [Nat.pow_eq, Bool.and_eq_true, decide_eq_true_eq] at hfield ⊢
        omega

lemma ofFloat_eq (x : Float) : Decoded.ofFloat x = .ofUnpacked x.toModel.unpack :=
  ofBits_eq _

/-! ### Exact values -/

/-- The number that a magnitude is. -/
def Positive.value (x : Positive) : ℚ :=
  x.significand * 2 ^ x.exponent

/-- The number that a floating-point number is, if it is finite. -/
def Decoded.value? : Decoded → Option ℚ
  | .finite negative magnitude => some (if negative then -magnitude.value else magnitude.value)
  | _ => none

/-- The exact number that a floating-point number is, if it is finite. -/
def exactFloat? (x : Float) : Option ℚ :=
  match x.toModel.unpack with
  | .zero _ => some 0
  | .finite s m e _ => some (s.apply m * 2 ^ e)
  | .infinity _ | .notANumber => none

lemma value?_ofFloat (x : Float) : (Decoded.ofFloat x).value? = exactFloat? x := by
  rw [ofFloat_eq, exactFloat?]
  cases x.toModel.unpack with
  | infinity s => rfl
  | notANumber => rfl
  | zero s =>
    cases s <;> simp [Decoded.ofUnpacked, Decoded.value?, Positive.value]
  | finite s m e hm =>
    cases s <;> simp [Decoded.ofUnpacked, Decoded.value?, Positive.value, isMinus, Sign.apply]

/-- The natural number that a magnitude is, if it is one. -/
lemma Positive.whole_eq_some_iff {s n : ℕ} {e : ℤ} :
    (if 0 ≤ e then some (s * Nat.pow 2 e.toNat)
      else if s % Nat.pow 2 (-e).toNat = 0 then some (s / Nat.pow 2 (-e).toNat) else none) = some n ↔
      (s : ℚ) * 2 ^ e = n := by
  simp only [Nat.pow_eq]
  split_ifs with he hdvd
  · obtain ⟨k, rfl⟩ := Int.eq_ofNat_of_zero_le he
    rw [Option.some_inj, Int.toNat_natCast, zpow_natCast]
    norm_cast
  all_goals
    obtain ⟨k, rfl⟩ := Int.exists_eq_neg_ofNat (le_of_not_ge he)
    rw [neg_neg, Int.toNat_natCast] at hdvd
    have hquotient : (s : ℚ) * 2 ^ (-(k : ℤ)) = n ↔ s = n * 2 ^ k := by
      rw [zpow_neg, zpow_natCast, ← div_eq_mul_inv, div_eq_iff (by positivity)]
      norm_cast
    rw [hquotient]
  · rw [neg_neg, Int.toNat_natCast, Option.some_inj, Nat.div_eq_iff_eq_mul_left (by positivity)
      (Nat.dvd_of_mod_eq_zero hdvd)]
  · refine iff_of_false nofun ?_
    rintro rfl
    exact hdvd (Nat.mul_mod_left n _)

lemma Positive.value_nonneg (x : Positive) : 0 ≤ x.value := by
  rw [value]
  positivity

lemma Decoded.toInt?_eq_some_iff {d : Decoded} {z : ℤ} : d.toInt? = some z ↔ d.value? = some (z : ℚ) := by
  cases d with
  | notANumber => simp [toInt?, value?]
  | infinite negative => simp [toInt?, value?]
  | finite negative x =>
    have hx := x.value_nonneg
    simp only [toInt?, value?, Option.map_eq_some_iff, Option.bind_eq_bind, Option.bind_eq_some_iff,
      Option.pure_def, Option.some_inj]
    constructor
    · rintro ⟨_, ⟨n, hn, rfl⟩, rfl⟩
      have hvalue : x.value = n := Positive.whole_eq_some_iff.mp hn
      cases negative <;> simp [hvalue]
    · intro hz
      cases negative with
      | false =>
        rw [if_neg Bool.false_ne_true] at hz
        have hnonneg : 0 ≤ z := by exact_mod_cast hz ▸ hx
        obtain ⟨n, rfl⟩ := Int.eq_ofNat_of_zero_le hnonneg
        exact ⟨n, ⟨n, Positive.whole_eq_some_iff.mpr hz, rfl⟩, rfl⟩
      | true =>
        rw [if_pos rfl, neg_eq_iff_eq_neg] at hz
        have hnonneg : 0 ≤ -z := by exact_mod_cast hz ▸ hx
        obtain ⟨n, hn⟩ := Int.eq_ofNat_of_zero_le hnonneg
        refine ⟨n, ⟨n, Positive.whole_eq_some_iff.mpr (hz.trans ?_), rfl⟩, ?_⟩
        · exact_mod_cast hn
        · rw [if_pos rfl]
          omega

end MapStyle.Decimal
