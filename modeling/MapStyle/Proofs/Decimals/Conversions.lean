import MapStyle.Decimal.Numeral
import MapStyle.Proofs.Decimals.Rounding

/-!
# Conversions to floating-point numbers

An integer of up to 64 bits is converted to the floating-point number nearest to it (`exists_ofFloat_ofInt`),
whether the conversion goes by words or through a product with a power of ten. A numeral is converted to some
number, which may be infinite (`ofFloat_toFloat_ne`).
-/

namespace MapStyle.Decimal

open Float.Model hiding unpack pack
open Float.Model.UnpackedFloat

variable {q : ℚ} {m n M : ℕ} {e E : ℤ} {s : Sign} {u : UnpackedFloat}

/-! ### Packed numbers -/

lemma ofBitVec_unpackSign (spec : Format) (s : Sign) (e : BitVec spec.exponentBits)
    (m : BitVec spec.mantissaBitsWithoutImplicit) :
    Sign.ofBitVec (unpackSign (packComponents spec s e m)) = s := by
  have h : unpackSign (packComponents spec s e m) = s.toBitVec := by
    ext i hi
    obtain rfl : i = 0 := by omega
    simp [unpackSign, packComponents, BitVec.getLsbD_eq_getElem, BitVec.getLsbD_append, BitVec.getElem_append]
  rw [h]
  cases s <;> rfl

lemma unpack_pack (hM : 0 < M) (hbits : 2 ^ 52 ≤ M ∧ M < 2 ^ 53) (hE : -1074 ≤ E ∧ E ≤ 971) :
    UnpackedFloat.unpack Format.binary64 (UnpackedFloat.pack Format.binary64 (.finite s M E hM)) =
      .finite s M E hM := by
  have hlog : M.log2 = 52 := (Nat.log2_eq_iff hM.ne').mpr hbits
  have hbias : (Format.binary64.exponentBias : ℤ) = 1023 := rfl
  -- the exponent field is not zero and not all ones, so that the number is normal
  obtain ⟨field, hfield⟩ := Int.eq_ofNat_of_zero_le (show 0 ≤ E + 1075 by omega)
  have hbiased : (E + Format.binary64.exponentBias +
      Format.binary64.mantissaBitsWithoutImplicit).toNat = field := by
    rw [hbias]
    show (E + 1023 + 52).toNat = field
    omega
  have hpack : UnpackedFloat.pack Format.binary64 (.finite s M E hM) =
      packComponents Format.binary64 s (BitVec.ofNat _ field) (BitVec.ofNat _ M) := by
    rw [UnpackedFloat.pack]
    dsimp only
    rw [hbiased, hlog, if_neg, if_pos]
    · rfl
    · show ¬ 2 ^ 11 ≤ field + 1
      omega
  have hexponent : (BitVec.ofNat 11 field).toNat = field := by
    rw [BitVec.toNat_ofNat]
    omega
  rw [hpack, UnpackedFloat.unpack]
  simp only [unpackMantissa_packComponents, unpackExponent_packComponents, ofBitVec_unpackSign]
  rw [if_neg, if_neg]
  · have hmantissa : (1#1 ++ BitVec.ofNat Format.binary64.mantissaBitsWithoutImplicit M).toNat = M := by
      rw [BitVec.toNat_append, ← Nat.shiftLeft_add_eq_or_of_lt (BitVec.isLt _), BitVec.toNat_ofNat]
      show 2 ^ 52 + M % 2 ^ 52 = M
      omega
    simp only [hmantissa, UnpackedFloat.finite.injEq, true_and]
    rw [hexponent, hbias]
    show (field : ℤ) - (1023 + 52) = E
    omega
  · rw [← BitVec.toNat_inj, hexponent]
    show field ≠ 0
    omega
  · rw [← BitVec.toNat_inj, hexponent]
    show field ≠ 2047
    omega

/-! ### Nearest numbers -/

/-- A number with 53 bits that is nearest to `q`, with a sign. -/
structure IsNearest (s : Sign) (q : ℚ) (u : UnpackedFloat) (M : ℕ) (E : ℤ) : Prop where
  pos : 0 < M
  eq : u = .finite s M E pos
  bits : 2 ^ 52 ≤ M ∧ M < 2 ^ 53
  exponent : -1074 ≤ E ∧ E ≤ 971
  has : (Positive.ofParts M E).interval.Has q

lemma isNearest_mul {s t : Sign} {m n : ℕ} {d e : ℤ} (hm : 0 < m) (hn : 0 < n) (hbits : 2 ^ 52 ≤ m * n)
    (hexponent : -1022 ≤ d + e + (m * n).log2 ∧ d + e + (m * n).log2 ≤ 1022)
    (hq : (m * n : ℕ) * 2 ^ (d + e) = q) :
    ∃ M E, IsNearest (s * t) q (mul Format.binary64 (.finite s m d hm) (.finite t n e hn)) M E := by
  obtain ⟨M, E, hM, hround, hbits', hE, hhas⟩ := exists_roundWithAccuracy (e := d + e) hbits (by omega) (s * t)
  exact ⟨M, E, hM, hround, hbits', by omega, hq ▸ hhas⟩

lemma log2_mul_two_pow (hm : 0 < m) (k : ℕ) : (m * 2 ^ k).log2 = m.log2 + k := by
  rw [Nat.log2_eq_iff (by positivity)]
  have hlow := Nat.log2_self_le hm.ne'
  have hhigh : m < 2 ^ (m.log2 + 1) := Nat.lt_log2_self
  constructor
  · rw [pow_add]
    exact Nat.mul_le_mul_right _ hlow
  · rw [add_right_comm, pow_add]
    exact Nat.mul_lt_mul_of_pos_right hhigh (by positivity)

lemma isNearest_ofScientific (hm : 0 < m) (hlt : m < 2 ^ 64) :
    ∃ M E, IsNearest .positive m (ofScientific Format.binary64 m 0) M E := by
  have hlog : m.log2 < 64 := (Nat.log2_lt hm.ne').mpr hlt
  have hshift : m <<< 53 * 10 ^ (0 : ℤ).toNat = m * 2 ^ 53 := by
    rw [Nat.shiftLeft_eq, Int.toNat_zero, pow_zero, mul_one]
  have hlog' := log2_mul_two_pow hm 53
  have hbits : 2 ^ 52 ≤ m * 2 ^ 53 := by omega
  have hlarge : ¬ (0 : ℤ) > 2 ^ Format.binary64.exponentBits := by norm_num
  have hsmall : ¬ (0 : ℤ) < -(2 ^ Format.binary64.exponentBits + m.log2) := by
    have hpos : (0 : ℤ) < 2 ^ Format.binary64.exponentBits := by positivity
    omega
  rw [UnpackedFloat.ofScientific, dif_neg hm.ne', if_neg hlarge, if_neg hsmall, if_pos le_rfl]
  have hmantissa : m <<< Format.binary64.mantissaBits * 10 ^ (0 : ℤ).toNat = m * 2 ^ 53 := hshift
  have hscale : -(Format.binary64.mantissaBits : ℤ) + 0 = -53 := rfl
  refine isNearest_mul (s := .positive) (t := .positive) _ _ ?_ ?_ ?_
  · rwa [hmantissa]
  · rw [hmantissa, hlog', hscale]
    omega
  · have hone : (2 : ℚ) ^ 53 * 2 ^ (-53 : ℤ) = 1 := by norm_num
    rw [hmantissa, hscale, Nat.cast_mul, Nat.cast_pow, Nat.cast_ofNat, mul_assoc, hone, mul_one]

lemma isNearest_ofNat (hm : 0 < m) (hlt : m < 2 ^ 53) :
    ∃ M E, IsNearest .positive m (UnpackedFloat.ofNat Format.binary64 m) M E := by
  have hlog : m.log2 < 53 := (Nat.log2_lt hm.ne').mpr hlt
  have hcompare : compare (m : ℤ) 0 = .gt := by
    rw [compare_gt_iff_gt]
    omega
  obtain ⟨k, hk⟩ := Nat.exists_eq_add_of_le (Nat.le_of_lt_succ hlog)
  have htarget : Format.binary64.targetExponent (totalExponent m 0) = -(k : ℤ) := by
    rw [targetExponent_eq (by omega)]
    omega
  have hround : UnpackedFloat.ofNat Format.binary64 m =
      roundWithAccuracy Format.binary64 .positive (m * 2 ^ k) (-k) .exact := by
    rw [UnpackedFloat.ofNat, UnpackedFloat.ofInt, UnpackedFloat.normalize, hcompare]
    dsimp only
    rw [Int.toNat_natCast, UnpackedFloat.round, htarget]
    simp [decreaseExponent, Nat.shiftLeft_eq]
  have hlog' := log2_mul_two_pow hm k
  have hbits : 2 ^ 52 ≤ m * 2 ^ k := by
    have hle : 2 ^ 52 ≤ 2 ^ (m * 2 ^ k).log2 := Nat.pow_le_pow_right two_pos (by omega)
    exact hle.trans (Nat.log2_self_le (by positivity))
  obtain ⟨M, E, hM, heq, hbits', hE, hhas⟩ := exists_roundWithAccuracy (e := -k) hbits (by omega) .positive
  refine ⟨M, E, hM, hround.trans heq, hbits', by omega, ?_⟩
  convert hhas using 1
  push_cast
  rw [mul_assoc, ← zpow_natCast, ← zpow_add₀ two_ne_zero, add_neg_cancel, zpow_zero, mul_one]

lemma isDouble_ofParts (hbits : 2 ^ 52 ≤ M ∧ M < 2 ^ 53) (hE : -1074 ≤ E ∧ E ≤ 971) :
    (Positive.ofParts M E).IsDouble where
  significand_lt := hbits.2
  le_exponent := hE.1
  exponent_le := hE.2
  normal _ := hbits.1
  narrowBelow_iff := by simp [Positive.ofParts]

/-- A magnitude is the nearest to itself. -/
lemma has_self (hM : 0 < M) : (Positive.ofParts M E).interval.Has (M * 2 ^ E) := by
  rw [Positive.has_ofParts_iff hM]
  split_ifs <;> refine ⟨⟨?_, ?_⟩, fun _ => ⟨?_, ?_⟩⟩ <;> linarith

/-- A positive integer with at most 53 bits, brought to 53 bits. -/
lemma exists_bits (hm : 0 < m) (hlt : m < 2 ^ 53) :
    ∃ k : ℕ, k ≤ 52 ∧ (2 ^ 52 ≤ m * 2 ^ k ∧ m * 2 ^ k < 2 ^ 53) ∧
      ((m * 2 ^ k : ℕ) : ℚ) * 2 ^ (-(k : ℤ)) = m := by
  have hlog : m.log2 < 53 := (Nat.log2_lt hm.ne').mpr hlt
  obtain ⟨k, hk⟩ := Nat.exists_eq_add_of_le (Nat.le_of_lt_succ hlog)
  have hlog' : (m * 2 ^ k).log2 = 52 := (log2_mul_two_pow hm k).trans hk.symm
  refine ⟨k, by omega, (Nat.log2_eq_iff (by positivity)).mp hlog', ?_⟩
  push_cast
  rw [mul_assoc, ← zpow_natCast, ← zpow_add₀ two_ne_zero, add_neg_cancel, zpow_zero, mul_one]

/-- An integer with at most 53 bits is itself the number nearest to it. -/
lemma IsNearest.value_eq (h : IsNearest s m u M E) (hm : 0 < m)
    (hlt : m < 2 ^ 53) : (-52 ≤ E ∧ E ≤ 0) ∧ (M : ℚ) * 2 ^ E = m := by
  obtain ⟨k, hk, hbits, hvalue⟩ := exists_bits hm hlt
  have hself := has_self (M := m * 2 ^ k) (E := -(k : ℤ)) (by positivity)
  rw [hvalue] at hself
  have heq := (isDouble_ofParts h.bits h.exponent).eq_of_mem (isDouble_ofParts hbits (by omega)) h.has hself
  rw [Positive.ofParts, Positive.ofParts, Positive.mk.injEq] at heq
  obtain ⟨rfl, rfl, -⟩ := heq
  exact ⟨by omega, hvalue⟩

lemma IsNearest.pack (h : IsNearest s q u M E) :
    IsNearest s q (Float.ofModel (.pack u)).toModel.unpack M E := by
  obtain ⟨hM, rfl, hbits, hE, hhas⟩ := h
  exact ⟨hM, unpack_pack hM hbits hE, hbits, hE, hhas⟩

lemma unpack_one : Float.exactlyRepresentablePowersOfTen[0].toModel.unpack =
    .finite .positive (2 ^ 52) (-52) (by decide) := by
  with_unfolding_all rfl

/-- In steps, a short integer is converted to a word, and multiplied by one. -/
lemma exists_isNearest_mul_one (hm : 0 < m) (hlt : m < 2 ^ 53) : ∃ M E, IsNearest .positive m
    (m.toUInt64.toFloat * Float.exactlyRepresentablePowersOfTen[0]).toModel.unpack M E := by
  -- the conversion gives the integer itself, with its leading bit in place
  obtain ⟨M, E, h⟩ := isNearest_ofNat hm hlt
  obtain ⟨hE, hvalue⟩ := h.value_eq hm hlt
  have hlog : M.log2 = 52 := (Nat.log2_eq_iff h.pos.ne').mpr h.bits
  have hlog' := log2_mul_two_pow h.pos 52
  have hscale : (2 : ℚ) ^ 52 * 2 ^ (-52 : ℤ) = 1 := by norm_num
  have hword : m.toUInt64.toFloat = Float.ofModel (.pack (UnpackedFloat.ofNat Format.binary64 m)) := by
    have hnat : m.toUInt64.toNat = m := by
      rw [Nat.toUInt64, UInt64.toNat_ofNat']
      omega
    rw [UInt64.toFloat, Float.Model.ofUInt64, UnpackedFloat.ofUInt64, hnat]
  have hproduct : (m.toUInt64.toFloat * Float.exactlyRepresentablePowersOfTen[0]).toModel =
      .pack (mul Format.binary64 (.finite .positive M E h.pos)
        (.finite .positive (2 ^ 52) (-52) (by decide))) := by
    rw [← h.pack.eq, ← unpack_one, ← hword]
    rfl
  -- the product is nearest to the product of the two values, which is the integer
  obtain ⟨M', E', h'⟩ : ∃ M' E', IsNearest (.positive * .positive) m (mul Format.binary64
      (.finite .positive M E h.pos) (.finite .positive (2 ^ 52) (-52) (by decide))) M' E' := by
    refine isNearest_mul h.pos (by decide) ?_ ?_ ?_
    · exact h.bits.1.trans (Nat.le_mul_of_pos_right M (by decide))
    · rw [hlog']
      omega
    · rw [← hvalue, Nat.cast_mul, zpow_add₀ two_ne_zero, mul_mul_mul_comm, Nat.cast_pow, Nat.cast_ofNat,
        hscale, mul_one]
  rw [hproduct]
  exact ⟨M', E', h'.pack⟩

/-- A conversion of an integer gives the number that is nearest to it. -/
theorem exists_isNearest_ofNat (hm : 0 < m) (hlt : m < 2 ^ 64) :
    ∃ M E, IsNearest .positive m (Float.ofNat m).toModel.unpack M E := by
  by_cases hshort : m < 2 ^ 53
  · have hconversion : Float.ofNat m = m.toUInt64.toFloat * Float.exactlyRepresentablePowersOfTen[0] :=
      dif_pos ⟨hshort, by decide⟩
    rw [hconversion]
    exact exists_isNearest_mul_one hm hshort
  · have hconversion : Float.ofNat m = Float.ofModel (.ofScientific m 0) :=
      dif_neg fun h => hshort h.1
    obtain ⟨M, E, h⟩ := isNearest_ofScientific hm hlt
    rw [hconversion]
    exact ⟨M, E, h.pack⟩

lemma IsNearest.neg {f : Float} (h : IsNearest s q f.toModel.unpack M E) :
    IsNearest (-s) q (Float.neg f).toModel.unpack M E := by
  have hneg : IsNearest (-s) q f.toModel.unpack.neg M E :=
    ⟨h.pos, congrArg UnpackedFloat.neg h.eq, h.bits, h.exponent, h.has⟩
  have hfloat : Float.neg f = .ofModel (.pack f.toModel.unpack.neg) := rfl
  rw [hfloat]
  exact hneg.pack

lemma IsNearest.ofFloat {f : Float} (h : IsNearest s q f.toModel.unpack M E) :
    Decoded.ofFloat f = .finite (isMinus s) (.ofParts M E) := by
  rw [ofFloat_eq, h.eq]
  rfl

/-- An integer of up to 64 bits is converted to the floating-point number that is nearest to it. -/
theorem exists_ofFloat_ofInt {z : ℤ} (hz : z ≠ 0) (hlt : z.natAbs < 2 ^ 64) :
    ∃ x, Decoded.ofFloat (Float.ofInt z) = .finite (z < 0) x ∧ x.IsDouble ∧ x.interval.Has z.natAbs := by
  obtain ⟨M, E, h⟩ := exists_isNearest_ofNat (Int.natAbs_pos.mpr hz) hlt
  refine ⟨.ofParts M E, ?_, isDouble_ofParts h.bits h.exponent, h.has⟩
  cases z with
  | ofNat n => exact h.ofFloat
  | negSucc n =>
    have hsign : decide (Int.negSucc n < 0) = isMinus (-.positive) := decide_eq_true (Int.negSucc_lt_zero n)
    rw [hsign]
    exact h.neg.ofFloat

/-! ### Conversions give numbers -/

lemma unpack_packComponents_ne {spec : Format} {exponent : BitVec spec.exponentBits}
    {mantissa : BitVec spec.mantissaBitsWithoutImplicit} (h : exponent = -1#_ → mantissa = 0#_) :
    UnpackedFloat.unpack spec (packComponents spec s exponent mantissa) ≠ .notANumber := by
  simp only [UnpackedFloat.unpack, unpackMantissa_packComponents, unpackExponent_packComponents]
  split_ifs with hspecial hzero
  · nofun
  · exact absurd (h hspecial) hzero
  all_goals nofun

/-- What is packed is a number if it was one. -/
lemma unpack_pack_ne (hu : u ≠ .notANumber) :
    (Float.ofModel (.pack u)).toModel.unpack ≠ .notANumber := by
  show UnpackedFloat.unpack Format.binary64 (UnpackedFloat.pack Format.binary64 u) ≠ .notANumber
  cases u with
  | notANumber => exact absurd rfl hu
  | infinity s => exact unpack_packComponents_ne fun _ => rfl
  | zero s => exact unpack_packComponents_ne fun _ => rfl
  | finite s m e hm =>
    unfold UnpackedFloat.pack
    dsimp only
    split_ifs with hlarge
    · exact unpack_packComponents_ne fun _ => rfl
    · refine unpack_packComponents_ne fun hspecial => absurd (congrArg BitVec.toNat hspecial) ?_
      generalize (e + Format.binary64.exponentBias +
        Format.binary64.mantissaBitsWithoutImplicit).toNat = field at hlarge
      have hlt : field + 1 < 2 ^ 11 := Nat.lt_of_not_le hlarge
      rw [BitVec.toNat_ofNat]
      show field % 2 ^ 11 ≠ 2047
      omega
    · exact unpack_packComponents_ne fun hzero => absurd hzero (by decide)

lemma roundWithAccuracy_ne (spec : Format) (s : Sign) (m : ℕ) (e : ℤ) (accuracy : Accuracy) :
    roundWithAccuracy spec s m e accuracy ≠ .notANumber := by
  rw [roundWithAccuracy]
  dsimp only
  split_ifs <;> (intro h; cases h)

lemma mul_finite_ne (spec : Format) (hu : u ≠ .notANumber) (hm : 0 < m) :
    mul spec u (.finite s m e hm) ≠ .notANumber := by
  cases u with
  | notANumber => exact absurd rfl hu
  | infinity t => nofun
  | zero t => nofun
  | finite t n d hn => exact roundWithAccuracy_ne _ _ _ _ _

lemma div_finite_ne (spec : Format) (hu : u ≠ .notANumber) (hm : 0 < m) :
    div spec u (.finite s m e hm) ≠ .notANumber := by
  cases u with
  | notANumber => exact absurd rfl hu
  | infinity t => nofun
  | zero t => nofun
  | finite t n d hn => exact roundWithAccuracy_ne _ _ _ _ _

/-- Whether a number is finite and not zero. -/
def Decoded.isNonzero : Decoded → Bool
  | .finite _ x => x.significand ≠ 0
  | _ => false

lemma exists_finite_of_isNonzero {f : Float} (h : (Decoded.ofFloat f).isNonzero) :
    ∃ s m e hm, f.toModel.unpack = .finite s m e hm := by
  rw [ofFloat_eq] at h
  cases hu : f.toModel.unpack with
  | finite s m e hm => exact ⟨s, m, e, hm, rfl⟩
  | _ => simp [hu, Decoded.ofUnpacked, Decoded.isNonzero] at h

lemma isNonzero_exactlyRepresentablePowersOfTen : ∀ p ∈ Float.exactlyRepresentablePowersOfTen.toList,
    (Decoded.ofFloat p).isNonzero := by
  decide +kernel

lemma unpack_ne_iff {f : Float} : f.toModel.unpack ≠ .notANumber ↔ Decoded.ofFloat f ≠ .notANumber := by
  rw [ofFloat_eq]
  cases f.toModel.unpack <;> simp [Decoded.ofUnpacked]

section

variable {f p : Float}

lemma unpack_neg_ne (hf : f.toModel.unpack ≠ .notANumber) : (-f).toModel.unpack ≠ .notANumber := by
  refine unpack_pack_ne (u := f.toModel.unpack.neg) ?_
  revert hf
  cases f.toModel.unpack <;> simp [UnpackedFloat.neg]

lemma unpack_mul_ne (hf : f.toModel.unpack ≠ .notANumber) (hp : (Decoded.ofFloat p).isNonzero) :
    (f * p).toModel.unpack ≠ .notANumber := by
  obtain ⟨s, m, e, hm, heq⟩ := exists_finite_of_isNonzero hp
  refine unpack_pack_ne (u := mul Format.binary64 f.toModel.unpack p.toModel.unpack) ?_
  rw [heq]
  exact mul_finite_ne _ hf hm

lemma unpack_div_ne (hf : f.toModel.unpack ≠ .notANumber) (hp : (Decoded.ofFloat p).isNonzero) :
    (f / p).toModel.unpack ≠ .notANumber := by
  obtain ⟨s, m, e, hm, heq⟩ := exists_finite_of_isNonzero hp
  refine unpack_pack_ne (u := div Format.binary64 f.toModel.unpack p.toModel.unpack) ?_
  rw [heq]
  exact div_finite_ne _ hf hm

end

lemma unpack_toFloat_ne (w : UInt64) : w.toFloat.toModel.unpack ≠ .notANumber := by
  refine unpack_pack_ne (u := UnpackedFloat.ofUInt64 Format.binary64 w) ?_
  rw [UnpackedFloat.ofUInt64, UnpackedFloat.ofNat, UnpackedFloat.ofInt, UnpackedFloat.normalize]
  split
  · exact roundWithAccuracy_ne _ _ _ _ _
  · nofun
  · exact roundWithAccuracy_ne _ _ _ _ _

lemma unpack_ofModel_ofScientific_ne (n : ℕ) (k : ℤ) :
    (Float.ofModel (.ofScientific n k)).toModel.unpack ≠ .notANumber := by
  refine unpack_pack_ne (u := UnpackedFloat.ofScientific Format.binary64 n k) ?_
  rw [UnpackedFloat.ofScientific]
  split_ifs
  · nofun
  · nofun
  · nofun
  · exact mul_finite_ne _ UnpackedFloat.noConfusion _
  · exact div_finite_ne _ UnpackedFloat.noConfusion _

lemma unpack_ofScientific_ne (n : ℕ) (negative : Bool) (k : ℕ) :
    (Float.ofScientific n negative k).toModel.unpack ≠ .notANumber := by
  have hpower (h : k < Float.exactlyRepresentablePowersOfTen.size) :
      (Decoded.ofFloat Float.exactlyRepresentablePowersOfTen[k]).isNonzero :=
    isNonzero_exactlyRepresentablePowersOfTen _ (Array.getElem_mem_toList h)
  rw [Float.ofScientific]
  split_ifs with hfast
  · exact unpack_div_ne (unpack_toFloat_ne _) (hpower _)
  · exact unpack_mul_ne (unpack_toFloat_ne _) (hpower _)
  · exact unpack_ofModel_ofScientific_ne n (.negOfNat k)
  · exact unpack_ofModel_ofScientific_ne n (.ofNat k)

/-- A numeral is converted to a number. -/
theorem ofFloat_toFloat_ne (n : Numeral) : Decoded.ofFloat n.toFloat ≠ .notANumber := by
  rw [← unpack_ne_iff]
  have hzero : (0 : Float).toModel.unpack ≠ .notANumber := unpack_ofScientific_ne 0 false 0
  have hinfinite : (1 / 0 : Float).toModel.unpack ≠ .notANumber := by
    rw [unpack_ne_iff]
    decide +kernel
  unfold Numeral.toFloat
  dsimp only
  split_ifs
  · exact unpack_neg_ne hzero
  · exact unpack_neg_ne hinfinite
  · exact unpack_neg_ne (unpack_ofScientific_ne _ _ _)
  · exact hzero
  · exact hinfinite
  · exact unpack_ofScientific_ne _ _ _

end MapStyle.Decimal
