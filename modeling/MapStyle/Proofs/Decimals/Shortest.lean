import MapStyle.Proofs.Decimals.Conversions
import MapStyle.Proofs.Decimals.Integral

/-!
# Texts of floating-point numbers

The digits that are written for a floating-point number are inside the interval of the numbers that it is
nearest to, so two numbers with the same text are the same (`text_injective`), and an integer with that text is
converted to the number (`ofInt_eq_of_text`).
-/

namespace MapStyle.Decimal

variable {q : ℚ} {k : ℤ} {n d : ℕ}

namespace Interval

variable {i : Interval}

/-! ### The search for digits -/

lemma below_mul_le (i : Interval) (k : ℤ) : (i.below k : ℚ) * 10 ^ k ≤ i.value * 2 ^ i.exponent :=
  decimal_le_iff.mpr (Nat.div_mul_le_self _ _)

lemma lt_succ_below_mul (i : Interval) (k : ℤ) :
    (i.value : ℚ) * 2 ^ i.exponent < (i.below k + 1 : ℕ) * 10 ^ k := by
  have hpos : 0 < (i.scale k).decimal := by
    simp only [scale, Nat.pow_eq]
    positivity
  rw [← not_le, decimal_le_iff, not_le, below, Nat.succ_mul]
  exact Nat.lt_div_mul_add hpos

/-- On a grid whose step is less than the upper part of the interval, the point above the number is inside. -/
lemma has_succ_below (hlow : i.low ≤ i.value)
    (hstep : (i.value : ℚ) * 2 ^ i.exponent + 10 ^ k < i.high * 2 ^ i.exponent) :
    i.Has ((i.below k + 1 : ℕ) * 10 ^ k) := by
  have hpos : (0 : ℚ) < 2 ^ i.exponent := by positivity
  have hlow' : (i.low : ℚ) * 2 ^ i.exponent ≤ i.value * 2 ^ i.exponent :=
    mul_le_mul_of_nonneg_right (Nat.cast_le.mpr hlow) hpos.le
  have habove := i.lt_succ_below_mul k
  have hbelow : ((i.below k + 1 : ℕ) : ℚ) * 10 ^ k ≤ i.value * 2 ^ i.exponent + 10 ^ k := by
    have hle := i.below_mul_le k
    push_cast
    linarith
  refine ⟨?_, ?_, fun _ => ⟨?_, ?_⟩⟩ <;> linarith

/-- A search that meets a grid with a point inside ends with a point inside. -/
lemma exists_search {j : ℕ} (hj : j < n) (h : i.Has ((i.below (k - j) + 1 : ℕ) * 10 ^ (k - j))) :
    ∃ d k', i.search n k = .ofScaled d k' ∧ i.Has (d * 10 ^ k') := by
  induction n generalizing j k with
  | zero => cases hj
  | succ n ih =>
    rw [search]
    split
    · next hbelow habove =>
      split_ifs
      · exact ⟨_, _, rfl, contains_iff.mp hbelow⟩
      · exact ⟨_, _, rfl, contains_iff.mp habove⟩
    · next hbelow _ => exact ⟨_, _, rfl, contains_iff.mp hbelow⟩
    · next _ habove => exact ⟨_, _, rfl, contains_iff.mp habove⟩
    · next hbelow habove =>
      cases j with
      | zero =>
        rw [Nat.cast_zero, sub_zero] at h
        rw [contains_iff.mpr h] at habove
        cases habove
      | succ j =>
        have hk : k - (j + 1 : ℕ) = k - 1 - j := by omega
        rw [hk] at h
        exact ih (Nat.lt_of_succ_lt_succ hj) h

end Interval

/-! ### Powers of ten and of two -/

/-- Three hundred and one thousandths are about the logarithm of two. -/
lemma ten_pow_le (a : ℤ) (hlow : -1200 < a) (hhigh : a < 1200) :
    (10 : ℚ) ^ (a * 30103 / 100000) ≤ 2 ^ (a + 1) := by
  have hpos : ∀ a < 1200, 10 ^ (a * 30103 / 100000) ≤ 2 ^ (a + 1) := by decide +kernel
  have hneg : ∀ a < 1200, 2 ^ a ≤ 2 * 10 ^ ((a * 30103 + 99999) / 100000) := by decide +kernel
  obtain ⟨a, rfl | rfl⟩ := a.eq_nat_or_neg
  · have hle := hpos a (by omega)
    have hle' : (10 : ℚ) ^ (a * 30103 / 100000) ≤ 2 ^ (a + 1) := by exact_mod_cast hle
    exact_mod_cast hle'
  · have hle := hneg a (by omega)
    have hexponent : -(a : ℤ) * 30103 / 100000 = -((a * 30103 + 99999) / 100000 : ℕ) := by omega
    have hle' : (2 : ℚ) ^ a ≤ 2 * 10 ^ ((a * 30103 + 99999) / 100000) := by exact_mod_cast hle
    rw [hexponent, zpow_add_one₀ two_ne_zero, zpow_neg, zpow_neg, zpow_natCast, zpow_natCast,
      inv_mul_eq_div, inv_eq_one_div, div_le_div_iff₀ (by positivity) (by positivity), one_mul]
    exact hle'

/-! ### The digits of a number -/

variable {x : Positive}

/-- Twenty-one digits below the leading one, the step of the decimal grid is less than half a gap. -/
lemma Positive.IsDouble.ten_pow_lt (hx : x.IsDouble) {l : ℕ} (hl : l < 55) :
    (10 : ℚ) ^ ((x.exponent - 2 + l + 1) * 30103 / 100000 + 2 - 23) < 2 ^ (x.exponent - 1) := by
  have hlow := hx.le_exponent
  have hhigh := hx.exponent_le
  have hsmall : (10 : ℚ) ^ (-21 : ℤ) < 2 ^ (-69 : ℤ) := by norm_num
  have hshift (t : ℤ) : t + 2 - 23 = t + -21 := by ring
  have hexponent : x.exponent - 2 + l + 1 + 1 + -69 ≤ x.exponent - 1 := by omega
  rw [hshift, zpow_add₀ (by norm_num)]
  calc (10 : ℚ) ^ ((x.exponent - 2 + l + 1) * 30103 / 100000) * 10 ^ (-21 : ℤ)
      ≤ 2 ^ (x.exponent - 2 + l + 1 + 1) * 10 ^ (-21 : ℤ) :=
        mul_le_mul_of_nonneg_right (ten_pow_le _ (by omega) (by omega)) (by positivity)
    _ < 2 ^ (x.exponent - 2 + l + 1 + 1) * 2 ^ (-69 : ℤ) := mul_lt_mul_of_pos_left hsmall (by positivity)
    _ = 2 ^ (x.exponent - 2 + l + 1 + 1 + -69) := (zpow_add₀ two_ne_zero _ _).symm
    _ ≤ 2 ^ (x.exponent - 1) := zpow_le_zpow_right₀ one_le_two hexponent

/-- The digits that are written for a number are inside its interval. -/
theorem Positive.IsDouble.exists_shortest (hx : x.IsDouble) (hpos : 0 < x.significand) :
    ∃ d k, x.shortest = .ofScaled d k ∧ x.interval.Has (d * 10 ^ k) := by
  have hlog : x.interval.value.log2 < 55 := by
    have hlt := hx.significand_lt
    refine (Nat.log2_lt (mul_ne_zero (by decide) hpos.ne')).mpr ?_
    show 4 * x.significand < 2 ^ 55
    omega
  refine Interval.exists_search (j := 23) (by decide) (Interval.has_succ_below (Nat.sub_le _ _) ?_)
  have hgap : (2 : ℚ) * 2 ^ x.interval.exponent = 2 ^ (x.exponent - 1) := by
    rw [← zpow_one_add₀ two_ne_zero]
    congr 1
    simp only [interval]
    ring
  have hhigh : (x.interval.high : ℚ) = x.interval.value + 2 := by
    simp [interval]
  rw [hhigh, add_mul (x.interval.value : ℚ), hgap]
  exact (add_lt_add_iff_left _).mpr (hx.ten_pow_lt hlog)

/-! ### Digits in positional notation -/

namespace Digits

/-- The number that digits are. -/
def value (d : Digits) : ℚ :=
  Nat.ofDigitChars 10 d.digits 0 * 10 ^ (d.point - d.digits.length)

/-- The digits of a scaled integer are those of the integer without the zeros at their end. -/
lemma exists_toDigits_eq (n : ℕ) (k : ℤ) : ∃ z : ℕ,
    Nat.toDigits 10 n = (ofScaled n k).digits ++ List.replicate z '0' ∧
      (ofScaled n k).point = (ofScaled n k).digits.length + z + k := by
  let zeros := (Nat.toDigits 10 n).reverse.takeWhile (· == '0')
  have hzeros : zeros.reverse = List.replicate zeros.length '0' := by
    refine List.eq_replicate_iff.mpr ⟨List.length_reverse, fun c hc => ?_⟩
    have hzero := List.all_eq_true.mp List.all_takeWhile c (List.mem_reverse.mp hc)
    exact beq_iff_eq.mp hzero
  have hsplit : Nat.toDigits 10 n = (ofScaled n k).digits ++ List.replicate zeros.length '0' := by
    rw [← hzeros, ofScaled, ← List.reverse_append, List.takeWhile_append_dropWhile, List.reverse_reverse]
  refine ⟨zeros.length, hsplit, ?_⟩
  have hlength := congrArg List.length hsplit
  rw [List.length_append, List.length_replicate] at hlength
  show ((Nat.toDigits 10 n).length : ℤ) + k = _
  rw [hlength]
  push_cast
  ring

lemma value_ofScaled (n : ℕ) (k : ℤ) : (ofScaled n k).value = n * 10 ^ k := by
  obtain ⟨z, hdigits, hpoint⟩ := exists_toDigits_eq n k
  have hn : (n : ℚ) = 10 ^ z * Nat.ofDigitChars 10 (ofScaled n k).digits 0 := by
    have heq := Nat.ofDigitChars_ten_toDigits (n := n)
    rw [hdigits, Nat.ofDigitChars_append, Nat.ofDigitChars_replicate_zero] at heq
    exact_mod_cast heq.symm
  have hexponent : (ofScaled n k).point - (ofScaled n k).digits.length = z + k := by omega
  rw [value, hexponent, hn, zpow_add₀ (by norm_num), zpow_natCast]
  ring

lemma isDigit_ofScaled (n : ℕ) (k : ℤ) : ∀ c ∈ (ofScaled n k).digits, c.isDigit := by
  intro c hc
  obtain ⟨z, hdigits, -⟩ := exists_toDigits_eq n k
  have hmem : c ∈ Nat.toDigits 10 n := hdigits ▸ List.mem_append_left _ hc
  exact Nat.isDigit_of_mem_toDigits (by decide) (by decide) hmem

lemma isDigit_of_mem_replicate {z : ℕ} : ∀ c ∈ List.replicate z '0', c.isDigit := by
  intro c hc
  rw [List.eq_of_mem_replicate hc]
  decide

/-- Positional notation is a numeral without sign and exponent, and has the value of the digits. -/
lemma exists_mantissa_positional {d : Digits} (hd : ∀ c ∈ d.digits, c.isDigit) :
    ∃ whole fraction, Mantissa whole fraction d.positional ∧
      (Nat.ofDigitChars 10 (whole ++ fraction) 0 : ℚ) * 10 ^ (-(fraction.length : ℤ)) = d.value := by
  unfold positional
  dsimp only
  -- the point is in front of the digits, behind them, or between them
  split_ifs with hsmall hlarge
  · refine ⟨['0'], List.replicate (-d.point).toNat '0' ++ d.digits, .pointed ⟨List.cons_ne_nil _ _, ?_⟩, ?_⟩
    · rw [List.singleton_append]
      refine List.forall_mem_cons.mpr ⟨by decide, ?_⟩
      exact List.forall_mem_append.mpr ⟨isDigit_of_mem_replicate, hd⟩
    · have hexponent : -((List.replicate (-d.point).toNat '0' ++ d.digits).length : ℤ) =
          d.point - d.digits.length := by
        rw [List.length_append, List.length_replicate]
        omega
      rw [hexponent, value, List.singleton_append, Nat.ofDigitChars_cons, Nat.ofDigitChars_append]
      simp
  · refine ⟨d.digits ++ List.replicate (d.point - d.digits.length).toNat '0', [], .plain ⟨?_, ?_⟩, ?_⟩
    · intro hnil
      have hlength := congrArg List.length hnil
      rw [List.length_append, List.length_replicate, List.length_nil] at hlength
      omega
    · exact List.forall_mem_append.mpr ⟨hd, isDigit_of_mem_replicate⟩
    · have hexponent : d.point - d.digits.length = ((d.point - d.digits.length).toNat : ℤ) := by omega
      rw [List.append_nil, Nat.ofDigitChars_append, Nat.ofDigitChars_replicate_zero, value, hexponent,
        zpow_natCast, Int.toNat_natCast]
      simp [mul_comm]
  · refine ⟨d.digits.take d.point.toNat, d.digits.drop d.point.toNat, .pointed ⟨?_, ?_⟩, ?_⟩
    · rw [List.take_append_drop]
      rintro hnil
      rw [hnil, List.length_nil] at hlarge
      omega
    · rwa [List.take_append_drop]
    · have hexponent : -((d.digits.drop d.point.toNat).length : ℤ) = d.point - d.digits.length := by
        rw [List.length_drop]
        omega
      rw [List.take_append_drop, hexponent, value]

end Digits

/-! ### What is read from a text -/

/-- The size of the number that a numeral is. -/
def Numeral.magnitude (n : Numeral) : ℚ :=
  n.digits * 10 ^ n.scale

variable {f g : Float} {negative : Bool}

lemma Positive.has_zero (hzero : x.significand = 0) : x.interval.Has 0 := by
  have hclosed : x.interval.closed := by simp [interval, hzero]
  refine ⟨?_, by positivity, fun hopen => absurd hclosed hopen⟩
  simp [interval, hzero]

/-- The digits that are written for a number are a numeral without sign and exponent, for a number inside its
interval. -/
lemma Positive.IsDouble.exists_mantissa (hx : x.IsDouble) : ∃ whole fraction,
    Mantissa whole fraction (if x.significand = 0 then ['0'] else x.shortest.positional) ∧
      x.interval.Has (Nat.ofDigitChars 10 (whole ++ fraction) 0 * 10 ^ (-(fraction.length : ℤ))) := by
  split_ifs with hzero
  · refine ⟨['0'], [], .plain ⟨List.cons_ne_nil _ _, List.forall_mem_singleton.mpr rfl⟩, ?_⟩
    simpa [Nat.ofDigitChars_cons] using Positive.has_zero hzero
  · obtain ⟨d, k, hshortest, hhas⟩ := hx.exists_shortest (Nat.pos_of_ne_zero hzero)
    obtain ⟨whole, fraction, hmantissa, hvalue⟩ :=
      Digits.exists_mantissa_positional (Digits.isDigit_ofScaled d k)
    rw [hshortest]
    refine ⟨whole, fraction, hmantissa, ?_⟩
    rwa [hvalue, Digits.value_ofScaled]

/-- The text of a finite number is a numeral of that sign, for a number inside its interval. -/
theorem exists_writes_text (h : Decoded.ofFloat f = .finite negative x) :
    ∃ n, Writes (text f).toList n ∧ n.negative = negative ∧ x.interval.Has n.magnitude := by
  obtain ⟨whole, fraction, hmantissa, hhas⟩ := (isDouble_of_ofFloat h).exists_mantissa
  have htext : Signed negative ((if x.significand = 0 then ['0'] else x.shortest.positional) ++ [])
      (text f).toList := by
    simp only [text, h, String.toList_ofList, List.append_nil]
    cases negative
    · exact .bare
    · exact .minus
  refine ⟨_, .intro hmantissa .absent htext, rfl, ?_⟩
  simpa [Numeral.magnitude] using hhas

lemma Writes.unique {cs : List Char} {m n : Numeral} (hm : Writes cs m) (hn : Writes cs n) : m = n :=
  Option.some.inj ((read?_eq_some_iff.mpr hm).symm.trans (read?_eq_some_iff.mpr hn))

/-- A number whose text is a numeral is finite and has that sign, and it is nearest to what the numeral says. -/
lemma exists_ofFloat_of_writes {n : Numeral} (h : Writes (text f).toList n) :
    ∃ x, Decoded.ofFloat f = .finite n.negative x ∧ x.IsDouble ∧ x.interval.Has n.magnitude := by
  have hread := read?_eq_some_iff.mpr h
  cases hf : Decoded.ofFloat f with
  | notANumber =>
    rw [text, hf] at hread
    cases hread
  | infinite negative =>
    rw [text, hf] at hread
    cases negative <;> cases hread
  | finite negative x =>
    obtain ⟨m, hm, rfl, hhas⟩ := exists_writes_text hf
    obtain rfl := hm.unique h
    exact ⟨x, rfl, isDouble_of_ofFloat hf, hhas⟩

/-- A text that is no numeral tells what it was written for, too. -/
lemma ofFloat_eq_of_not_writes (h : ¬ ∃ n, Writes (text f).toList n) :
    Decoded.ofFloat f = if text f = "NaN" then .notANumber else .infinite (text f = "-inf") := by
  cases hf : Decoded.ofFloat f with
  | notANumber => simp [text, hf]
  | infinite negative => cases negative <;> simp [text, hf]
  | finite negative x =>
    obtain ⟨n, hn, -⟩ := exists_writes_text hf
    exact absurd ⟨n, hn⟩ h

/-- Floating-point numbers with the same text are the same. -/
theorem text_injective : Function.Injective text := by
  intro f g h
  refine Decoded.ofFloat_injective ?_
  by_cases hfinite : ∃ n, Writes (text f).toList n
  · obtain ⟨n, hn⟩ := hfinite
    obtain ⟨x, hx, hdouble, hhas⟩ := exists_ofFloat_of_writes hn
    obtain ⟨y, hy, hdouble', hhas'⟩ := exists_ofFloat_of_writes (h ▸ hn)
    rw [hx, hy, hdouble.eq_of_mem hdouble' hhas hhas']
  · rw [ofFloat_eq_of_not_writes hfinite, ofFloat_eq_of_not_writes (h ▸ hfinite), h]

/-! ### Integers -/

/-- An integer numeral is a numeral of that size, with the sign of the integer unless that is zero. -/
lemma WritesInt.exists_writes {cs : List Char} {z : ℤ} (h : WritesInt cs z) :
    ∃ n, Writes cs n ∧ n.magnitude = z.natAbs ∧ (z ≠ 0 → n.negative = decide (z < 0)) := by
  obtain @⟨negative, ds, _, _, hds, hsign, rfl⟩ := h
  rw [← List.append_nil ds] at hsign
  refine ⟨_, .intro (.plain hds) .absent hsign, ?_, ?_⟩
  · cases negative <;> simp [Numeral.magnitude]
  · cases negative
    · simp
    · simp
      omega

/-- An integer of up to 64 bits with the text of a floating-point number is converted to it. -/
theorem ofInt_eq_of_text {z : ℤ} (hlt : z.natAbs < 2 ^ 64) (h : text f = toString z) : Float.ofInt z = f := by
  by_cases hz : z = 0
  · subst hz
    refine text_injective (Eq.trans ?_ h.symm)
    decide +kernel
  · obtain ⟨n, hn, hmagnitude, hnegative⟩ :=
      (readInt?_eq_some_iff.mp (Literal.readInt?_toString z)).exists_writes
    obtain ⟨x, hx, hdouble, hhas⟩ := exists_ofFloat_of_writes (h ▸ hn)
    obtain ⟨y, hy, hdouble', hhas'⟩ := exists_ofFloat_ofInt hz hlt
    rw [hmagnitude] at hhas
    rw [hnegative hz] at hx
    refine Decoded.ofFloat_injective ?_
    rw [hx, hy, hdouble.eq_of_mem hdouble' hhas hhas']

end MapStyle.Decimal
