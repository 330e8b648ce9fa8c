import MapStyle.Proofs.Decimals.Doubles
import MapStyle.Proofs.Decimals.Numerals

/-!
# The integral view of a value

A value seen as an integer is the integer that it is, unless it is a floating-point number beyond the range
of 64-bit words. That one is seen as the end of the range (`asInt?_exact`).
-/

namespace MapStyle.Decimal

/-- The number that a numeral is. -/
def Numeral.value (n : Numeral) : ℚ :=
  let magnitude : ℚ := n.digits * 10 ^ n.scale
  if n.negative then -magnitude else magnitude

/-- An integer numeral is the same number as a numeral. -/
lemma WritesInt.read?_value {cs : List Char} {n : ℤ} (h : WritesInt cs n) :
    (Numeral.read? cs).map Numeral.value = some (n : ℚ) := by
  obtain @⟨negative, ds, _, _, hds, hsign, rfl⟩ := h
  rw [← List.append_nil ds] at hsign
  rw [read?_eq_some_iff.mpr (.intro (.plain hds) .absent hsign), Option.map_some, Numeral.value]
  cases negative <;> simp

end MapStyle.Decimal

namespace MapStyle.Literal

open Decimal

variable {l : Literal} {i : Int64} {s : String} {x : Float} {z : ℤ}

/-- The exact number that a value is: an integer is itself, a floating-point number is a fraction if it is
finite, and a string is the number that its numeral says. -/
def number? : Literal → Option ℚ
  | integer n => some n.toInt
  | float x => exactFloat? x
  | string s => (Numeral.read? (Text.trimChars s.toList)).map Numeral.value
  | boolean _ | color _ => none

/-- A number in the range of 64-bit words. -/
def FitsWord (q : ℚ) : Prop :=
  Int64.minValue.toInt ≤ q ∧ q ≤ Int64.maxValue.toInt

lemma fitsWord_intCast : FitsWord z ↔ inRange z := by
  rw [FitsWord, inRange, Bool.and_eq_true, decide_eq_true_eq, decide_eq_true_eq]
  norm_cast

lemma fitsWord_toInt (i : Int64) : FitsWord i.toInt :=
  fitsWord_intCast.mpr (inRange_iff.mpr ⟨i, rfl⟩)

/-- The integer itself or the end of the range that is nearer to it. -/
lemma toInt_clampInt (z : ℤ) :
    (clampInt z).toInt = max Int64.minValue.toInt (min Int64.maxValue.toInt z) := by
  have hends : Int64.minValue.toInt ≤ Int64.maxValue.toInt := by decide
  refine Int64.toInt_ofInt_of_le (le_max_left _ _) (lt_of_le_of_lt ?_ (b := Int64.maxValue.toInt) (by decide))
  exact max_le hends (min_le_left _ _)

lemma toInt_clampInt_eq_iff : (clampInt z).toInt = z ↔ FitsWord z := by
  constructor
  · intro h
    exact h ▸ fitsWord_toInt (clampInt z)
  · intro h
    obtain ⟨i, rfl⟩ := inRange_iff.mp (fitsWord_intCast.mp h)
    rw [toInt_clampInt, min_eq_right i.toInt_le, max_eq_right i.minValue_le_toInt]

lemma asInt?_float : asInt? (float x) = some i ↔ ∃ z : ℤ, exactFloat? x = some (z : ℚ) ∧ clampInt z = i := by
  simp only [asInt?, Option.map_eq_some_iff, Decoded.toInt?_eq_some_iff, value?_ofFloat]

lemma asInt?_string (h : asInt? (string s) = some i) : number? (string s) = some (i.toInt : ℚ) := by
  have hparse : parseNumber? s = some (integer i) := by
    simp only [asInt?] at h
    split at h
    · next n heq => rw [heq, Option.some.inj h]
    · cases h
  rw [parseNumber?_eq] at hparse
  cases hword : readWord64? (Text.trimChars s.toList) with
  | none => simp [hword] at hparse
  | some n =>
    rw [hword, Option.map_some, Option.some_or, Option.some_inj, integer.injEq] at hparse
    exact hparse ▸ (readWord64?_eq_some_iff.mp hword).read?_value

/-- A value that has an integral view is an integer up to the range of 64-bit words. The view is the
exact value, unless this is a floating-point number outside the range, and then it is the end of the range. -/
theorem asInt?_exact (h : l.asInt? = some i) :
    (∃ z : ℤ, l.number? = some (z : ℚ) ∧ i.toInt = max Int64.minValue.toInt (min Int64.maxValue.toInt z)) ∧
      (l.number? = some (i.toInt : ℚ) ↔ ∀ x, l = .float x → ∀ q, exactFloat? x = some q → FitsWord q) := by
  have hfits : i.toInt = max Int64.minValue.toInt (min Int64.maxValue.toInt i.toInt) := by
    rw [min_eq_right i.toInt_le, max_eq_right i.minValue_le_toInt]
  cases l with
  | integer n =>
    cases h
    exact ⟨⟨i.toInt, rfl, hfits⟩, iff_of_true rfl nofun⟩
  | string s =>
    have hexact := asInt?_string h
    exact ⟨⟨i.toInt, hexact, hfits⟩, iff_of_true hexact nofun⟩
  | float x =>
    obtain ⟨z, hz, rfl⟩ := asInt?_float.mp h
    refine ⟨⟨z, hz, toInt_clampInt z⟩, ?_⟩
    have hview : number? (float x) = some ((clampInt z).toInt : ℚ) ↔ FitsWord z := by
      rw [number?, hz, Option.some_inj, Int.cast_inj, eq_comm, toInt_clampInt_eq_iff]
    rw [hview]
    constructor
    · rintro hrange _ ⟨⟩ q hq
      exact Option.some.inj (hz.symm.trans hq) ▸ hrange
    · exact fun hrange => hrange x rfl z hz
  | boolean b => cases h
  | color s => cases h

/-- A floating-point number in the range is seen as itself. -/
theorem asInt?_exact_three :
    asInt? (float (Float.ofBits 0x4008000000000000)) = some 3 ∧
      number? (float (Float.ofBits 0x4008000000000000)) = some ((3 : Int64).toInt : ℚ) := by
  have h : asInt? (float (Float.ofBits 0x4008000000000000)) = some 3 := rfl
  refine ⟨h, (asInt?_exact h).2.mpr ?_⟩
  rintro _ ⟨⟩ q hq
  have hthree : exactFloat? (Float.ofBits 0x4008000000000000) = some ((3 : ℤ) : ℚ) := by
    rw [← value?_ofFloat, ← Decoded.toInt?_eq_some_iff]
    rfl
  rw [hthree, Option.some_inj] at hq
  exact hq ▸ fitsWord_intCast.mpr rfl

/-- Ten to the power of nineteen has no fraction, but is beyond the range: it is seen as another number. As a
string it has no integral view. -/
theorem asInt?_beyond_range :
    asInt? (float (Float.ofBits 0x43E158E460913D00)) = some Int64.maxValue ∧
      number? (float (Float.ofBits 0x43E158E460913D00)) = some ((10 ^ 19 : ℤ) : ℚ) ∧
      ((10 ^ 19 : ℤ) : ℚ) ≠ Int64.maxValue.toInt ∧ asInt? (string "10000000000000000000") = none := by
  refine ⟨rfl, ?_, ?_, by decide +kernel⟩
  · rw [number?, ← value?_ofFloat, ← Decoded.toInt?_eq_some_iff]
    rfl
  · rw [Ne, Int.cast_inj]
    decide

end MapStyle.Literal
