import MapStyle.Proofs.Printing.Spelling

/-!
# Numerals

What a numeral looks like and which number it is, without saying how it is read. The main statement is that
a text reads as an integer exactly if it is an integer numeral in the range of 64-bit words, as a
floating-point number exactly if it is any other numeral, and not at all otherwise (`parseNumber?_iff`). That
is also what becomes of it if its characters are looked at first, and it is then given to a reader for
integers and to one for floating-point numbers.
-/

namespace MapStyle.Decimal

/-! ### What is written -/

/-- One digit or more. -/
structure AreDigits (ds : List Char) : Prop where
  ne_nil : ds ≠ []
  isDigit : ∀ d ∈ ds, d.isDigit

/-- Characters without a sign in front of them, or with one. -/
inductive Signed : Bool → List Char → List Char → Prop
  | bare {cs : List Char} : Signed false cs cs
  | plus {cs : List Char} : Signed false cs ('+' :: cs)
  | minus {cs : List Char} : Signed true cs ('-' :: cs)

/-- An integer numeral, and the integer that it is. -/
inductive WritesInt : List Char → Int → Prop
  | intro {negative : Bool} {ds cs : List Char} {n : Int} (hds : AreDigits ds) (hsign : Signed negative ds cs)
      (hn : n = if negative then -(Nat.ofDigitChars 10 ds 0 : Int) else Nat.ofDigitChars 10 ds 0) :
      WritesInt cs n

/-- Digits without a point, or with one before, among or behind them. -/
inductive Mantissa : List Char → List Char → List Char → Prop
  | plain {whole : List Char} (h : AreDigits whole) : Mantissa whole [] whole
  | pointed {whole fraction : List Char} (h : AreDigits (whole ++ fraction)) :
      Mantissa whole fraction (whole ++ '.' :: fraction)

/-- The exponent that ends a numeral, or no exponent at all. -/
inductive Exponent : List Char → Int → Prop
  | absent : Exponent [] 0
  | present {c : Char} {cs : List Char} {e : Int} (hc : c = 'e' ∨ c = 'E') (h : WritesInt cs e) :
      Exponent (c :: cs) e

/-- A numeral, and the number that it is. -/
inductive Writes : List Char → Numeral → Prop
  | intro {negative : Bool} {whole fraction mantissa exponent cs : List Char} {e : Int}
      (hmantissa : Mantissa whole fraction mantissa) (hexponent : Exponent exponent e)
      (hsign : Signed negative (mantissa ++ exponent) cs) :
      Writes cs ⟨negative, Nat.ofDigitChars 10 (whole ++ fraction) 0, e - fraction.length⟩

variable {cs ds ws fs : List Char} {negative : Bool} {n : Int}

lemma ofDigits_eq (ds : List Char) : ofDigits ds = Nat.ofDigitChars 10 ds 0 := by
  rw [Nat.ofDigitChars_eq_foldl]
  rfl

lemma AreDigits.head?_ne (h : AreDigits ds) {c : Char} (hc : ¬ c.isDigit) : ds.head? ≠ some c := by
  intro hhead
  exact hc (h.isDigit c (List.mem_of_head? hhead))

lemma signed_splitSign (cs : List Char) : Signed (splitSign cs).1 (splitSign cs).2 cs := by
  unfold splitSign
  split
  · exact .minus
  · exact .plus
  · exact .bare

lemma Signed.splitSign_eq (h : Signed negative ds cs) (hminus : ds.head? ≠ some '-')
    (hplus : ds.head? ≠ some '+') : splitSign cs = (negative, ds) := by
  cases h with
  | plus | minus => rfl
  | bare =>
    unfold splitSign
    split
    · exact absurd rfl hminus
    · exact absurd rfl hplus
    · rfl

lemma Signed.forall_mem {p : Char → Prop} (h : Signed negative ds cs) (hcs : ∀ c ∈ cs, p c) :
    ∀ c ∈ ds, p c := by
  cases h with
  | bare => exact hcs
  | plus | minus => exact (List.forall_mem_cons.mp hcs).2

/-! ### Reading integers -/

lemma readInt?_eq_some_iff : readInt? cs = some n ↔ WritesInt cs n := by
  constructor
  · intro h
    simp only [readInt?] at h
    split at h
    · cases h
    · next hds =>
      simp only [Bool.or_eq_true, List.isEmpty_iff, Bool.not_eq_true', not_or, Bool.not_eq_false] at hds
      refine .intro ⟨hds.1, List.all_eq_true.mp hds.2⟩ (signed_splitSign cs) ?_
      rw [← ofDigits_eq]
      exact (Option.some.inj h).symm
  · rintro ⟨hds, hsign, rfl⟩
    have hall := List.all_eq_true.mpr hds.isDigit
    rw [readInt?, hsign.splitSign_eq (hds.head?_ne (by decide)) (hds.head?_ne (by decide))]
    simp [hds.ne_nil, hall, ofDigits_eq]

lemma readExponent?_eq_some_iff {e : Int} : readExponent? cs = some e ↔ Exponent cs e := by
  cases cs with
  | nil =>
    constructor
    · rintro ⟨⟩
      exact .absent
    · rintro ⟨⟩
      rfl
  | cons c cs =>
    rw [readExponent?]
    constructor
    · intro h
      split at h
      · next hc => exact .present (by simpa using hc) (readInt?_eq_some_iff.mp h)
      · cases h
    · rintro (_ | ⟨hc, h⟩)
      rw [if_pos (by simpa using hc), readInt?_eq_some_iff]
      exact h

/-! ### Reading numerals -/

lemma Exponent.head?_not (h : Exponent cs n) {c : Char} (he : c ≠ 'e') (hE : c ≠ 'E') :
    cs.head? ≠ some c := by
  cases h with
  | absent => nofun
  | present hc =>
    rw [List.head?_cons]
    rintro ⟨⟩
    exact hc.elim he hE

lemma Exponent.not_isDigit (h : Exponent cs n) : ∀ c ∈ cs.head?, ¬ c.isDigit := by
  cases h with
  | absent => nofun
  | present hc =>
    rintro _ ⟨⟩
    obtain rfl | rfl := hc <;> decide

lemma takeWhile_digits (hds : ∀ d ∈ ds, d.isDigit) (hcs : ∀ c ∈ cs.head?, ¬ c.isDigit) :
    (ds ++ cs).takeWhile Char.isDigit = ds ∧ (ds ++ cs).dropWhile Char.isDigit = cs := by
  rw [List.takeWhile_append_of_pos hds, List.dropWhile_append_of_pos hds]
  cases cs with
  | nil => exact ⟨List.append_nil ds, rfl⟩
  | cons c cs =>
    have hc := hcs c rfl
    rw [List.takeWhile_cons_of_neg hc, List.dropWhile_cons_of_neg hc]
    exact ⟨List.append_nil ds, rfl⟩

lemma Mantissa.isDigit (h : Mantissa ws fs ds) : ∀ d ∈ ws ++ fs, d.isDigit := by
  cases h with
  | plain h => simpa using h.isDigit
  | pointed h => exact h.isDigit

/-- A mantissa and the exponent behind it are told apart. -/
lemma Mantissa.split_eq (h : Mantissa ws fs ds) (he : Exponent cs n) :
    (ds ++ cs).takeWhile Char.isDigit = ws ∧
      splitFraction ((ds ++ cs).dropWhile Char.isDigit) = (fs, cs) := by
  cases h with
  | plain h =>
    obtain ⟨htake, hdrop⟩ := takeWhile_digits h.isDigit he.not_isDigit
    rw [htake, hdrop]
    refine ⟨rfl, ?_⟩
    unfold splitFraction
    split
    · next cs => exact absurd List.head?_cons (he.head?_not (by decide) (by decide))
    · rfl
  | pointed h =>
    obtain ⟨hws, hfs⟩ := List.forall_mem_append.mp h.isDigit
    have hpoint : ∀ c ∈ ('.' :: (fs ++ cs)).head?, ¬ c.isDigit := by
      rintro _ ⟨⟩
      decide
    obtain ⟨htake, hdrop⟩ := takeWhile_digits hws hpoint
    obtain ⟨htake', hdrop'⟩ := takeWhile_digits hfs he.not_isDigit
    rw [List.append_assoc, List.cons_append, htake, hdrop]
    exact ⟨rfl, Prod.ext htake' hdrop'⟩

lemma Mantissa.head?_ne (h : Mantissa ws fs ds) (cs : List Char) {c : Char} (hc : ¬ c.isDigit)
    (hpoint : c ≠ '.') : (ds ++ cs).head? ≠ some c := by
  cases h with
  | plain h =>
    obtain ⟨d, ws, rfl⟩ := List.exists_cons_of_ne_nil h.ne_nil
    exact h.head?_ne hc
  | pointed h =>
    cases ws with
    | nil =>
      rintro ⟨⟩
      exact hpoint rfl
    | cons d ws => exact h.head?_ne hc

lemma Mantissa.ne_nil (h : Mantissa ws fs ds) : ¬ (ws.isEmpty && fs.isEmpty) := by
  cases h with
  | plain h => simp [h.ne_nil]
  | pointed h =>
    have hne := h.ne_nil
    simpa using hne

/-- Digits, a point and digits in front of some characters are a mantissa if there is any digit. -/
lemma exists_mantissa (cs : List Char) (hne : ¬ ((cs.takeWhile Char.isDigit).isEmpty &&
      (splitFraction (cs.dropWhile Char.isDigit)).1.isEmpty)) :
    ∃ mantissa,
      Mantissa (cs.takeWhile Char.isDigit) (splitFraction (cs.dropWhile Char.isDigit)).1 mantissa ∧
      cs = mantissa ++ (splitFraction (cs.dropWhile Char.isDigit)).2 := by
  have hcs : cs.takeWhile Char.isDigit ++ cs.dropWhile Char.isDigit = cs := List.takeWhile_append_dropWhile
  have hws : ∀ d ∈ cs.takeWhile Char.isDigit, d.isDigit := List.all_eq_true.mp List.all_takeWhile
  generalize cs.takeWhile Char.isDigit = ws at *
  generalize cs.dropWhile Char.isDigit = rest at *
  unfold splitFraction at *
  split at hne
  · next ds =>
    have hfs : ∀ d ∈ ds.takeWhile Char.isDigit, d.isDigit := List.all_eq_true.mp List.all_takeWhile
    refine ⟨_, .pointed ⟨?_, List.forall_mem_append.mpr ⟨hws, hfs⟩⟩, ?_⟩
    · simpa using hne
    · rw [List.append_assoc, List.cons_append, List.takeWhile_append_dropWhile, hcs]
  · exact ⟨_, .plain ⟨by simpa using hne, hws⟩, hcs.symm⟩

lemma read?_eq_some_iff {n : Numeral} : Numeral.read? cs = some n ↔ Writes cs n := by
  constructor
  · intro h
    have hsign := signed_splitSign cs
    simp only [Numeral.read?] at h
    split at h
    · cases h
    · next hne =>
      obtain ⟨e, he, rfl⟩ := Option.map_eq_some_iff.mp h
      obtain ⟨mantissa, hmantissa, hcs⟩ := exists_mantissa _ hne
      rw [hcs] at hsign
      rw [ofDigits_eq]
      exact .intro hmantissa (readExponent?_eq_some_iff.mp he) hsign
  · rintro ⟨hmantissa, hexponent, hsign⟩
    have hsplit := hsign.splitSign_eq (hmantissa.head?_ne _ (by decide) (by decide))
      (hmantissa.head?_ne _ (by decide) (by decide))
    obtain ⟨htake, hfraction⟩ := hmantissa.split_eq hexponent
    simp only [Numeral.read?, hsplit, htake, hfraction, if_neg hmantissa.ne_nil,
      readExponent?_eq_some_iff.mpr hexponent, Option.map_some, ofDigits_eq]

/-- An integer numeral is a numeral. -/
lemma WritesInt.writes (h : WritesInt cs n) : ∃ m, Writes cs m := by
  obtain @⟨_, ds, _, _, hds, hsign, -⟩ := h
  rw [← List.append_nil ds] at hsign
  exact ⟨_, .intro (.plain hds) .absent hsign⟩

/-! ### The characters of a numeral -/

/-- A character that may be in a numeral. -/
def isNumeralChar (c : Char) : Bool :=
  c.isDigit || c == '+' || c == '-' || c == '.' || c == 'e' || c == 'E'

lemma isNumeralChar_of_isDigit {c : Char} (h : c.isDigit) : isNumeralChar c := by
  simp [isNumeralChar, h]

lemma Signed.isNumeralChar (h : Signed negative ds cs) (hds : ∀ c ∈ ds, isNumeralChar c) :
    ∀ c ∈ cs, isNumeralChar c := by
  cases h with
  | bare => exact hds
  | plus | minus => exact List.forall_mem_cons.mpr ⟨by decide, hds⟩

lemma WritesInt.isNumeralChar (h : WritesInt cs n) : ∀ c ∈ cs, isNumeralChar c := by
  obtain ⟨hds, hsign, -⟩ := h
  exact hsign.isNumeralChar fun c hc => isNumeralChar_of_isDigit (hds.isDigit c hc)

lemma Writes.isNumeralChar {n : Numeral} (h : Writes cs n) : ∀ c ∈ cs, isNumeralChar c := by
  obtain ⟨hmantissa, hexponent, hsign⟩ := h
  refine hsign.isNumeralChar (List.forall_mem_append.mpr ⟨?_, ?_⟩)
  · cases hmantissa with
    | plain h => exact fun c hc => isNumeralChar_of_isDigit (h.isDigit c hc)
    | pointed h =>
      obtain ⟨hws, hfs⟩ := List.forall_mem_append.mp h.isDigit
      refine List.forall_mem_append.mpr ⟨fun c hc => isNumeralChar_of_isDigit (hws c hc), ?_⟩
      exact List.forall_mem_cons.mpr ⟨by decide, fun c hc => isNumeralChar_of_isDigit (hfs c hc)⟩
  · cases hexponent with
    | absent => exact List.forall_mem_nil _
    | present hc h =>
      refine List.forall_mem_cons.mpr ⟨?_, h.isNumeralChar⟩
      obtain rfl | rfl := hc <;> decide

lemma Writes.ne_nil {n : Numeral} (h : Writes cs n) : cs ≠ [] := by
  rintro rfl
  have hread := read?_eq_some_iff.mpr h
  cases hread

end MapStyle.Decimal

namespace MapStyle.Literal

open Decimal

variable {cs : List Char} {i : Int64} {x : Float}

/-! ### Reading in steps -/

/-- The words for what no numeral stands for, in upper or lower case: the two infinities, and what is not a
number. -/
def readWord? (cs : List Char) : Option Float :=
  let word := String.ofList (splitSign cs).2
  let magnitude? : Option Float :=
    if Text.sameWord word "nan" then some (0 / 0)
    else if Text.sameWord word "inf" || Text.sameWord word "infinity" then some (1 / 0)
    else none
  magnitude?.map fun x => if (splitSign cs).1 then -x else x

/-- Reads a floating-point number: a numeral or a word. -/
def readFloat? (cs : List Char) : Option Float :=
  ((Numeral.read? cs).map Numeral.toFloat).or (readWord? cs)

/-- Reads an integer in the range of 64-bit words. -/
def readWord64? (cs : List Char) : Option Int64 :=
  ((readInt? cs).filter inRange).map Int64.ofInt

/-- Reads a number in steps: what has no characters, or has one that no numeral has, is none. The rest goes
to the reader for integers, and what is no integer goes to the one for floating-point numbers. -/
def readInSteps? (text : String) : Option Literal :=
  let cs := Text.trimChars text.toList
  if cs.isEmpty || !cs.all isNumeralChar then none
  else ((readWord64? cs).map integer).or ((readFloat? cs).map float)

lemma toLower_of_isNumeralChar {c : Char} (h : isNumeralChar c) : isNumeralChar c.toLower := by
  by_cases hE : c = 'E'
  · subst hE
    decide
  · suffices c.toLower = c by rwa [this]
    refine dif_neg ?_
    rintro ⟨hA, hZ⟩
    simp only [isNumeralChar, Char.isDigit, Bool.or_eq_true, Bool.and_eq_true, decide_eq_true_eq, beq_iff_eq,
      hE, or_false, ge_iff_le, UInt32.le_iff_toNat_le] at h hA hZ
    have h9 : ('9'.val.toNat : Nat) = 57 := rfl
    have hA' : ('A'.val.toNat : Nat) = 65 := rfl
    rcases h with (((h | rfl) | rfl) | rfl) | rfl
    · omega
    · exact absurd hA (by decide)
    · exact absurd hA (by decide)
    · exact absurd hA (by decide)
    · exact absurd hZ (by decide)

/-- The characters of a numeral make no word. -/
lemma not_sameWord (hcs : ∀ c ∈ cs, isNumeralChar c) {word : String}
    (hword : ¬ word.toList.all (isNumeralChar ·.toLower)) :
    ¬ Text.sameWord (String.ofList cs) word := by
  rw [Text.sameWord_eq, beq_iff_eq, String.toList_ofList]
  intro heq
  refine hword (List.all_eq_true.mpr fun c hc => ?_)
  obtain ⟨d, hd, hcd⟩ := List.mem_map.mp (heq ▸ List.mem_map_of_mem hc)
  exact hcd ▸ toLower_of_isNumeralChar (hcs d hd)

lemma readWord?_eq_none (hcs : ∀ c ∈ cs, isNumeralChar c) : readWord? cs = none := by
  have hds : ∀ c ∈ (splitSign cs).2, isNumeralChar c := (signed_splitSign cs).forall_mem hcs
  have hnan : ¬ Text.sameWord (String.ofList (splitSign cs).2) "nan" := not_sameWord hds (by decide)
  have hinf : ¬ Text.sameWord (String.ofList (splitSign cs).2) "inf" := not_sameWord hds (by decide)
  have hinfinity : ¬ Text.sameWord (String.ofList (splitSign cs).2) "infinity" := not_sameWord hds (by decide)
  simp [readWord?, hnan, hinf, hinfinity]

/-- Looking at the characters first only keeps the words out. -/
lemma readInSteps?_eq (text : String) : readInSteps? text = parseNumber? text := by
  simp only [readInSteps?, parseNumber?]
  generalize Text.trimChars text.toList = cs
  split
  · next h =>
    have hnone (n : Numeral) : ¬ Writes cs n := by
      intro hn
      simp [hn.ne_nil, List.all_eq_true.mpr hn.isNumeralChar] at h
    have hread : Numeral.read? cs = none := by
      refine Option.eq_none_iff_forall_not_mem.mpr fun n hn => hnone n (read?_eq_some_iff.mp hn)
    have hint : readInt? cs = none := by
      refine Option.eq_none_iff_forall_not_mem.mpr fun n hn => ?_
      obtain ⟨m, hm⟩ := (readInt?_eq_some_iff.mp hn).writes
      exact hnone m hm
    rw [hread, hint]
    rfl
  · next h =>
    simp only [Bool.or_eq_true, Bool.not_eq_true', not_or, Bool.not_eq_false] at h
    have hword := readWord?_eq_none (List.all_eq_true.mp h.2)
    rw [readFloat?, hword, Option.or_none, readWord64?, Option.map_map, Option.map_map]
    cases (readInt? cs).filter inRange <;> rfl

lemma inRange_iff {n : Int} : inRange n ↔ ∃ i : Int64, n = i.toInt := by
  rw [inRange, Bool.and_eq_true, decide_eq_true_eq, decide_eq_true_eq]
  constructor
  · rintro ⟨hmin, hmax⟩
    exact ⟨.ofInt n, (Int64.toInt_ofInt_of_le hmin (Int.lt_of_le_of_lt hmax (by decide))).symm⟩
  · rintro ⟨i, rfl⟩
    exact ⟨i.minValue_le_toInt, i.toInt_le⟩

lemma readWord64?_eq_some_iff : readWord64? cs = some i ↔ WritesInt cs i.toInt := by
  rw [← readInt?_eq_some_iff, readWord64?, Option.map_eq_some_iff]
  constructor
  · rintro ⟨n, hn, rfl⟩
    obtain ⟨hread, hrange⟩ := Option.filter_eq_some_iff.mp hn
    obtain ⟨i, rfl⟩ := inRange_iff.mp hrange
    rw [hread, Int64.ofInt_toInt]
  · intro h
    exact ⟨i.toInt, Option.filter_eq_some_iff.mpr ⟨h, inRange_iff.mpr ⟨i, rfl⟩⟩, Int64.ofInt_toInt i⟩

lemma parseNumber?_eq (text : String) : parseNumber? text =
    ((readWord64? (Text.trimChars text.toList)).map integer).or
      ((Numeral.read? (Text.trimChars text.toList)).map (float ·.toFloat)) := by
  rw [parseNumber?, readWord64?]
  cases (readInt? (Text.trimChars text.toList)).filter inRange <;> rfl

/-- A text is an integer if it is an integer numeral in the range of 64-bit words, a floating-point number
if it is any other numeral, and no number otherwise. Nothing wraps around at the ends of the range. A reading
in steps agrees, and the text of an integer is read as that integer. -/
theorem parseNumber?_iff (text : String) :
    (∀ i : Int64, parseNumber? text = some (.integer i) ↔
        WritesInt (Text.trimChars text.toList) i.toInt) ∧
      (∀ x, parseNumber? text = some (.float x) ↔
        (∃ n, Writes (Text.trimChars text.toList) n ∧ n.toFloat = x) ∧
          ∀ i : Int64, ¬ WritesInt (Text.trimChars text.toList) i.toInt) ∧
      (parseNumber? text = none ↔ ∀ n, ¬ Writes (Text.trimChars text.toList) n) ∧
      parseNumber? text = readInSteps? text ∧
      ∀ i : Int64, parseNumber? (display (.integer i)) = some (.integer i) := by
  rw [readInSteps?_eq, parseNumber?_eq]
  generalize Text.trimChars text.toList = cs
  simp only [← readWord64?_eq_some_iff, ← read?_eq_some_iff]
  refine ⟨fun i => ?_, fun x => ?_, ?_, trivial, parseNumber?_display⟩
  · cases readWord64? cs <;> simp
  · cases readWord64? cs <;> simp
  · have hwrites : ∀ i, readWord64? cs = some i → ∃ n, Numeral.read? cs = some n := by
      intro i hi
      obtain ⟨n, hn⟩ := (readWord64?_eq_some_iff.mp hi).writes
      exact ⟨n, read?_eq_some_iff.mpr hn⟩
    cases hword : readWord64? cs with
    | none => simp [Option.eq_none_iff_forall_not_mem]
    | some i =>
      obtain ⟨n, hn⟩ := hwrites i hword
      simp [hn]

end MapStyle.Literal
