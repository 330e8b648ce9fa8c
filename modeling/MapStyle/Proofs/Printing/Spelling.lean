import Mathlib.Tactic.Lemma
import MapStyle.Lexeme.Scan
import MapStyle.Literal

/-!
# How lexemes are spelled

Which lexeme a piece of text is read as, whatever stands behind it, as long as that does not go on
with the piece. The conditions on what stands behind look at its first character only.
-/

namespace MapStyle.Text

lemma dropWhile_isBlank_eq_self {cs : List Char} (h : ∀ c ∈ cs.head?, ¬ isBlank c) :
    cs.dropWhile isBlank = cs := by
  cases cs with
  | nil => rfl
  | cons c cs => exact List.dropWhile_cons_of_neg (h c rfl)

/-- Words can be compared character by character. -/
lemma sameWord_eq (s t : String) :
    sameWord s t = (s.toList.map Char.toLower == t.toList.map Char.toLower) := by
  have htoList (u : String) : u.toLower.toList = u.toList.map Char.toLower := String.toList_map
  rw [sameWord, ← htoList, ← htoList, Bool.eq_iff_iff, beq_iff_eq, beq_iff_eq, String.toList_inj]

/-- A text that neither starts nor ends with a blank is not trimmed. -/
lemma trimChars_eq_self {cs : List Char} (hhead : ∀ c ∈ cs.head?, ¬ isBlank c)
    (hlast : ∀ c ∈ cs.getLast?, ¬ isBlank c) : trimChars cs = cs := by
  rw [trimChars, dropWhile_isBlank_eq_self hhead, dropWhile_isBlank_eq_self, List.reverse_reverse]
  rwa [List.head?_reverse]

/-- A text that is not empty and has no blank at either end. -/
structure IsTrimmed (cs : List Char) : Prop where
  ne_nil : cs ≠ []
  head : ∀ c ∈ cs.head?, ¬ isBlank c
  last : ∀ c ∈ cs.getLast?, ¬ isBlank c

namespace IsTrimmed

variable {cs ds : List Char}

lemma of_forall (hne : cs ≠ []) (h : ∀ c ∈ cs, ¬ isBlank c) : IsTrimmed cs :=
  ⟨hne, fun c hc => h c (List.mem_of_head? hc), fun c hc => h c (List.mem_of_getLast? hc)⟩

lemma singleton {c : Char} (hc : ¬ isBlank c) : IsTrimmed [c] :=
  of_forall nofun (List.forall_mem_singleton.mpr hc)

/-- Only the two ends of a text count. -/
lemma append (hcs : IsTrimmed cs) (mid : List Char) (hds : IsTrimmed ds) :
    IsTrimmed (cs ++ (mid ++ ds)) := by
  obtain ⟨c, cs, rfl⟩ := List.exists_cons_of_ne_nil hcs.ne_nil
  obtain ⟨d, hd⟩ := Option.isSome_iff_exists.mp (List.getLast?_isSome.mpr hds.ne_nil)
  refine ⟨nofun, hcs.head, ?_⟩
  rw [← List.append_assoc, List.getLast?_append, hd, Option.some_or, ← hd]
  exact hds.last

lemma trimChars_eq (h : IsTrimmed cs) : trimChars cs = cs :=
  trimChars_eq_self h.head h.last

end IsTrimmed

end MapStyle.Text

namespace MapStyle.Lexeme

variable {c : Char} {cs w rest : List Char}

lemma ofText_of_next {l : Lexeme} (h : next c cs = ⟨l, w, rest⟩) :
    ofText (c :: cs) = (l, w) :: ofText rest := by
  rw [ofText, h]

/-! ### Punctuation -/

lemma ofText_comma : ofText (',' :: rest) = (.comma, [',']) :: ofText rest :=
  ofText_of_next rfl

lemma ofText_semicolon : ofText (';' :: rest) = (.semicolon, [';']) :: ofText rest :=
  ofText_of_next rfl

lemma ofText_colon : ofText (':' :: rest) = (.colon, [':']) :: ofText rest :=
  ofText_of_next rfl

lemma ofText_opener (b : Bracket) :
    ofText (b.opener :: rest) = (.opener b, [b.opener]) :: ofText rest := by
  cases b <;> exact ofText_of_next rfl

lemma ofText_closer (b : Bracket) :
    ofText (b.closer :: rest) = (.closer b, [b.closer]) :: ofText rest := by
  cases b <;> exact ofText_of_next rfl

/-! ### Names -/

/-- A character that names go on with and that stands for itself, if it is an ASCII one. -/
def isPlain (c : Char) : Bool :=
  c.isAlphanum || c == '_' || c == '-'

/-- An identifier of ASCII letters, digits, underscores and hyphens, written as it is. -/
structure IsIdentifier (w : List Char) : Prop where
  starts : startsName w
  plain : ∀ c ∈ w, isPlain c

instance (w : List Char) : Decidable (IsIdentifier w) :=
  decidable_of_iff (startsName w ∧ w.all isPlain)
    ⟨fun h => ⟨h.1, List.all_eq_true.mp h.2⟩, fun h => ⟨h.starts, List.all_eq_true.mpr h.plain⟩⟩

/-- A character that ends a name, without making a function or the end of a markup comment of it. -/
def endsName (c : Char) : Bool :=
  !isNameChar c && c != '\x00' && c != '\\' && c != '(' && c != '>'

/-- A text before which a name ends. -/
def EndsName (cs : List Char) : Prop :=
  ∀ c ∈ cs.head?, endsName c

@[simp] lemma endsName_cons : EndsName (c :: cs) ↔ endsName c := by
  simp [EndsName]

lemma name_append (hw : ∀ c ∈ w, isPlain c) (hrest : EndsName rest) :
    name (w ++ rest) = ⟨w, w, rest⟩ := by
  induction w with
  | nil =>
    cases rest with
    | nil => rw [List.append_nil, name]
    | cons c cs =>
      rw [endsName_cons] at hrest
      simp only [endsName, Bool.and_eq_true, Bool.not_eq_true', bne_iff_ne] at hrest
      obtain ⟨⟨⟨⟨hname, hnul⟩, hslash⟩, -⟩, -⟩ := hrest
      rw [List.nil_append, name]
      simp [hname, hnul, hslash]
  | cons c w ih =>
    obtain ⟨hc, hw⟩ := List.forall_mem_cons.mp hw
    have hname : isNameChar c := by
      simp only [isPlain, Bool.or_eq_true] at hc
      simp only [isNameChar, Bool.or_eq_true]
      exact .inl hc
    rw [List.cons_append, name, if_pos hname, ih hw]
    rfl

lemma isNameStart_of_startsName (h : startsName (c :: cs)) :
    isNameStart c ∨ c = '\\' ∨
      c = '-' ∧ ∃ d ds, cs = d :: ds ∧ (isNameStart d ∨ d = '-' ∨ d = '\\') := by
  unfold startsName at h
  split at h
  · cases h
  · next d ds heq =>
    cases heq
    refine .inr (.inr ⟨rfl, d, ds, rfl, ?_⟩)
    simpa [or_assoc] using h
  · next heq => exact .inr (.inl (List.cons.inj heq).1)
  · next heq => exact .inl ((List.cons.inj heq).1 ▸ h)
  · next heq => cases heq

lemma startsName_of_isNameStart (h : isNameStart c) : startsName (c :: cs) := by
  unfold startsName
  split
  · next heq => cases heq; cases h
  · next heq => cases heq; cases h
  · next heq => cases heq; cases h
  · next heq => cases heq; exact h
  · next heq => cases heq

lemma startsName_append (hw : IsIdentifier w) : startsName (w ++ rest) := by
  have hstarts := hw.starts
  match w, hw with
  | c :: w, hw =>
    obtain h | rfl | ⟨rfl, d, ds, rfl, h⟩ := isNameStart_of_startsName hstarts
    · exact startsName_of_isNameStart h
    · exact absurd (hw.plain _ List.mem_cons_self) (by decide)
    · simpa [startsName, or_assoc] using h

lemma isDigit_iff : c.isDigit ↔ 48 ≤ c.toNat ∧ c.toNat ≤ 57 := by
  have h : c.isDigit = (decide (c.val ≥ '0'.val) && decide (c.val ≤ '9'.val)) := rfl
  simp only [h, Bool.and_eq_true, decide_eq_true_eq, ge_iff_le, UInt32.le_iff_toNat_le]
  rfl

lemma isAlpha_iff :
    c.isAlpha ↔ (65 ≤ c.toNat ∧ c.toNat ≤ 90) ∨ (97 ≤ c.toNat ∧ c.toNat ≤ 122) := by
  have h : c.isAlpha = (decide (c.val ≥ 'A'.val ∧ c.val ≤ 'Z'.val) ||
      decide (c.val ≥ 'a'.val) && decide (c.val ≤ 'z'.val)) := rfl
  simp only [h, Bool.or_eq_true, Bool.and_eq_true, decide_eq_true_eq, ge_iff_le,
    UInt32.le_iff_toNat_le]
  rfl

lemma not_isDigit_of_isNameStart (h : isNameStart c) : ¬ c.isDigit := by
  simp only [isNameStart, Bool.or_eq_true, isAlpha_iff, beq_iff_eq, decide_eq_true_eq] at h
  rw [isDigit_iff]
  rcases h with ((h | rfl) | rfl) | h
  · omega
  · decide
  · decide
  · omega

lemma not_isDigit_of_startsName (h : startsName (c :: cs)) : ¬ c.isDigit := by
  obtain h | rfl | ⟨rfl, -⟩ := isNameStart_of_startsName h
  · exact not_isDigit_of_isNameStart h
  · decide
  · decide

/-- What starts a name does not start a number. -/
lemma not_startsNumber_of_startsName (h : startsName (c :: cs)) : ¬ startsNumber (c :: cs) := by
  have hdigits {c : Char} {cs : List Char} (hpoint : c ≠ '.') (hdigit : ¬ c.isDigit) :
      ¬ startsDigits (c :: cs) := by
    unfold startsDigits
    split
    · next heq => exact absurd (List.cons.inj heq).1 hpoint
    · next heq => rwa [← (List.cons.inj heq).1]
    · next heq => cases heq
  unfold startsNumber
  split
  · next heq => cases heq; cases h
  · next heq =>
    cases heq
    obtain h | h | ⟨-, d, ds, rfl, hd⟩ := isNameStart_of_startsName h
    · cases h
    · cases h
    · refine hdigits ?_ ?_
      · rintro rfl
        simp [isNameStart] at hd
      · rcases hd with hd | rfl | rfl
        · exact not_isDigit_of_isNameStart hd
        · decide
        · decide
  · refine hdigits ?_ (not_isDigit_of_startsName h)
    rintro rfl
    cases h

lemma not_isSpace_of_startsName (h : startsName (c :: cs)) : ¬ isSpace c := by
  intro hspace
  simp only [isSpace, isNewline, Bool.or_eq_true, beq_iff_eq] at hspace
  rcases hspace with (rfl | rfl) | (rfl | rfl) | rfl <;> cases h

/-- A text that starts with a character that is no white space. -/
def StartsVisibly (cs : List Char) : Prop :=
  ∃ c ds, cs = c :: ds ∧ ¬ isSpace c

lemma StartsVisibly.append (h : StartsVisibly cs) (rest : List Char) : StartsVisibly (cs ++ rest) := by
  obtain ⟨c, ds, rfl, hc⟩ := h
  exact ⟨c, ds ++ rest, rfl, hc⟩

lemma StartsVisibly.not_isSpace (h : StartsVisibly cs) : ∀ c ∈ cs.head?, ¬ isSpace c := by
  obtain ⟨c, ds, rfl, hc⟩ := h
  rintro _ ⟨⟩
  exact hc

lemma IsIdentifier.startsVisibly (hw : IsIdentifier w) : StartsVisibly w := by
  match w, hw with
  | [], hw => cases hw.starts
  | c :: w, hw => exact ⟨c, w, rfl, not_isSpace_of_startsName hw.starts⟩

lemma next_identifier (hw : IsIdentifier (c :: w)) (hrest : EndsName rest) :
    next c (w ++ rest) = ⟨.word (String.ofList (c :: w)), c :: w, rest⟩ := by
  have hname : name (c :: (w ++ rest)) = ⟨c :: w, c :: w, rest⟩ := name_append hw.plain hrest
  have hstarts : startsName (c :: (w ++ rest)) := startsName_append hw
  have hword : wordLike (c :: (w ++ rest)) = ⟨.word (String.ofList (c :: w)), c :: w, rest⟩ := by
    rw [wordLike, hname]
    dsimp only
    split
    · exact absurd hrest (by simp [endsName])
    · rfl
  unfold next
  rw [if_neg (not_isSpace_of_startsName hstarts),
    if_neg (not_startsNumber_of_startsName hstarts)]
  split
  case h_22 => rw [if_pos hstarts, hword]
  case h_3 rest' h =>
    exfalso
    match w with
    | [] => cases hw.starts
    | [d] =>
      obtain ⟨rfl, rfl⟩ := List.cons.inj h
      exact absurd hrest (by simp [endsName])
    | d :: e :: w =>
      simp only [List.cons_append, List.cons.injEq] at h
      obtain ⟨rfl, rfl, -⟩ := h
      exact absurd (hw.plain '>' (by simp)) (by decide)
  all_goals cases hstarts

lemma ofText_word (hw : IsIdentifier w) (hrest : EndsName rest) :
    ofText (w ++ rest) = (.word (String.ofList w), w) :: ofText rest := by
  cases w with
  | nil => cases hw.starts
  | cons c w => exact ofText_of_next (next_identifier hw hrest)

/-! ### Names behind a sign -/

lemma ofText_hash (hw : IsIdentifier w) (hrest : EndsName rest) :
    ofText ('#' :: (w ++ rest)) = (.idHash (String.ofList w), '#' :: w) :: ofText rest := by
  have hhash : hashLike (w ++ rest) = ⟨.idHash (String.ofList w), '#' :: w, rest⟩ := by
    unfold hashLike
    rw [name_append hw.plain hrest]
    exact if_pos (startsName_append hw)
  exact ofText_of_next hhash

lemma ofText_point (hw : IsIdentifier w) :
    ofText ('.' :: (w ++ rest)) = (.delimiter '.', ['.']) :: ofText (w ++ rest) := by
  match w, hw with
  | c :: w, hw =>
    have hdigit : ¬ startsNumber ('.' :: (c :: w ++ rest)) := not_isDigit_of_startsName hw.starts
    refine ofText_of_next (?_ : next '.' (c :: w ++ rest) = _)
    unfold next
    rw [if_neg hdigit]
    rfl

lemma ofText_asterisk (h : ∀ c ∈ rest.head?, c ≠ '=') :
    ofText ('*' :: rest) = (.delimiter '*', ['*']) :: ofText rest := by
  have hmatcher : matcherLike '*' rest = ⟨.delimiter '*', ['*'], rest⟩ := by
    unfold matcherLike
    split
    · exact absurd rfl (h '=' rfl)
    · rfl
  exact ofText_of_next hmatcher

/-! ### White space -/

lemma ofText_blanks {bs : List Char} (hne : bs ≠ []) (hbs : ∀ c ∈ bs, isSpace c)
    (hrest : ∀ c ∈ rest.head?, ¬ isSpace c) : ofText (bs ++ rest) = (.blank, bs) :: ofText rest := by
  obtain ⟨b, bs, rfl⟩ := List.exists_cons_of_ne_nil hne
  obtain ⟨hb, hbs⟩ := List.forall_mem_cons.mp hbs
  have htake : rest.takeWhile isSpace = [] := by
    cases rest with
    | nil => rfl
    | cons c cs => exact List.takeWhile_cons_of_neg (hrest c rfl)
  have hdrop : rest.dropWhile isSpace = rest := by
    cases rest with
    | nil => rfl
    | cons c cs => exact List.dropWhile_cons_of_neg (hrest c rfl)
  refine ofText_of_next (?_ : next b (bs ++ rest) = _)
  unfold next
  rw [if_pos hb, List.takeWhile_append_of_pos hbs, List.dropWhile_append_of_pos hbs, htake, hdrop,
    List.append_nil]

/-- One blank before what is no white space. -/
lemma ofText_space (hrest : ∀ c ∈ rest.head?, ¬ isSpace c) :
    ofText (' ' :: rest) = (.blank, [' ']) :: ofText rest := by
  have h := ofText_blanks (List.cons_ne_nil ' ' []) (List.forall_mem_singleton.mpr rfl) hrest
  exact h

/-- One blank before a lexeme that is none. -/
lemma ofText_blank {l : Lexeme × List Char} {ls : List (Lexeme × List Char)}
    (h : ofText cs = l :: ls) (hl : l.1 ≠ .blank) :
    ofText (' ' :: cs) = (.blank, [' ']) :: ofText cs := by
  refine ofText_space ?_
  match cs with
  | [] => nofun
  | c :: cs =>
    rintro _ ⟨⟩ hspace
    rw [ofText] at h
    simp only [next, if_pos hspace, List.cons.injEq] at h
    exact hl (h.1 ▸ rfl)

/-! ### Strings -/

/-- A character that stands for itself between single quotes. -/
def isQuotable (c : Char) : Bool :=
  c != '\'' && !isNewline c && c != '\\' && c != '\x00'

lemma stringBody_append (hw : ∀ c ∈ w, isQuotable c) :
    stringBody '\'' (w ++ '\'' :: rest) = ⟨(true, w), w ++ ['\''], rest⟩ := by
  induction w with
  | nil => rw [List.nil_append, stringBody, if_pos rfl]; rfl
  | cons c w ih =>
    obtain ⟨hc, hw⟩ := List.forall_mem_cons.mp hw
    simp only [isQuotable, Bool.and_eq_true, bne_iff_ne, Bool.not_eq_true'] at hc
    obtain ⟨⟨⟨hquote, hnewline⟩, hslash⟩, hnul⟩ := hc
    rw [List.cons_append, stringBody, if_neg hquote, hnewline, if_neg Bool.false_ne_true,
      if_neg hslash, ih hw]
    simp [hnul, Piece.map, Piece.after]

lemma ofText_string (hw : ∀ c ∈ w, isQuotable c) :
    ofText ('\'' :: (w ++ '\'' :: rest)) =
      (.string (String.ofList w), '\'' :: (w ++ ['\''])) :: ofText rest := by
  have hquoted : quoted '\'' (w ++ '\'' :: rest) =
      ⟨.string (String.ofList w), '\'' :: (w ++ ['\'']), rest⟩ := by
    rw [quoted, stringBody_append hw]
    rfl
  exact ofText_of_next hquoted

/-- A text with its quotes doubled. -/
def doubled (cs : List Char) : List Char :=
  cs.flatMap fun c => if c = '\'' then ['\'', '\''] else [c]

lemma doubled_of_quoteless (h : ∀ c ∈ cs, c ≠ '\'') : doubled cs = cs := by
  induction cs with
  | nil => rfl
  | cons c cs ih =>
    obtain ⟨hc, hcs⟩ := List.forall_mem_cons.mp h
    rw [doubled, List.flatMap_cons, if_neg hc, ← doubled, ih hcs, List.singleton_append]

lemma doubled_of_isQuotable (h : ∀ c ∈ cs, isQuotable c) : doubled cs = cs := by
  apply doubled_of_quoteless
  rintro _ hc rfl
  exact absurd (h _ hc) (by decide)

/-! ### Integers -/

/-- A character that ends a number. -/
def endsNumber (c : Char) : Bool :=
  endsName c && c != '.' && c != '%'

/-- A text before which a number ends. -/
def EndsNumber (cs : List Char) : Prop :=
  ∀ c ∈ cs.head?, endsNumber c

@[simp] lemma endsNumber_nil : EndsNumber [] := nofun

@[simp] lemma endsNumber_cons : EndsNumber (c :: cs) ↔ endsNumber c := by
  simp [EndsNumber]

lemma EndsNumber.endsName (h : EndsNumber rest) : EndsName rest := by
  intro c hc
  have hc := h c hc
  simp only [endsNumber, Bool.and_eq_true] at hc
  exact hc.1.1

lemma digits_append (hw : ∀ c ∈ w, c.isDigit) (hrest : EndsNumber rest) :
    digits (w ++ rest) = ⟨w, w, rest⟩ := by
  have hdigit : ∀ c ∈ rest.head?, ¬ c.isDigit := by
    intro c hc hdigit
    have hends := hrest c hc
    simp [endsNumber, endsName, isNameChar, Char.isAlphanum, hdigit] at hends
  have htake : rest.takeWhile Char.isDigit = [] := by
    cases rest with
    | nil => rfl
    | cons c cs => exact List.takeWhile_cons_of_neg (hdigit c rfl)
  have hdrop : rest.dropWhile Char.isDigit = rest := by
    cases rest with
    | nil => rfl
    | cons c cs => exact List.dropWhile_cons_of_neg (hdigit c rfl)
  rw [digits, List.takeWhile_append_of_pos hw, List.dropWhile_append_of_pos hw, htake, hdrop,
    List.append_nil]

lemma fraction_of_endsNumber (hrest : EndsNumber rest) : fraction rest = ⟨[], [], rest⟩ := by
  unfold fraction
  split
  · simp [endsNumber] at hrest
  · rfl

lemma exponent_of_endsNumber (hrest : EndsNumber rest) : exponent rest = ⟨none, [], rest⟩ := by
  match rest with
  | [] => rfl
  | c :: cs =>
    have he : ¬ (c = 'e' ∨ c = 'E') := by
      rintro (rfl | rfl) <;> simp [endsNumber, endsName, isNameChar] at hrest
    simp [exponent, he]

lemma not_startsName_of_endsNumber (hrest : EndsNumber rest) : ¬ startsName rest := by
  match rest with
  | [] => nofun
  | c :: cs =>
    intro h
    simp only [endsNumber_cons, endsNumber, endsName, isNameChar, Bool.and_eq_true,
      Bool.not_eq_true', bne_iff_ne, Bool.or_eq_false_iff, Char.isAlphanum] at hrest
    obtain h | rfl | ⟨rfl, -⟩ := isNameStart_of_startsName h
    · simp [isNameStart] at h
      grind
    · simp at hrest
    · simp at hrest

/-- An integer numeral: digits, with a minus sign or without a sign. -/
inductive IsNumeral : List Char → Prop
  | plain {ds : List Char} (hne : ds ≠ []) (hds : ∀ c ∈ ds, c.isDigit) : IsNumeral ds
  | negative {ds : List Char} (hne : ds ≠ []) (hds : ∀ c ∈ ds, c.isDigit) : IsNumeral ('-' :: ds)

lemma ne_of_isDigit {d : Char} (hc : c.isDigit) (hd : ¬ d.isDigit) : c ≠ d := by
  rintro rfl
  exact hd hc

/-- The number that an integer numeral is. -/
def ofNumeral : List Char → WrittenNumber
  | '-' :: ds => ⟨some '-', ds, [], none⟩
  | ds => ⟨none, ds, [], none⟩

lemma IsNumeral.writtenNumber_append (h : IsNumeral w) (hrest : EndsNumber rest) :
    writtenNumber (w ++ rest) = ⟨ofNumeral w, w, rest⟩ := by
  cases h with
  | plain hne hw =>
    obtain ⟨d, w, rfl⟩ := List.exists_cons_of_ne_nil hne
    have hd := hw d List.mem_cons_self
    have hsign : sign (d :: w ++ rest) = ⟨none, [], d :: w ++ rest⟩ := by
      unfold sign
      split
      · next heq => exact absurd (List.cons.inj heq).1 (ne_of_isDigit hd (by decide))
      · next heq => exact absurd (List.cons.inj heq).1 (ne_of_isDigit hd (by decide))
      · rfl
    have hnumeral : ofNumeral (d :: w) = ⟨none, d :: w, [], none⟩ := by
      unfold ofNumeral
      split
      · next heq => exact absurd (List.cons.inj heq).1 (ne_of_isDigit hd (by decide))
      · rfl
    simp only [writtenNumber, hsign, hnumeral, digits_append hw hrest,
      fraction_of_endsNumber hrest, exponent_of_endsNumber hrest, List.append_nil, List.nil_append]
  | @negative w hne hw =>
    simp [writtenNumber, sign, digits_append hw hrest, fraction_of_endsNumber hrest,
      exponent_of_endsNumber hrest, ofNumeral]

lemma startsDigits_append (hne : w ≠ []) (hw : ∀ c ∈ w, c.isDigit) : startsDigits (w ++ rest) := by
  obtain ⟨d, w, rfl⟩ := List.exists_cons_of_ne_nil hne
  have hd := hw d List.mem_cons_self
  unfold startsDigits
  split
  · next heq => exact absurd (List.cons.inj heq).1 (ne_of_isDigit hd (by decide))
  · next heq => rwa [← (List.cons.inj heq).1]
  · next heq => cases heq

lemma IsNumeral.startsNumber_append (h : IsNumeral w) : startsNumber (w ++ rest) := by
  cases h with
  | plain hne hw =>
    obtain ⟨d, w, rfl⟩ := List.exists_cons_of_ne_nil hne
    have hd := hw d List.mem_cons_self
    unfold startsNumber
    split
    · next heq => exact absurd (List.cons.inj heq).1 (ne_of_isDigit hd (by decide))
    · next heq => exact absurd (List.cons.inj heq).1 (ne_of_isDigit hd (by decide))
    · exact startsDigits_append hne hw
  | negative hne hw => exact startsDigits_append hne hw

lemma IsNumeral.numeric_append (h : IsNumeral w) (hrest : EndsNumber rest) :
    numeric (w ++ rest) = ⟨.number (ofNumeral w), w, rest⟩ := by
  unfold numeric
  rw [h.writtenNumber_append hrest]
  dsimp only
  split
  · simp [endsNumber] at hrest
  · rw [if_neg (not_startsName_of_endsNumber hrest)]

lemma not_isSpace_of_startsNumber (h : startsNumber (c :: cs)) : ¬ isSpace c := by
  intro hspace
  simp only [isSpace, isNewline, Bool.or_eq_true, beq_iff_eq] at hspace
  rcases hspace with (rfl | rfl) | (rfl | rfl) | rfl <;> cases h

lemma IsNumeral.startsVisibly (h : IsNumeral w) : StartsVisibly w := by
  have hstarts : startsNumber (w ++ []) := h.startsNumber_append
  rw [List.append_nil] at hstarts
  match w, hstarts with
  | c :: w, hstarts => exact ⟨c, w, rfl, not_isSpace_of_startsNumber hstarts⟩

lemma ofText_numeral (h : IsNumeral w) (hrest : EndsNumber rest) :
    ofText (w ++ rest) = (.number (ofNumeral w), w) :: ofText rest := by
  have hstarts : startsNumber (w ++ rest) := h.startsNumber_append
  have hnumeric := h.numeric_append hrest
  match w, h with
  | c :: w, _ =>
    refine ofText_of_next (?_ : next c (w ++ rest) = _)
    unfold next
    rw [if_neg (not_isSpace_of_startsNumber hstarts)]
    exact (if_pos hstarts).trans hnumeric

end MapStyle.Lexeme

namespace MapStyle.Literal

open Lexeme Decimal

/-- The digits of an integer, with a minus sign if it is negative. -/
lemma toList_toString (n : Int) : (toString n).toList =
    if 0 ≤ n then Nat.toDigits 10 n.toNat else '-' :: Nat.toDigits 10 (-n).toNat := by
  rw [Int.toString_eq_repr, Int.repr_eq_if]
  split
  · exact Nat.toList_repr
  · rw [String.toList_append, Nat.toList_repr]
    rfl

lemma isNumeral_toString (n : Int) : IsNumeral (toString n).toList := by
  have hdigits (k : Nat) : ∀ c ∈ Nat.toDigits 10 k, c.isDigit :=
    fun c => Nat.isDigit_of_mem_toDigits (by omega) (by omega)
  rw [toList_toString]
  split
  · exact .plain Nat.toDigits_ne_nil (hdigits _)
  · exact .negative Nat.toDigits_ne_nil (hdigits _)

lemma ofDigits_toDigits (k : Nat) : ofDigits (Nat.toDigits 10 k) = k := by
  have h := Nat.ofDigitChars_ten_toDigits (n := k)
  rw [Nat.ofDigitChars_eq_foldl] at h
  exact h

lemma not_isBlank_of_isDigit {c : Char} (h : c.isDigit) : ¬ Text.isBlank c := by
  simp only [Char.isDigit, Bool.and_eq_true, decide_eq_true_eq, ge_iff_le,
    UInt32.le_iff_toNat_le] at h
  have hval : c.val.toNat = c.toNat := rfl
  simp [Text.isBlank] at h ⊢
  omega

lemma isTrimmed_of_isNumeral {cs : List Char} (h : IsNumeral cs) : Text.IsTrimmed cs := by
  cases h with
  | plain hne hds => exact .of_forall hne fun c hc => not_isBlank_of_isDigit (hds c hc)
  | negative hne hds =>
    refine .of_forall nofun (List.forall_mem_cons.mpr ⟨by decide, ?_⟩)
    exact fun c hc => not_isBlank_of_isDigit (hds c hc)

lemma readInt?_toString (n : Int) : readInt? (toString n).toList = some n := by
  have hdigits (k : Nat) : (Nat.toDigits 10 k).all Char.isDigit :=
    List.all_eq_true.mpr fun c => Nat.isDigit_of_mem_toDigits (by omega) (by omega)
  have hsign (k : Nat) : splitSign (Nat.toDigits 10 k) = (false, Nat.toDigits 10 k) := by
    have hdigit := List.all_eq_true.mp (hdigits k)
    unfold splitSign
    split
    · next heq => exact absurd (hdigit '-' (by simp [heq])) (by decide)
    · next heq => exact absurd (hdigit '+' (by simp [heq])) (by decide)
    · rfl
  rw [toList_toString]
  split
  · next hn =>
    simp [readInt?, hsign, hdigits, Nat.toDigits_ne_nil, ofDigits_toDigits]
    omega
  · next hn =>
    simp [readInt?, splitSign, hdigits, Nat.toDigits_ne_nil, ofDigits_toDigits]
    omega

/-- A written integer reads as itself. -/
theorem parseNumber?_display (n : Int64) :
    parseNumber? (display (.integer n)) = some (.integer n) := by
  have hrange : inRange n.toInt := by
    rw [inRange, Bool.and_eq_true, decide_eq_true_eq, decide_eq_true_eq]
    exact ⟨n.minValue_le_toInt, n.toInt_le⟩
  unfold parseNumber?
  rw [display, (isTrimmed_of_isNumeral (isNumeral_toString _)).trimChars_eq]
  simp only [readInt?_toString, Option.filter, hrange, if_true, Int64.ofInt_toInt]

end MapStyle.Literal
