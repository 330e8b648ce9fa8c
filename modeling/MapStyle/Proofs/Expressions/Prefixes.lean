import MapStyle.Proofs.Comments.Lexemes

/-!
# Lexemes of a longer text

A scanner looks at most two characters beyond what it reads. So a lexeme behind which two characters are left
stays what it is if the text goes on (`next_append`), whatever that starts with.
-/

namespace MapStyle

/-- The piece of a text that goes on. -/
def Piece.extend {α : Type} (p : Piece α) (q : List Char) : Piece α :=
  ⟨p.value, p.raw, p.rest ++ q⟩

lemma Piece.eq_extend {α : Type} {piece longer : Piece α} {x q : List Char} (hsource : piece.source = x)
    (hlonger : longer.source = x ++ q) (hvalue : longer.value = piece.value)
    (hraw : longer.raw = piece.raw) : longer = piece.extend q := by
  subst hsource
  exact Piece.eq_of_source (by rw [hlonger, source, List.append_assoc]) hvalue hraw

namespace Lexeme

variable {α β : Type} {f : List Char → Piece α} {x y q cs : List Char} {c : Char}

/-- A scanner reads the same from a longer text, if two characters are left of the shorter one. -/
def IsLocal (f : List Char → Piece α) : Prop :=
  ∀ x q, 2 ≤ (f x).rest.length → f (x ++ q) = (f x).extend q

/-! ### Escapes and names -/

lemma oneBlank_extend (h : (oneBlank x).rest ≠ []) : oneBlank (x ++ q) = (oneBlank x).extend q := by
  refine Piece.eq_extend (source_oneBlank x) (source_oneBlank _) rfl ?_
  match x with
  | [] => exact absurd rfl h
  | [c] =>
    have hsource : (oneBlank [c]).raw ++ (oneBlank [c]).rest = [c] := source_oneBlank [c]
    have hraw : (oneBlank [c]).raw = [] :=
      ((List.append_eq_singleton_iff.mp hsource).resolve_right fun hnil => h hnil.2).1
    have hc := raw_oneBlank_eq_nil_iff.mp hraw
    rw [hraw]
    exact raw_oneBlank_eq_nil_iff.mpr hc
  | c :: d :: x =>
    rw [List.cons_append, List.cons_append, raw_oneBlank_cons, raw_oneBlank_cons]
    rfl

lemma take_takeWhile_extend {p : Char → Bool} {n : Nat} (h : ((x.takeWhile p).take n).length < x.length) :
    ((x ++ q).takeWhile p).take n = (x.takeWhile p).take n := by
  induction x generalizing n with
  | nil => cases h
  | cons c x ih =>
    cases n with
    | zero => rfl
    | succ n =>
      by_cases hc : p c
      · simp only [List.cons_append, List.takeWhile_cons_of_pos hc, List.take_succ_cons,
          List.length_cons, Nat.succ_lt_succ_iff] at h ⊢
        rw [ih h]
      · simp only [List.cons_append, List.takeWhile_cons_of_neg hc]

lemma escape_extend (h : (escape x).rest ≠ []) : escape (x ++ q) = (escape x).extend q := by
  cases x with
  | nil => exact absurd rfl h
  | cons c x =>
    by_cases hc : isHexDigit c
    · rw [escape_hex hc] at h
      have hlength : (hexDigits (c :: x)).length < (c :: x).length := by
        refine Nat.lt_of_not_le fun hle => h ?_
        rw [List.drop_eq_nil_of_le hle]
        rfl
      have hdigits : hexDigits (c :: x ++ q) = hexDigits (c :: x) := take_takeWhile_extend hlength
      rw [List.cons_append, escape_hex hc, ← List.cons_append, hdigits,
        List.drop_append_of_le_length (Nat.le_of_lt hlength), oneBlank_extend h, escape_hex hc]
      rfl
    · rw [List.cons_append, escape_other hc, escape_other hc]
      rfl

lemma startsNewline_extend (hx : x ≠ []) : startsNewline (x ++ q) = startsNewline x := by
  obtain ⟨c, x, rfl⟩ := List.exists_cons_of_ne_nil hx
  rfl

/-- A name ends where it did. Whether a backslash goes on with it depends on the character behind. -/
lemma name_extend (x q : List Char) (h : 2 ≤ (name x).rest.length) : name (x ++ q) = (name x).extend q := by
  match x with
  | [] =>
    rw [name] at h
    cases h
  | c :: x =>
    by_cases hc : isNameChar c
    · rw [name_char hc] at h ⊢
      rw [List.cons_append, name_char hc, name_extend x q h]
      rfl
    by_cases hnul : c = '\x00'
    · subst hnul
      rw [name_nul] at h ⊢
      rw [List.cons_append, name_nul, name_extend x q h]
      rfl
    -- the end of the name: the backslash that may end it has a character behind it
    by_cases hslash : c = '\\' → startsNewline x
    · rw [name_end hc hnul hslash] at h ⊢
      have hx : x ≠ [] := by
        rintro rfl
        exact Nat.not_succ_le_self 1 h
      rw [← startsNewline_extend hx (q := q)] at hslash
      exact name_end hc hnul hslash
    · -- an escape, behind which the name goes on
      rw [Classical.not_imp] at hslash
      obtain ⟨rfl, hslash⟩ := hslash
      rw [name_escape hslash] at h ⊢
      have hlt : (escape x).rest.length < ('\\' :: x).length :=
        Nat.lt_succ_of_le (Piece.rest_length_le (source_escape x))
      have hrest : (escape x).rest ≠ [] := by
        intro hnil
        rw [hnil, name] at h
        cases h
      have hx : x ≠ [] := by
        rintro rfl
        exact hrest rfl
      rw [← startsNewline_extend hx (q := q)] at hslash
      rw [List.cons_append, name_escape hslash, escape_extend hrest, Piece.extend, name_extend _ q h]
      rfl
termination_by x.length
decreasing_by all_goals first | exact hlt | exact Nat.lt_succ_self _

lemma head?_extend (hx : x ≠ []) : (x ++ q).head? = x.head? := by
  obtain ⟨c, x, rfl⟩ := List.exists_cons_of_ne_nil hx
  rfl

lemma ne_nil_of_two_le (h : 2 ≤ x.length) : x ≠ [] := by
  rintro rfl
  cases h

lemma exists_two (h : 2 ≤ x.length) : ∃ c d cs, x = c :: d :: cs := by
  match x with
  | c :: d :: cs => exact ⟨c, d, cs, rfl⟩

lemma startsName_extend (hx : 2 ≤ x.length) : startsName (x ++ q) = startsName x := by
  obtain ⟨c, d, x, rfl⟩ := exists_two hx
  have hstarts := startsName_append_two c d x q []
  rwa [List.append_nil] at hstarts

/-! ### Strings and comments -/

lemma stringBody_extend (quote : Char) (x q : List Char) (h : (stringBody quote x).rest ≠ []) :
    stringBody quote (x ++ q) = (stringBody quote x).extend q := by
  -- the text does not end inside the string: nothing would be left of it
  match x with
  | [] => exact absurd (by rw [stringBody]) h
  | c :: x =>
    by_cases hquote : c = quote
    · rw [hquote, List.cons_append, stringBody_quote, stringBody_quote]
      rfl
    by_cases hc : isNewline c
    · rw [List.cons_append, stringBody_newline hquote hc, stringBody_newline hquote hc]
      rfl
    by_cases hslash : c = '\\'
    · subst hslash
      have hx : x ≠ [] := by
        rintro rfl
        rw [stringBody, if_neg hquote, if_neg hc] at h
        exact h rfl
      by_cases hline : startsNewline x
      · rw [stringBody_continued hquote hline] at h ⊢
        have hlt : (oneBlank x).rest.length < ('\\' :: x).length :=
          Nat.lt_succ_of_le (Piece.rest_length_le (source_oneBlank x))
        have hrest : (oneBlank x).rest ≠ [] := by
          intro hnil
          rw [hnil, stringBody] at h
          exact h rfl
        rw [← startsNewline_extend hx (q := q)] at hline
        rw [List.cons_append, stringBody_continued hquote hline, oneBlank_extend hrest, Piece.extend,
          stringBody_extend quote _ q h]
        rfl
      · rw [stringBody_escape hquote hx hline] at h ⊢
        have hlt : (escape x).rest.length < ('\\' :: x).length :=
          Nat.lt_succ_of_le (Piece.rest_length_le (source_escape x))
        have hrest : (escape x).rest ≠ [] := by
          intro hnil
          rw [hnil, stringBody] at h
          exact h rfl
        rw [← startsNewline_extend hx (q := q)] at hline
        rw [List.cons_append, stringBody_escape hquote (by simp [hx]) hline, escape_extend hrest,
          Piece.extend, stringBody_extend quote _ q h]
        rfl
    · rw [stringBody_char hquote hc hslash] at h ⊢
      rw [List.cons_append, stringBody_char hquote hc hslash, stringBody_extend quote x q h]
      rfl
termination_by x.length
decreasing_by all_goals first | exact hlt | exact Nat.lt_succ_self _

lemma commentBody_extend (h : (commentBody x).rest ≠ []) :
    commentBody (x ++ q) = (commentBody x).extend q := by
  fun_induction commentBody x with
  | case1 => exact absurd rfl h
  | case2 cs => rfl
  | case3 c cs hend ih =>
    have hcs : ∀ ds, c :: (cs ++ q) ≠ '*' :: '/' :: ds := by
      rintro ds heq
      cases cs with
      | nil => exact h rfl
      | cons d cs =>
        simp only [List.cons_append, List.cons.injEq] at heq
        obtain ⟨rfl, rfl, -⟩ := heq
        exact hend cs rfl rfl
    rw [List.cons_append, commentBody_char hcs, ih h]
    rfl

/-! ### Numbers -/

lemma takeWhile_extend {p : Char → Bool} (h : x.dropWhile p ≠ []) :
    (x ++ q).takeWhile p = x.takeWhile p ∧ (x ++ q).dropWhile p = x.dropWhile p ++ q := by
  induction x with
  | nil => exact absurd rfl h
  | cons c x ih =>
    by_cases hc : p c
    · simp only [List.cons_append, List.takeWhile_cons_of_pos hc, List.dropWhile_cons_of_pos hc] at h ⊢
      obtain ⟨htake, hdrop⟩ := ih h
      exact ⟨congrArg _ htake, hdrop⟩
    · simp only [List.cons_append, List.takeWhile_cons_of_neg hc, List.dropWhile_cons_of_neg hc]
      exact ⟨trivial, trivial⟩

lemma IsLocal.seq {g : List Char → Piece β} (hf : IsLocal f) (hg : IsLocal g)
    (hsource : ∀ cs, (g cs).source = cs) : IsLocal (seq f g) := by
  intro x q h
  have hle : (g (f x).rest).rest.length ≤ (f x).rest.length := Piece.rest_length_le (hsource _)
  rw [Lexeme.seq, hf x q (Nat.le_trans h hle), Piece.extend, hg _ q h]
  simp [Lexeme.seq, Piece.extend]

lemma isLocal_sign : IsLocal sign := by
  intro x q h
  cases x with
  | nil => cases h
  | cons c x =>
    rw [List.cons_append, sign_cons, sign_cons]
    split <;> rfl

lemma isLocal_digits : IsLocal digits := by
  intro x q h
  obtain ⟨htake, hdrop⟩ := takeWhile_extend (q := q) (ne_nil_of_two_le h)
  rw [digits, htake, hdrop, digits]
  rfl

lemma isLocal_fraction : IsLocal fraction := by
  intro x q h
  by_cases hdigit : ∃ c ds, x = '.' :: c :: ds ∧ c.isDigit
  · obtain ⟨c, ds, rfl, hc⟩ := hdigit
    rw [fraction_digit hc] at h
    have hdigits : digits (c :: ds ++ q) = (digits (c :: ds)).extend q := isLocal_digits _ q h
    rw [fraction_digit hc, List.cons_append, List.cons_append, fraction_digit hc, ← List.cons_append, hdigits]
    rfl
  · have hno : fraction x = ⟨[], [], x⟩ := fraction_eq_nil fun c ds hcs hc => hdigit ⟨c, ds, hcs, hc⟩
    rw [hno] at h ⊢
    refine fraction_eq_nil fun c ds hcs hc => ?_
    obtain ⟨d, e, x, rfl⟩ := exists_two h
    simp only [List.cons_append, List.cons.injEq] at hcs
    obtain ⟨rfl, rfl, rfl⟩ := hcs
    exact hdigit ⟨_, _, rfl, hc⟩

/-- An exponent stays what it is. Characters that are none are none with more of them, unless they start a
unit. -/
lemma exponent_extend (h : 2 ≤ (exponent x).rest.length) (hname : ¬ startsName (exponent x).rest) :
    exponent (x ++ q) = (exponent x).extend q := by
  cases x with
  | nil => cases h
  | cons c x =>
    by_cases hc : c = 'e' ∨ c = 'E' → (exponentDigits x).value.2 = []
    · rw [exponent_none hc] at hname ⊢
      refine exponent_none fun he => absurd (startsName_of_isNameStart ?_) hname
      obtain rfl | rfl := he <;> rfl
    · obtain ⟨hc, hne⟩ := Classical.not_imp.mp hc
      rw [exponent_some hc hne] at h ⊢
      have hdigits : exponentDigits (x ++ q) = (exponentDigits x).extend q :=
        isLocal_sign.seq isLocal_digits source_digits x q h
      rw [List.cons_append, exponent_some hc (by rw [hdigits]; exact hne), hdigits]
      rfl

/-- The sign, the digits and the fraction of a number. -/
def mantissa : List Char → Piece ((Option Char × List Char) × List Char) :=
  seq (seq sign digits) fraction

lemma writtenNumber_eq (cs : List Char) : writtenNumber cs = (seq mantissa exponent cs).map
    fun v => ⟨v.1.1.1, v.1.1.2, v.1.2, v.2⟩ :=
  rfl

lemma writtenNumber_extend (h : 2 ≤ (writtenNumber x).rest.length)
    (hname : ¬ startsName (writtenNumber x).rest) :
    writtenNumber (x ++ q) = (writtenNumber x).extend q := by
  have hle : (exponent (mantissa x).rest).rest.length ≤ (mantissa x).rest.length :=
    Piece.rest_length_le (source_exponent _)
  have hmantissa : mantissa (x ++ q) = (mantissa x).extend q :=
    (isLocal_sign.seq isLocal_digits source_digits).seq isLocal_fraction source_fraction x q
      (Nat.le_trans h hle)
  have hexponent : exponent ((mantissa x).rest ++ q) = (exponent (mantissa x).rest).extend q :=
    exponent_extend h hname
  rw [writtenNumber_eq, seq, hmantissa, Piece.extend, hexponent, writtenNumber_eq]
  rfl

/-! ### Lexemes -/

/-- The lexemes that expressions are made of. -/
def isPart : Lexeme → Bool
  | blank | comment | word _ | string _ | number _ | hash _ | idHash _ | delimiter _ => true
  | opener b | closer b => b = .paren
  | _ => false

lemma numeric_extend (hpart : isPart (numeric x).value) (h : 2 ≤ (numeric x).rest.length) :
    numeric (x ++ q) = (numeric x).extend q := by
  by_cases hpercent : ∃ rest, (writtenNumber x).rest = '%' :: rest
  · obtain ⟨rest, hrest⟩ := hpercent
    rw [numeric_percent hrest] at hpart
    cases hpart
  by_cases hname : startsName (writtenNumber x).rest
  · rw [numeric_dimension hname] at hpart
    cases hpart
  have hhead : (writtenNumber x).rest.head? ≠ some '%' := fun hhead =>
    hpercent (List.head?_eq_some_iff.mp hhead)
  rw [numeric_plain hhead hname] at h ⊢
  have hnumber := writtenNumber_extend (q := q) h hname
  have hhead' : (writtenNumber (x ++ q)).rest.head? ≠ some '%' := by
    rw [hnumber, Piece.extend, head?_extend (ne_nil_of_two_le h)]
    exact hhead
  have hname' : ¬ startsName (writtenNumber (x ++ q)).rest := by
    rw [hnumber, Piece.extend, startsName_extend h]
    exact hname
  rw [numeric_plain hhead' hname', hnumber]
  rfl

/-- A name with a parenthesis behind it is the start of a function or of an address. -/
lemma not_isPart_wordLike (hparen : (name x).rest.head? = some '(') : ¬ isPart (wordLike x).value := by
  obtain ⟨rest, hrest⟩ := List.head?_eq_some_iff.mp hparen
  by_cases hurl : (String.ofList (name x).value).toLower == "url"
  · cases ha : address? rest with
    | none =>
      rw [wordLike_arguments hrest hurl ha]
      nofun
    | some a =>
      rw [wordLike_url hrest hurl ha]
      obtain ⟨address, raw, rest'⟩ := a
      cases address <;> nofun
  · rw [wordLike_function hrest hurl]
    nofun

lemma wordLike_extend (hpart : isPart (wordLike x).value) (h : 2 ≤ (wordLike x).rest.length) :
    wordLike (x ++ q) = (wordLike x).extend q := by
  have hparen : (name x).rest.head? ≠ some '(' := fun hparen => not_isPart_wordLike hparen hpart
  rw [wordLike_word hparen] at h ⊢
  have hname := name_extend x q h
  have hparen' : (name (x ++ q)).rest.head? ≠ some '(' := by
    rw [hname, Piece.extend, head?_extend (ne_nil_of_two_le h)]
    exact hparen
  rw [wordLike_word hparen', hname]
  rfl

lemma hashLike_extend (h : 2 ≤ (hashLike x).rest.length) : hashLike (x ++ q) = (hashLike x).extend q := by
  have hle : (hashLike x).rest.length ≤ x.length := by
    have hlt := Piece.rest_length_lt (source_hashLike x) (raw_hashLike_ne_nil x)
    exact Nat.le_of_lt_succ hlt
  have hx := Nat.le_trans h hle
  by_cases hname : startsName x
  · rw [hashLike_name hname] at h ⊢
    rw [hashLike_name (by rwa [startsName_extend hx]), name_extend x q h]
    rfl
  obtain ⟨c, x, rfl⟩ := List.exists_cons_of_ne_nil (ne_nil_of_two_le hx)
  have hname' : ¬ startsName (c :: (x ++ q)) := by rwa [← List.cons_append, startsName_extend hx]
  by_cases hc : c.isDigit || c = '-'
  · rw [hashLike_digit hname hc] at h ⊢
    rw [List.cons_append, hashLike_digit hname' hc, ← List.cons_append, name_extend _ q h]
    rfl
  · have hhead (cs : List Char) : ∀ d ∈ (c :: cs).head?, ¬ (d.isDigit || d = '-') := by
      rintro d ⟨⟩
      exact hc
    rw [hashLike_alone hname (hhead x), List.cons_append, hashLike_alone hname' (hhead _)]
    rfl

lemma atLike_extend (hpart : isPart (atLike x).value) (h : 2 ≤ (atLike x).rest.length) :
    atLike (x ++ q) = (atLike x).extend q := by
  unfold atLike at hpart h ⊢
  split at hpart
  · cases hpart
  · next hname =>
    rw [if_neg hname] at h ⊢
    rw [if_neg (by rwa [startsName_extend h])]
    rfl

lemma matcherLike_extend (hpart : isPart (matcherLike c x).value) (h : 2 ≤ (matcherLike c x).rest.length) :
    matcherLike c (x ++ q) = (matcherLike c x).extend q := by
  by_cases hequals : x.head? = some '='
  · obtain ⟨x, rfl⟩ := List.head?_eq_some_iff.mp hequals
    cases hpart
  · rw [matcherLike_alone hequals] at h ⊢
    refine matcherLike_alone ?_
    rwa [head?_extend (ne_nil_of_two_le h)]

lemma quoted_extend {quote : Char} (h : (quoted quote x).rest ≠ []) :
    quoted quote (x ++ q) = (quoted quote x).extend q := by
  unfold quoted at h ⊢
  rw [stringBody_extend quote x q h]
  rfl

lemma startsDigits_extend (hx : 2 ≤ x.length) : startsDigits (x ++ q) = startsDigits x := by
  obtain ⟨c, d, x, rfl⟩ := exists_two hx
  by_cases hc : c = '.'
  · subst hc
    rfl
  · rw [List.cons_append, startsDigits_cons hc, startsDigits_cons hc]

lemma startsNumber_extend (hx : 2 ≤ x.length) : startsNumber (c :: (x ++ q)) = startsNumber (c :: x) := by
  have hcx : 2 ≤ (c :: x).length := Nat.le_succ_of_le hx
  rw [startsNumber_cons, startsNumber_cons, startsDigits_extend hx, ← List.cons_append,
    startsDigits_extend hcx]

/-- Only the start of a comment that opens markup reaches over two characters. -/
lemma startsSign_extend (hx : 2 ≤ x.length) (hmarkup : x ≠ ['!', '-']) (h : StartsSign c (x ++ q)) :
    StartsSign c x := by
  obtain ⟨d, e, x, rfl⟩ := exists_two hx
  obtain ⟨rfl, hw⟩ | ⟨rfl, hw⟩ | ⟨rfl, hw⟩ := h
  · refine .inl ⟨rfl, ?_⟩
    simpa using hw
  · refine .inr (.inl ⟨rfl, ?_⟩)
    cases x with
    | nil =>
      simp only [List.cons_append, List.nil_append, List.cons_prefix_cons] at hw
      exact absurd (by rw [← hw.1, ← hw.2.1]) hmarkup
    | cons f x => simpa using hw
  · refine .inr (.inr ⟨rfl, ?_⟩)
    simpa using hw

lemma next_sign_extend (hsign : StartsSign c x) (hpart : isPart (next c x).value)
    (h : 2 ≤ (next c x).rest.length) : next c (x ++ q) = (next c x).extend q := by
  obtain ⟨rfl, x, rfl⟩ | ⟨rfl, x, rfl⟩ | ⟨rfl, x, rfl⟩ := hsign
  · have hnext (cs : List Char) : next '/' ('*' :: cs) =
        ((commentBody cs).map fun _ => comment).after ['/', '*'] := rfl
    simp only [List.cons_append, List.nil_append, hnext] at h ⊢
    rw [commentBody_extend (ne_nil_of_two_le h)]
    rfl
  · cases hpart
  · cases hpart

lemma next_special_extend (hc : c ∈ specials) (hpart : isPart (next c x).value)
    (h : 2 ≤ (next c x).rest.length) : next c (x ++ q) = (next c x).extend q := by
  simp only [specials, List.mem_cons, List.not_mem_nil, or_false] at hc
  obtain rfl | rfl | rfl | rfl | hc := hc
  · exact quoted_extend (ne_nil_of_two_le h)
  · exact quoted_extend (ne_nil_of_two_le h)
  · exact hashLike_extend h
  · exact atLike_extend hpart h
  obtain rfl | rfl | rfl | rfl | rfl | rfl | rfl | rfl | rfl | hc := hc
  all_goals try rfl
  obtain rfl | rfl | rfl | rfl | rfl := hc <;> exact matcherLike_extend hpart h

/-- A lexeme stays what it is if the text goes on two characters behind it. -/
theorem next_extend (hpart : isPart (next c x).value) (h : 2 ≤ (next c x).rest.length)
    (hmarkup : x ≠ ['!', '-']) : next c (x ++ q) = (next c x).extend q := by
  have hx : 2 ≤ x.length := by
    have hlt := Piece.rest_length_lt (source_next c x) (raw_next_ne_nil c x)
    exact Nat.le_of_lt_succ (Nat.lt_of_le_of_lt h hlt)
  -- in the order in which the scanner tries them: blank, number, special character, sign, name
  by_cases hc : isSpace c
  · rw [next_blank hc] at h ⊢
    obtain ⟨htake, hdrop⟩ := takeWhile_extend (q := q) (ne_nil_of_two_le h)
    rw [next_blank hc, htake, hdrop]
    rfl
  by_cases hnumber : startsNumber (c :: x)
  · rw [next_number hc hnumber] at hpart h ⊢
    rw [next_number hc (by rwa [startsNumber_extend hx])]
    exact numeric_extend hpart h
  have hnumber' : ¬ startsNumber (c :: (x ++ q)) := by rwa [startsNumber_extend hx]
  by_cases hspecial : c ∈ specials
  · exact next_special_extend hspecial hpart h
  by_cases hsign : StartsSign c x
  · exact next_sign_extend hsign hpart h
  have hsign' : ¬ StartsSign c (x ++ q) := mt (startsSign_extend hx hmarkup) hsign
  have hcx : 2 ≤ (c :: x).length := Nat.le_succ_of_le hx
  have hstarts : startsName (c :: (x ++ q)) = startsName (c :: x) := startsName_extend hcx
  rw [next_other hc hnumber hspecial hsign] at hpart h ⊢
  rw [next_other hc hnumber' hspecial hsign', hstarts]
  split at hpart
  · next hname =>
    rw [if_pos hname] at h ⊢
    rw [if_pos hname]
    exact wordLike_extend hpart h
  · next hname =>
    rw [if_neg hname, if_neg hname]
    rfl

/-- The lexemes of a text are those of a longer one, up to the last two characters. -/
theorem ofText_extend {before : List (Lexeme × List Char)} (h : ofText x = before ++ ofText y)
    (hparts : ∀ l ∈ before, isPart l.1) (hy : 2 ≤ y.length) (hmarkup : y ≠ ['!', '-']) :
    ofText (x ++ q) = before ++ ofText (y ++ q) := by
  induction before generalizing x with
  | nil =>
    have hx := flatMap_raw_ofText x
    rw [h, List.nil_append, flatMap_raw_ofText] at hx
    rw [hx, List.nil_append]
  | cons l before ih =>
    obtain ⟨hpart, hparts'⟩ := List.forall_mem_cons.mp hparts
    cases x with
    | nil =>
      rw [ofText] at h
      cases h
    | cons c x =>
      rw [ofText_cons, List.cons_append] at h
      obtain ⟨rfl, hrest⟩ := List.cons.inj h
      have hsource : (next c x).rest = before.flatMap (·.2) ++ y := by
        rw [← flatMap_raw_ofText (next c x).rest, hrest, List.flatMap_append, flatMap_raw_ofText]
      have hlength : 2 ≤ (next c x).rest.length := by
        rw [hsource, List.length_append]
        exact Nat.le_add_left_of_le hy
      have hmarkup' : x ≠ ['!', '-'] := by
        rintro rfl
        obtain ⟨r, hr⟩ := exists_raw_next c ['!', '-']
        have hnext : (next c ['!', '-']).raw ++ (next c ['!', '-']).rest = c :: ['!', '-'] := source_next c _
        rw [hr, hsource, List.cons_append, ← List.append_assoc] at hnext
        exact hmarkup (List.IsSuffix.eq_of_length_le ⟨_, (List.cons.inj hnext).2⟩ hy)
      rw [List.cons_append, ofText_cons, next_extend hpart hlength hmarkup', Piece.extend, ih hrest hparts']
      rfl

end Lexeme

end MapStyle
