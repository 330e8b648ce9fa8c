import MapStyle.Proofs.Comments.Quotes

/-!
# Places between lexemes

A lexeme stays what it is if the text behind it is exchanged for a comment and more, so that a comment
can be put between two lexemes without a change to the others.
-/

namespace MapStyle.Lexeme

variable {x y p q r u : List Char} {c : Char}

/-- Whether a lexeme is closed or needs no closing. -/
def isSound : Lexeme → Bool
  | brokenString _ | brokenUrl _ => false
  | _ => true

/-- Whether a lexeme is the start of `url(` with arguments. What stands behind it decides whether it is
read as an address instead. -/
def isUrlCall : Lexeme → Bool
  | function name => name.toLower == "url"
  | _ => false

/-- The lexeme of an address. -/
def ofAddress : Address → Lexeme
  | .proper value => url (String.ofList value)
  | .broken contents => brokenUrl (String.ofList contents)

section

variable {cs rest : List Char}

lemma wordLike_word (h : (name cs).rest.head? ≠ some '(') :
    wordLike cs = ⟨word (String.ofList (name cs).value), (name cs).raw, (name cs).rest⟩ := by
  rw [wordLike]
  dsimp only
  split
  · next hrest =>
    rw [hrest] at h
    exact absurd rfl h
  · rfl

lemma wordLike_function (hrest : (name cs).rest = '(' :: rest)
    (hurl : ¬ (String.ofList (name cs).value).toLower == "url") : wordLike cs =
      ⟨function (String.ofList (name cs).value), (name cs).raw ++ ['('], rest⟩ := by
  rw [wordLike, hrest]
  exact if_neg hurl

lemma wordLike_url {a : Piece Address} (hrest : (name cs).rest = '(' :: rest)
    (hurl : (String.ofList (name cs).value).toLower == "url") (ha : address? rest = some a) :
    wordLike cs = (a.map ofAddress).after ((name cs).raw ++ ['(']) := by
  rw [wordLike, hrest]
  refine (if_pos hurl).trans ?_
  rw [ha]
  rfl

lemma wordLike_arguments (hrest : (name cs).rest = '(' :: rest)
    (hurl : (String.ofList (name cs).value).toLower == "url") (ha : address? rest = none) :
    wordLike cs = ⟨function (String.ofList (name cs).value), (name cs).raw ++ ['('], rest⟩ := by
  rw [wordLike, hrest]
  refine (if_pos hurl).trans ?_
  rw [ha]

end

lemma address?_eq_none_iff {cs : List Char} : address? cs = none ↔
    ∃ c ∈ (cs.dropWhile isSpace).head?, c = '"' ∨ c = '\'' := by
  constructor
  · intro h
    refine Decidable.of_not_not fun hquote => ?_
    have hsome : address? cs = some ((addressBody (cs.dropWhile isSpace)).after
        (cs.takeWhile isSpace)) := by
      refine address?_eq_some_iff.mpr ⟨fun c hc => ?_, rfl⟩
      exact ⟨fun hc' => hquote ⟨c, hc, .inl hc'⟩, fun hc' => hquote ⟨c, hc, .inr hc'⟩⟩
    rw [h] at hsome
    cases hsome
  · rintro ⟨c, hc, hquote⟩
    refine Option.eq_none_iff_forall_ne_some.mpr fun a ha => ?_
    obtain ⟨hnot, -⟩ := address?_eq_some_iff.mp ha
    exact hquote.elim (hnot c hc).1 (hnot c hc).2

/-- What is visible in front of an exchanged text decides whether a quoted string follows. -/
lemma address?_eq_none_swap (hblank : (∀ c ∈ x, isSpace c) → address? p = none → address? q = none)
    (h : address? (x ++ p) = none) : address? (x ++ q) = none := by
  by_cases hx : ∀ c ∈ x, isSpace c
  · rw [address?_eq_none_iff, List.dropWhile_append_of_pos hx, ← address?_eq_none_iff] at h ⊢
    exact hblank hx h
  · have hdrop (s : List Char) : ((x ++ s).dropWhile isSpace).head? = (x.dropWhile isSpace).head? := by
      have hne : x.dropWhile isSpace ≠ [] := by
        intro hnil
        have hsource := List.takeWhile_append_dropWhile (p := isSpace) (l := x)
        rw [hnil, List.append_nil] at hsource
        exact hx (hsource ▸ List.all_eq_true.mp List.all_takeWhile)
      rw [List.dropWhile_append, if_neg (by simpa [List.isEmpty_iff] using hne)]
      obtain ⟨d, ds, hds⟩ := List.exists_cons_of_ne_nil hne
      rw [hds]
      rfl
    rw [address?_eq_none_iff, hdrop] at h ⊢
    exact h

lemma wordLike_swap (h : Swap x p q) (hsound : isSound (wordLike (x ++ p)).value)
    (hurl : isUrlCall (wordLike (x ++ p)).value → address? (y ++ p) = none → address? (y ++ q) = none)
    (hx : (wordLike (x ++ p)).raw ++ y = x) (hy : y ≠ ['\\']) :
    wordLike (x ++ q) = ⟨(wordLike (x ++ p)).value, (wordLike (x ++ p)).raw, y ++ q⟩ := by
  -- behind the name there is a parenthesis or not; `url(` may take an address
  by_cases hparen : (name (x ++ p)).rest.head? = some '('
  · obtain ⟨rest, hrest⟩ := List.head?_eq_some_iff.mp hparen
    by_cases hname : (String.ofList (name (x ++ p)).value).toLower == "url"
    · cases ha : address? rest with
      | none =>  -- nothing can be read as an address, and that stays so behind the swap
        rw [wordLike_arguments hrest hname ha] at hx hurl ⊢
        replace hx : (name (x ++ p)).raw ++ '(' :: y = x := by simpa using hx
        have hrest := hrest.symm.trans (Piece.rest_eq (source_name _) hx)
        obtain rfl : rest = y ++ p := (List.cons.inj hrest).2
        have ha := hurl hname ha
        have hswap := name_swap h hx (by simp)
        have hrest' : (name (x ++ q)).rest = '(' :: (y ++ q) := by rw [hswap]; rfl
        rw [wordLike_arguments hrest' (by rw [hswap]; exact hname) ha, hswap]
      | some a =>
        rw [wordLike_url hrest hname ha] at hx hsound ⊢
        -- the address is read to its end, so that the swap is behind it
        have hproper : a.value.IsProper := by
          obtain ⟨⟨v⟩ | _, raw, rest'⟩ := a
          · exact ⟨v, rfl⟩
          · cases hsound
        have hx : (name (x ++ p)).raw ++ '(' :: (a.raw ++ y) = x := by simpa using hx
        have hrest := hrest.symm.trans (Piece.rest_eq (source_name _) hx)
        obtain rfl : rest = a.raw ++ y ++ p := (List.cons.inj hrest).2
        have hpart : Swap (a.raw ++ y) p q :=
          Swap.of_append (u := (name (x ++ p)).raw ++ ['(']) (by simpa [hx] using h)
        have haddress := address?_swap hpart ha hproper rfl
        have hswap := name_swap h hx (by simp)
        have hrest' : (name (x ++ q)).rest = '(' :: (a.raw ++ y ++ q) := by rw [hswap]; rfl
        rw [wordLike_url hrest' (by rw [hswap]; exact hname) haddress, hswap]
        rfl
    · rw [wordLike_function hrest hname] at hx ⊢
      have hx : (name (x ++ p)).raw ++ '(' :: y = x := by simpa using hx
      have hswap := name_swap h hx (by simp)
      have hrest' : (name (x ++ q)).rest = '(' :: (y ++ q) := by rw [hswap]; rfl
      rw [wordLike_function hrest' (by rw [hswap]; exact hname), hswap]
  · rw [wordLike_word hparen] at hx ⊢
    have hswap := name_swap h hx hy
    rw [Piece.rest_eq (source_name _) hx] at hparen
    have hparen' := head?_swap h.isBreak (by decide) hparen
    rw [wordLike_word (by rw [hswap]; exact hparen'), hswap]

section

variable {cs : List Char}

lemma hashLike_name (h : startsName cs) : hashLike cs =
    ⟨idHash (String.ofList (name cs).value), '#' :: (name cs).raw, (name cs).rest⟩ := by
  unfold hashLike
  exact if_pos h

lemma hashLike_digit (h : ¬ startsName (c :: cs)) (hc : c.isDigit || c = '-') : hashLike (c :: cs) =
    ⟨hash (String.ofList (name (c :: cs)).value), '#' :: (name (c :: cs)).raw,
      (name (c :: cs)).rest⟩ := by
  unfold hashLike
  refine (if_neg h).trans ?_
  exact if_pos hc

lemma hashLike_alone (h : ¬ startsName cs) (hcs : ∀ c ∈ cs.head?, ¬ (c.isDigit || c = '-')) :
    hashLike cs = ⟨delimiter '#', ['#'], cs⟩ := by
  unfold hashLike
  refine (if_neg h).trans ?_
  cases cs with
  | nil => rfl
  | cons c cs => exact if_neg (hcs c rfl)

end

lemma hashLike_swap (h : Swap x p q) (hx : (hashLike (x ++ p)).raw ++ y = '#' :: x)
    (hy : y ≠ ['\\']) :
    hashLike (x ++ q) = ⟨(hashLike (x ++ p)).value, (hashLike (x ++ p)).raw, y ++ q⟩ := by
  -- a name behind the sign, then a digit or a minus sign, then the sign alone
  by_cases hname : startsName (x ++ p)
  · rw [hashLike_name hname] at hx ⊢
    have hx : (name (x ++ p)).raw ++ y = x := (List.cons.inj hx).2
    rw [hashLike_name (startsName_swap h hx hname), name_swap h hx hy]
  by_cases hdigit : ∃ c cs, x ++ p = c :: cs ∧ (c.isDigit || c = '-')
  · obtain ⟨c, cs, hcs, hc⟩ := hdigit
    have hchar : isNameChar c := by
      rw [Bool.or_eq_true, decide_eq_true_eq] at hc
      rcases hc with hc | rfl
      · simp [isNameChar, Char.isAlphanum, hc]
      · decide
    rw [hcs] at hname hx ⊢
    rw [hashLike_digit hname hc, ← hcs] at hx ⊢
    have hx : (name (x ++ p)).raw ++ y = x := (List.cons.inj hx).2
    cases x with
    | nil =>
      have hraw := (List.append_eq_nil_iff.mp hx).1
      rw [hcs, name_char hchar] at hraw
      cases hraw
    | cons d x =>
      obtain ⟨rfl, rfl⟩ := List.cons.inj hcs
      -- the name ends behind its digit, so no backslash is left alone there
      have hne : d :: x ≠ ['\\'] := by
        intro hd
        rw [(List.cons.inj hd).1] at hchar
        cases hchar
      have hname' := not_startsName_swap h hne hname
      rw [List.cons_append] at hname'
      rw [List.cons_append, hashLike_digit hname' hc, ← List.cons_append, name_swap h hx hy]
  · have halone : ∀ c ∈ (x ++ p).head?, ¬ (c.isDigit || c = '-') := by
      intro c hc hdash
      obtain ⟨cs, hcs⟩ := List.head?_eq_some_iff.mp hc
      exact hdigit ⟨c, cs, hcs, hdash⟩
    rw [hashLike_alone hname halone] at hx ⊢
    obtain rfl : y = x := (List.cons.inj hx).2
    -- what is behind the sign alone still starts no name and no number
    refine hashLike_alone (not_startsName_swap h hy hname) ?_
    cases y with
    | nil =>
      intro c hc
      obtain ⟨cs, rfl⟩ := List.head?_eq_some_iff.mp hc
      have hc := of_isBreak (f := fun c => !(c.isDigit || c = '-')) h.isBreak (by decide)
      simpa using hc
    | cons c y => exact halone

lemma atLike_swap (h : Swap x p q) (hx : (atLike (x ++ p)).raw ++ y = '@' :: x)
    (hy : y ≠ ['\\']) :
    atLike (x ++ q) = ⟨(atLike (x ++ p)).value, (atLike (x ++ p)).raw, y ++ q⟩ := by
  unfold atLike at hx ⊢
  by_cases hname : startsName (x ++ p)
  · rw [if_pos hname] at hx ⊢
    have hx : (name (x ++ p)).raw ++ y = x := (List.cons.inj hx).2
    rw [if_pos (startsName_swap h hx hname)]
    dsimp only
    rw [name_swap h hx hy]
  · rw [if_neg hname] at hx ⊢
    obtain rfl : y = x := (List.cons.inj hx).2
    rw [if_neg (not_startsName_swap h hy hname)]

lemma matcherLike_equals {cs : List Char} :
    matcherLike c ('=' :: cs) = ⟨matcher c, [c, '='], cs⟩ := rfl

lemma matcherLike_alone {cs : List Char} (h : cs.head? ≠ some '=') :
    matcherLike c cs = ⟨delimiter c, [c], cs⟩ := by
  unfold matcherLike
  split
  · exact absurd rfl h
  · rfl

lemma matcherLike_swap (h : Swap x p q) (hx : (matcherLike c (x ++ p)).raw ++ y = c :: x) :
    matcherLike c (x ++ q) =
      ⟨(matcherLike c (x ++ p)).value, (matcherLike c (x ++ p)).raw, y ++ q⟩ := by
  by_cases hequals : (x ++ p).head? = some '='
  · obtain ⟨cs, hcs⟩ := List.head?_eq_some_iff.mp hequals
    rw [hcs, matcherLike_equals] at hx ⊢
    rw [← (List.cons.inj hx).2]
    rfl
  · rw [matcherLike_alone hequals] at hx ⊢
    obtain rfl : y = x := (List.cons.inj hx).2
    exact matcherLike_alone (head?_swap h.isBreak (by decide) hequals)

lemma quoted_swap {quote : Char} (h : Swap x p q) (hsound : isSound (quoted quote (x ++ p)).value)
    (hx : (quoted quote (x ++ p)).raw ++ y = quote :: x) :
    quoted quote (x ++ q) =
      ⟨(quoted quote (x ++ p)).value, (quoted quote (x ++ p)).raw, y ++ q⟩ := by
  have hclosed : (stringBody quote (x ++ p)).value.1 := by
    refine Decidable.of_not_not fun hopen => ?_
    have hbroken : (quoted quote (x ++ p)).value =
        brokenString (String.ofList (stringBody quote (x ++ p)).value.2) := if_neg hopen
    rw [hbroken] at hsound
    cases hsound
  have hx : (stringBody quote (x ++ p)).raw ++ y = x := (List.cons.inj hx).2
  unfold quoted
  rw [stringBody_swap h hclosed hx]
  rfl

lemma startsDigits_cons {cs : List Char} (hc : c ≠ '.') : startsDigits (c :: cs) = c.isDigit := by
  unfold startsDigits
  split
  · next heq =>
    cases heq
    exact absurd rfl hc
  · next heq =>
    cases heq
    rfl
  · next heq => cases heq

lemma not_startsDigits_of_isBreak (hq : isBreak q) : ¬ startsDigits q := by
  cases q with
  | nil => exact Bool.false_ne_true
  | cons c q =>
    have hc := of_isBreak (f := fun c => c != '.' && !c.isDigit) hq (by decide)
    simp only [Bool.and_eq_true, bne_iff_ne, Bool.not_eq_true'] at hc
    rw [startsDigits_cons hc.1, hc.2]
    exact Bool.false_ne_true

lemma not_startsDigits_swap (hq : isBreak q) (h : ¬ startsDigits (x ++ p)) :
    ¬ startsDigits (x ++ q) := by
  match x with
  | [] => exact not_startsDigits_of_isBreak hq
  | [c] =>
    by_cases hc : c = '.'
    · subst hc
      cases q with
      | nil => exact Bool.false_ne_true
      | cons d q =>
        have hd := of_isBreak (f := fun c => !c.isDigit) hq (by decide)
        exact Bool.eq_false_iff.mp ((Bool.not_eq_true' _).mp hd)
    · rw [List.singleton_append, startsDigits_cons hc] at h ⊢
      exact h
  | c :: d :: x =>
    by_cases hc : c = '.'
    · subst hc
      exact h
    · rw [List.cons_append, startsDigits_cons hc] at h ⊢
      exact h

lemma startsNumber_cons (c : Char) (cs : List Char) : startsNumber (c :: cs) =
    if c = '+' ∨ c = '-' then startsDigits cs else startsDigits (c :: cs) := by
  unfold startsNumber
  split
  · next heq =>
    cases heq
    rfl
  · next heq =>
    cases heq
    rfl
  · next hplus hminus =>
    have hc : ¬ (c = '+' ∨ c = '-') := by
      rintro (rfl | rfl)
      · exact hplus cs rfl
      · exact hminus cs rfl
    rw [if_neg hc]

lemma not_startsNumber_swap (hq : isBreak q) (h : ¬ startsNumber (c :: x ++ p)) :
    ¬ startsNumber (c :: x ++ q) := by
  rw [List.cons_append, startsNumber_cons] at h ⊢
  split at h
  · next hc =>
    rw [if_pos hc]
    exact not_startsDigits_swap hq h
  · next hc =>
    rw [if_neg hc]
    exact not_startsDigits_swap (x := c :: x) hq h

/-- The digits and the fraction that were read still start a number. -/
lemma startsDigits_raw {cs : List Char} (h : startsDigits cs) (rest : List Char) :
    startsDigits ((digits cs).raw ++ ((fraction (digits cs).rest).raw ++ rest)) := by
  unfold startsDigits at h
  split at h
  · next c cs =>
    have hpoint : digits ('.' :: c :: cs) = ⟨[], [], '.' :: c :: cs⟩ := rfl
    rw [hpoint]
    dsimp only
    rw [fraction_digit h, Piece.raw_after, digits, List.takeWhile_cons_of_pos h]
    exact h
  · next c cs hne =>
    have hc : c ≠ '.' := by
      rintro rfl
      cases h
    rw [digits, List.takeWhile_cons_of_pos h, List.cons_append, startsDigits_cons hc]
    exact h
  · cases h

lemma startsNumber_of_startsDigits {cs : List Char} (h : startsDigits cs) : startsNumber cs := by
  cases cs with
  | nil => cases h
  | cons c cs =>
    rw [startsNumber_cons]
    split
    · next hc => rcases hc with rfl | rfl <;> cases h
    · exact h

lemma startsNumber_raw {cs : List Char} (h : startsNumber cs) (rest : List Char) :
    startsNumber ((writtenNumber cs).raw ++ rest) := by
  cases cs with
  | nil => cases h
  | cons c cs =>
    rw [startsNumber_cons] at h
    simp only [writtenNumber, sign_cons, List.append_assoc]
    split at h
    · next hc =>
      rw [if_pos hc, List.singleton_append, startsNumber_cons, if_pos hc]
      exact startsDigits_raw h _
    · next hc =>
      rw [if_neg hc, List.nil_append]
      exact startsNumber_of_startsDigits (startsDigits_raw h _)

lemma startsNumber_swap (hx : (writtenNumber (x ++ p)).raw ++ y = x) (h : startsNumber (x ++ p)) :
    startsNumber (x ++ q) := by
  rw [← hx, List.append_assoc]
  exact startsNumber_raw h _

/-- The characters that decide by themselves what kind of lexeme they start. -/
def specials : List Char :=
  ['"', '\'', '#', '@', '(', '[', '{', ')', ']', '}', ':', ';', ',', '~', '|', '^', '$', '*']

/-- A comment or a markup sign starts with a character and those behind it. -/
def StartsSign (c : Char) (cs : List Char) : Prop :=
  (c = '/' ∧ ['*'] <+: cs) ∨ (c = '<' ∧ ['!', '-', '-'] <+: cs) ∨ (c = '-' ∧ ['-', '>'] <+: cs)

section

variable {cs : List Char}

lemma next_blank (hc : isSpace c) :
    next c cs = ⟨blank, c :: cs.takeWhile isSpace, cs.dropWhile isSpace⟩ := by
  unfold next
  rw [if_pos hc]

lemma next_number (hc : ¬ isSpace c) (h : startsNumber (c :: cs)) : next c cs = numeric (c :: cs) := by
  unfold next
  rw [if_neg hc, if_pos h]

lemma next_other (hc : ¬ isSpace c) (hnumber : ¬ startsNumber (c :: cs)) (hspecial : c ∉ specials)
    (hsign : ¬ StartsSign c cs) :
    next c cs = if startsName (c :: cs) then wordLike (c :: cs) else ⟨delimiter c, [c], cs⟩ := by
  unfold next
  rw [if_neg hc, if_neg hnumber]
  simp only [specials, List.mem_cons, List.not_mem_nil, or_false, not_or] at hspecial
  split
  · exact absurd (.inl ⟨rfl, _, rfl⟩) hsign
  · exact absurd (.inr (.inl ⟨rfl, _, rfl⟩)) hsign
  · exact absurd (.inr (.inr ⟨rfl, _, rfl⟩)) hsign
  all_goals first | rfl | simp at hspecial

end

/-- Characters that end before an exchanged text do so before the other one. -/
lemma prefix_swap {w : List Char} (hq : isBreak q) (hw : ∀ c ∈ w, c ∉ breaks) (h : w <+: x ++ q) :
    w <+: x ++ p := by
  induction w generalizing x with
  | nil => exact List.nil_prefix
  | cons c w ih =>
    obtain ⟨hc, hw⟩ := List.forall_mem_cons.mp hw
    cases x with
    | nil =>
      obtain ⟨ds, rfl⟩ := h
      exact absurd (mem_breaks hq) hc
    | cons d x =>
      rw [List.cons_append, List.cons_prefix_cons] at h ⊢
      exact ⟨h.1, ih hw h.2⟩

lemma not_startsSign_swap (hq : isBreak q) (h : ¬ StartsSign c (x ++ p)) :
    ¬ StartsSign c (x ++ q) := by
  rintro (⟨rfl, hw⟩ | ⟨rfl, hw⟩ | ⟨rfl, hw⟩)
  · exact h (.inl ⟨rfl, prefix_swap hq (by simp [breaks]) hw⟩)
  · exact h (.inr (.inl ⟨rfl, prefix_swap hq (by simp [breaks]) hw⟩))
  · exact h (.inr (.inr ⟨rfl, prefix_swap hq (by simp [breaks]) hw⟩))

lemma next_sign_swap (h : Swap x p q) (hsign : StartsSign c (x ++ p))
    (hx : (next c (x ++ p)).raw ++ y = c :: x) :
    next c (x ++ q) = ⟨(next c (x ++ p)).value, (next c (x ++ p)).raw, y ++ q⟩ := by
  obtain ⟨rfl, ds, hds⟩ | ⟨rfl, ds, hds⟩ | ⟨rfl, ds, hds⟩ := hsign
  · cases x with
    | nil =>
      rw [← hds] at hx
      cases hx
    | cons d x =>
      obtain ⟨rfl, rfl⟩ := List.cons.inj hds
      have hx : (commentBody (x ++ p)).raw ++ y = x := (List.cons.inj (List.cons.inj hx).2).2
      have hnext (cs : List Char) : next '/' ('*' :: cs) =
          ((commentBody cs).map fun _ => comment).after ['/', '*'] := rfl
      rw [List.cons_append, hnext, commentBody_swap h.ne_nil hx]
      rfl
  · rw [← hds] at hx ⊢
    rw [← (List.cons.inj hx).2]
    rfl
  · rw [← hds] at hx ⊢
    rw [← (List.cons.inj hx).2]
    rfl

lemma next_special_swap (h : Swap x p q) (hc : c ∈ specials)
    (hsound : isSound (next c (x ++ p)).value) (hx : (next c (x ++ p)).raw ++ y = c :: x)
    (hy : y ≠ ['\\']) :
    next c (x ++ q) = ⟨(next c (x ++ p)).value, (next c (x ++ p)).raw, y ++ q⟩ := by
  simp only [specials, List.mem_cons, List.not_mem_nil, or_false] at hc
  obtain rfl | rfl | rfl | rfl | hc := hc
  · exact quoted_swap h hsound hx
  · exact quoted_swap h hsound hx
  · exact hashLike_swap h hx hy
  · exact atLike_swap h hx hy
  obtain rfl | rfl | rfl | rfl | rfl | rfl | rfl | rfl | rfl | hc := hc
  all_goals try
    obtain rfl : y = x := (List.cons.inj hx).2
    rfl
  obtain rfl | rfl | rfl | rfl | rfl := hc <;> exact matcherLike_swap h hx

lemma raw_name_prefix_raw_wordLike (cs : List Char) : (name cs).raw <+: (wordLike cs).raw := by
  unfold wordLike
  dsimp only
  split
  · split
    · split
      · rw [Piece.raw_after, List.append_assoc]
        exact List.prefix_append _ _
      · exact List.prefix_append _ _
    · exact List.prefix_append _ _
  · exact List.prefix_rfl

lemma raw_writtenNumber_prefix_raw_numeric (cs : List Char) :
    (writtenNumber cs).raw <+: (numeric cs).raw := by
  unfold numeric
  dsimp only
  split
  · exact List.prefix_append _ _
  · split
    · exact List.prefix_append _ _
    · exact List.prefix_rfl

lemma next_blank_swap (hblank : y = [] → q.takeWhile isSpace = []) (hc : isSpace c)
    (hx : (next c (x ++ p)).raw ++ y = c :: x) :
    next c (x ++ q) = ⟨(next c (x ++ p)).value, (next c (x ++ p)).raw, y ++ q⟩ := by
  rw [next_blank hc] at hx ⊢
  rw [next_blank hc]
  have hx : (x ++ p).takeWhile isSpace ++ y = x := (List.cons.inj hx).2
  have htake := takeWhile_swap hblank hx
  have hsource := List.takeWhile_append_dropWhile (p := isSpace) (l := x ++ q)
  have hdrop : (x ++ q).dropWhile isSpace = y ++ q := by
    refine List.append_cancel_left (hsource.trans ?_)
    rw [htake, ← List.append_assoc, hx]
  rw [htake, hdrop]

lemma next_number_swap (h : Swap (c :: x) p q) (hc : ¬ isSpace c)
    (hnumber : startsNumber (c :: x ++ p)) (hx : (next c (x ++ p)).raw ++ y = c :: x)
    (hy : y ≠ ['\\']) :
    next c (x ++ q) = ⟨(next c (x ++ p)).value, (next c (x ++ p)).raw, y ++ q⟩ := by
  obtain ⟨w, hw⟩ := raw_writtenNumber_prefix_raw_numeric (c :: x ++ p)
  have hnext : next c (x ++ p) = numeric (c :: x ++ p) := next_number hc hnumber
  rw [hnext] at hx ⊢
  have hnumber' : startsNumber (c :: x ++ q) :=
    startsNumber_swap (y := w ++ y) (by rw [← List.append_assoc, hw]; exact hx) hnumber
  exact (next_number hc hnumber').trans (numeric_swap h hx hy)

/-- A lexeme does not change if the text behind it is exchanged. -/
theorem next_swap (h : Swap (c :: x) p q) (hblank : isSpace c → y = [] → q.takeWhile isSpace = [])
    (hsound : isSound (next c (x ++ p)).value)
    (hurl : isUrlCall (next c (x ++ p)).value → address? (y ++ p) = none → address? (y ++ q) = none)
    (hx : (next c (x ++ p)).raw ++ y = c :: x) (hne : c :: x ≠ ['\\']) (hy : y ≠ ['\\']) :
    next c (x ++ q) = ⟨(next c (x ++ p)).value, (next c (x ++ p)).raw, y ++ q⟩ := by
  -- in the order in which the scanner tries them: blank, number, special character, sign, name
  by_cases hc : isSpace c
  · exact next_blank_swap (hblank hc) hc hx
  by_cases hnumber : startsNumber (c :: x ++ p)
  · exact next_number_swap h hc hnumber hx hy
  -- what was not there does not come to be by the exchange
  have hnumber' := not_startsNumber_swap h.isBreak hnumber
  rw [List.cons_append] at hnumber hnumber'
  by_cases hspecial : c ∈ specials
  · exact next_special_swap h.of_cons hspecial hsound hx hy
  by_cases hsign : StartsSign c (x ++ p)
  · exact next_sign_swap h.of_cons hsign hx
  have hsign' := not_startsSign_swap h.isBreak hsign
  rw [next_other hc hnumber hspecial hsign] at hx hsound hurl ⊢
  rw [next_other hc hnumber' hspecial hsign']
  by_cases hname : startsName (c :: x ++ p)
  · rw [List.cons_append] at hname
    rw [if_pos hname] at hx hsound hurl ⊢
    obtain ⟨w, hw⟩ := raw_name_prefix_raw_wordLike (c :: x ++ p)
    have hname' : startsName (c :: x ++ q) :=
      startsName_swap (y := w ++ y) h (by rw [← List.append_assoc, hw]; exact hx) hname
    rw [List.cons_append] at hname'
    rw [if_pos hname']
    exact wordLike_swap h hsound hurl hx hy
  · have hname' := not_startsName_swap h hne hname
    rw [List.cons_append] at hname hname'
    rw [if_neg hname] at hx ⊢
    rw [if_neg hname']
    obtain rfl : y = x := (List.cons.inj hx).2
    rfl

/-! ### The lexemes of a text -/

lemma ofText_cons (c : Char) (cs : List Char) :
    ofText (c :: cs) = ((next c cs).value, (next c cs).raw) :: ofText (next c cs).rest := by
  rw [ofText]

lemma exists_next_of_mem {cs : List Char} {l : Lexeme × List Char} (h : l ∈ ofText cs) :
    ∃ c ds, l = ((next c ds).value, (next c ds).raw) := by
  fun_induction ofText cs with
  | case1 => cases h
  | case2 c cs _ ih =>
    obtain h | h := List.mem_cons.mp h
    · exact ⟨c, cs, h⟩
    · exact ih h

lemma raw_ne_nil_of_mem {cs : List Char} {l : Lexeme × List Char} (h : l ∈ ofText cs) : l.2 ≠ [] := by
  obtain ⟨c, ds, rfl⟩ := exists_next_of_mem h
  exact raw_next_ne_nil c ds

lemma exists_raw_next (c : Char) (cs : List Char) : ∃ r, (next c cs).raw = c :: r := by
  obtain ⟨d, r, hr⟩ := List.exists_cons_of_ne_nil (raw_next_ne_nil c cs)
  have hsource : (next c cs).raw ++ (next c cs).rest = c :: cs := source_next c cs
  rw [hr] at hsource ⊢
  exact ⟨r, by rw [(List.cons.inj hsource).1]⟩

/-- A lexeme other than white space starts with no blank. -/
lemma raw_of_mem {cs : List Char} {l : Lexeme × List Char} (h : l ∈ ofText cs) (hne : l.1 ≠ blank) :
    ∃ c r, l.2 = c :: r ∧ ¬ isSpace c := by
  obtain ⟨c, ds, rfl⟩ := exists_next_of_mem h
  obtain ⟨r, hr⟩ := exists_raw_next c ds
  exact ⟨c, r, hr, fun hspace => hne (congrArg Piece.value (next_blank hspace))⟩

/-- The lexemes behind a place are those of the text behind it. -/
lemma ofText_flatMap {cs : List Char} {before after : List (Lexeme × List Char)}
    (h : ofText cs = before ++ after) : ofText (after.flatMap (·.2)) = after := by
  induction before generalizing cs with
  | nil =>
    rw [List.nil_append] at h
    rw [← h, flatMap_raw_ofText]
  | cons l before ih =>
    cases cs with
    | nil =>
      rw [ofText] at h
      cases h
    | cons c cs =>
      rw [ofText_cons] at h
      exact ih (List.cons.inj h).2

lemma ofText_behind {before after : List (Lexeme × List Char)} (h : ofText (x ++ p) = before ++ after)
    (hx : before.flatMap (·.2) = x) : ofText p = after := by
  have hsource := flatMap_raw_ofText (x ++ p)
  rw [h, List.flatMap_append, hx] at hsource
  rw [← List.append_cancel_left hsource]
  exact ofText_flatMap h

lemma eq_of_ofText {cs : List Char} {before : List (Lexeme × List Char)} {l : Lexeme × List Char}
    (h : ofText cs = before ++ l :: ofText p) : cs = before.flatMap (·.2) ++ l.2 ++ p := by
  rw [← flatMap_raw_ofText cs, h, List.flatMap_append, List.flatMap_cons, flatMap_raw_ofText,
    List.append_assoc]

/-- The lexemes in front of a place do not end with a backslash, which a line break follows, nor with
the start of `url(` and blanks. -/
structure Firm (before : List (Lexeme × List Char)) : Prop where
  not_backslash : ∀ l ∈ before.getLast?, l.2 ≠ ['\\']
  not_urlCall : ∀ l ∈ (before.filter (·.1 ≠ .blank)).getLast?, ¬ isUrlCall l.1

instance (before : List (Lexeme × List Char)) : Decidable (Firm before) :=
  decidable_of_iff ((∀ l ∈ before.getLast?, l.2 ≠ ['\\']) ∧
      ∀ l ∈ (before.filter (·.1 ≠ .blank)).getLast?, ¬ isUrlCall l.1)
    ⟨fun ⟨hslash, hurl⟩ => ⟨hslash, hurl⟩, fun h => ⟨h.not_backslash, h.not_urlCall⟩⟩

lemma forall_getLast?_of_cons {α : Type} {f : α → Prop} {a : α} {as : List α}
    (h : ∀ b ∈ (a :: as).getLast?, f b) : ∀ b ∈ as.getLast?, f b := by
  intro b hb
  refine h b ?_
  rw [List.getLast?_cons, Option.mem_def.mp hb]
  rfl

lemma flatMap_ne_backslash {ls : List (Lexeme × List Char)} (hne : ∀ l ∈ ls, l.2 ≠ [])
    (hlast : ∀ l ∈ ls.getLast?, l.2 ≠ ['\\']) : ls.flatMap (·.2) ≠ ['\\'] := by
  intro h
  obtain rfl | ⟨us, l, rfl⟩ := List.eq_nil_or_concat ls
  · cases h
  · rw [List.concat_eq_append] at hne hlast h
    rw [List.flatMap_append, List.flatMap_singleton, List.append_eq_singleton_iff] at h
    obtain ⟨-, hl⟩ | ⟨-, hl⟩ := h
    · exact hlast l (by simp) hl
    · exact hne l (by simp) hl

/-- The text behind a place can be exchanged, if it does not change what `url(` in front of it starts
and no white space goes on with it. -/
lemma ofText_swap {before after : List (Lexeme × List Char)} (h : ofText (x ++ p) = before ++ after)
    (hx : before.flatMap (·.2) = x) (hswap : Swap x p q)
    (hblank : (∀ l ∈ before.getLast?, l.1 ≠ .blank) ∨ q.takeWhile isSpace = [])
    (hsound : ∀ l ∈ before, isSound l.1) (hslash : ∀ l ∈ before.getLast?, l.2 ≠ ['\\'])
    (hurl : ∀ l ∈ (before.filter (·.1 ≠ .blank)).getLast?,
      isUrlCall l.1 → address? p = none → address? q = none) :
    ofText (x ++ q) = before ++ ofText q := by
  induction before generalizing x with
  | nil =>
    subst hx
    rfl
  | cons l before ih =>
    have hmem : ∀ m ∈ l :: before, m ∈ ofText (x ++ p) := fun m hm =>
      h ▸ List.mem_append_left after hm
    have hraw : ∀ m ∈ l :: before, m.2 ≠ [] := fun m hm => raw_ne_nil_of_mem (hmem m hm)
    obtain ⟨hraw_l, hraw_before⟩ := List.forall_mem_cons.mp hraw
    have hslash' := forall_getLast?_of_cons hslash
    have hxne : x ≠ ['\\'] := hx ▸ flatMap_ne_backslash hraw hslash
    have hy := flatMap_ne_backslash hraw_before hslash'
    have hurl' : ∀ m ∈ (before.filter (·.1 ≠ .blank)).getLast?,
        isUrlCall m.1 → address? p = none → address? q = none := by
      rw [List.filter_cons] at hurl
      split at hurl
      · exact forall_getLast?_of_cons hurl
      · exact hurl
    rw [List.flatMap_cons] at hx
    cases x with
    | nil => exact absurd (List.append_eq_nil_iff.mp hx).1 hraw_l
    | cons c x =>
      rw [List.cons_append, ofText_cons, List.cons_append] at h
      obtain ⟨rfl, hrest⟩ := List.cons.inj h
      have hpiece := Piece.rest_eq (x := c :: x) (p := p) (source_next c (x ++ p)) hx
      rw [hpiece] at hrest
      have hnext := next_swap hswap (fun hspace hnil => ?_) (hsound _ List.mem_cons_self)
        (fun hcall => address?_eq_none_swap fun hspaces => ?_) hx hxne hy
      · have hswap' : Swap (before.flatMap (·.2)) p q :=
          Swap.of_append (u := (next c (x ++ p)).raw) (hx.symm ▸ hswap)
        rw [List.cons_append, ofText_cons, hnext]
        dsimp only
        rw [ih hrest rfl hswap' (hblank.imp_left forall_getLast?_of_cons)
          (fun m hm => hsound m (List.mem_cons_of_mem _ hm)) hslash' hurl']
        rfl
      · have hlast : before = [] := List.eq_nil_iff_forall_not_mem.mpr fun m hm =>
          hraw_before m hm (List.flatMap_eq_nil_iff.mp hnil m hm)
        subst hlast
        exact hblank.resolve_left fun hne => hne _ rfl (congrArg Piece.value (next_blank hspace))
      -- if nothing visible stays behind `url(`, then it is the last lexeme that is not white space
      · have hfilter : before.filter (·.1 ≠ .blank) = [] := by
          refine List.filter_eq_nil_iff.mpr fun m hm hne => ?_
          obtain ⟨d, r, hd, hspace⟩ := raw_of_mem (hmem m (List.mem_cons_of_mem _ hm))
            (of_decide_eq_true hne)
          exact hspace (hspaces d (List.mem_flatMap.mpr ⟨m, hm, hd ▸ List.mem_cons_self⟩))
        have hne : (next c (x ++ p)).value ≠ .blank := by
          intro heq
          rw [heq] at hcall
          cases hcall
        refine hurl ((next c (x ++ p)).value, (next c (x ++ p)).raw) ?_ hcall
        rw [List.filter_cons_of_pos (by simpa using hne), hfilter]
        rfl

/-! ### A comment between lexemes -/

lemma commentBody_append {s : List Char} (h : ¬ ['*', '/'] <:+: s) (cs : List Char) :
    commentBody (s ++ '*' :: '/' :: cs) = ⟨(), s ++ ['*', '/'], cs⟩ := by
  induction s with
  | nil => exact commentBody_end
  | cons c s ih =>
    have hs : ¬ ['*', '/'] <:+: s := fun hinfix => h (List.infix_cons hinfix)
    have hchar : ∀ ds, c :: (s ++ '*' :: '/' :: cs) ≠ '*' :: '/' :: ds := by
      intro ds hds
      cases s with
      | nil => exact absurd (List.cons.inj (List.cons.inj hds).2).1 (by decide)
      | cons d s =>
        simp only [List.cons_append, List.cons.injEq] at hds
        obtain ⟨rfl, rfl, -⟩ := hds
        exact h ⟨[], s, rfl⟩
    rw [List.cons_append, commentBody_char hchar, ih hs]
    rfl

/-- A comment with a given text. -/
def ofComment (s : List Char) : List Char :=
  '/' :: '*' :: (s ++ ['*', '/'])

lemma ofText_comment {s : List Char} (h : ¬ ['*', '/'] <:+: s) (cs : List Char) :
    ofText (ofComment s ++ cs) = (.comment, ofComment s) :: ofText cs := by
  have hsplit : ofComment s ++ cs = '/' :: '*' :: (s ++ '*' :: '/' :: cs) := by simp [ofComment]
  have hnext : next '/' ('*' :: (s ++ '*' :: '/' :: cs)) = ⟨.comment, ofComment s, cs⟩ := by
    have hbody := commentBody_append h cs
    change ((commentBody _).map fun _ => comment).after ['/', '*'] = _
    rw [hbody]
    rfl
  rw [hsplit, ofText_of_next hnext]

/-- A comment between two lexemes changes none of the others. -/
theorem ofText_insert {before after : List (Lexeme × List Char)} {s : List Char}
    (h : ofText (x ++ p) = before ++ after) (hx : before.flatMap (·.2) = x) (hp : p ≠ [])
    (hsound : ∀ l ∈ before, isSound l.1) (hfirm : Firm before) (hlone : ¬ isLone p)
    (hs : ¬ ['*', '/'] <:+: s) :
    ofText (x ++ (ofComment s ++ p)) = before ++ (.comment, ofComment s) :: after := by
  have hswap : Swap x p (ofComment s ++ p) := by
    refine ⟨hp, hlone, rfl, fun c hc hspace => ?_⟩
    cases hc
    cases hspace
  rw [ofText_swap h hx hswap (.inr rfl) hsound hfirm.not_backslash
      fun l hl hurl => absurd hurl (hfirm.not_urlCall l hl),
    ofText_comment hs, ofText_behind h hx]

/-! ### White space, comments and closers -/

/-- Whether a lexeme is white space, a comment or a closer, which the scanners of words, numbers and
strings do not read. -/
def isMark : Lexeme → Bool
  | blank | comment | closer _ => true
  | _ => false

section

variable {c : Char} {cs : List Char} {b : Bracket}

lemma not_isMark_numeric (cs : List Char) : ¬ isMark (numeric cs).value := by
  unfold numeric
  dsimp only
  split
  · nofun
  · split <;> nofun

lemma not_isMark_wordLike (cs : List Char) : ¬ isMark (wordLike cs).value := by
  unfold wordLike
  dsimp only
  split
  · split
    · split
      · next a _ =>
        obtain ⟨address, raw, rest⟩ := a
        cases address <;> nofun
      · nofun
    · nofun
  · nofun

lemma not_isMark_hashLike (cs : List Char) : ¬ isMark (hashLike cs).value := by
  unfold hashLike
  dsimp only
  split
  · nofun
  · split
    · split <;> nofun
    · nofun

lemma not_isMark_atLike (cs : List Char) : ¬ isMark (atLike cs).value := by
  unfold atLike
  split <;> nofun

lemma not_isMark_quoted (quote : Char) (cs : List Char) : ¬ isMark (quoted quote cs).value := by
  unfold quoted
  obtain ⟨⟨closed, value⟩, raw, rest⟩ := stringBody quote cs
  cases closed <;> nofun

lemma not_isMark_matcherLike (c : Char) (cs : List Char) : ¬ isMark (matcherLike c cs).value := by
  unfold matcherLike
  split <;> nofun

/-- A comment starts with its two characters, and a closer is written as the one that it is. -/
lemma next_of_isMark : isMark (next c cs).value →
    (isSpace c ∧ (next c cs).value = blank) ∨
    (∃ rest, c = '/' ∧ cs = '*' :: rest ∧
      next c cs = ((commentBody rest).map fun _ => comment).after ['/', '*']) ∨
    ∃ b : Bracket, next c cs = ⟨closer b, [b.closer], cs⟩ := by
  unfold next
  split
  · next hspace => exact fun _ => .inl ⟨hspace, rfl⟩
  split
  · exact fun h => absurd h (not_isMark_numeric _)
  split
  case h_1 => exact fun _ => .inr (.inl ⟨_, rfl, rfl, rfl⟩)
  case h_4 | h_5 => exact fun h => absurd h (not_isMark_quoted _ _)
  case h_6 => exact fun h => absurd h (not_isMark_hashLike _)
  case h_7 => exact fun h => absurd h (not_isMark_atLike _)
  case h_11 => exact fun _ => .inr (.inr ⟨.paren, rfl⟩)
  case h_12 => exact fun _ => .inr (.inr ⟨.square, rfl⟩)
  case h_13 => exact fun _ => .inr (.inr ⟨.curly, rfl⟩)
  case h_17 | h_18 | h_19 | h_20 | h_21 => exact fun h => absurd h (not_isMark_matcherLike _ _)
  case h_22 =>
    split
    · exact fun h => absurd h (not_isMark_wordLike _)
    · nofun
  all_goals nofun

lemma isSpace_of_next (h : (next c cs).value = blank) : isSpace c := by
  obtain ⟨hspace, -⟩ | ⟨rest, -, -, hnext⟩ | ⟨b, hnext⟩ := next_of_isMark (by rw [h]; rfl)
  · exact hspace
  · rw [hnext] at h
    cases h
  · rw [hnext] at h
    cases h

lemma next_closer (h : (next c cs).value = closer b) : next c cs = ⟨closer b, [b.closer], cs⟩ := by
  obtain ⟨-, hblank⟩ | ⟨rest, -, -, hnext⟩ | ⟨b', hnext⟩ := next_of_isMark (by rw [h]; rfl)
  · rw [h] at hblank
    cases hblank
  · rw [hnext] at h
    cases h
  · rw [hnext] at h ⊢
    cases h
    rfl

lemma next_comment (h : (next c cs).value = comment) : ∃ rest, c = '/' ∧ cs = '*' :: rest ∧
    next c cs = ((commentBody rest).map fun _ => comment).after ['/', '*'] := by
  obtain ⟨-, hblank⟩ | hcomment | ⟨b, hnext⟩ := next_of_isMark (by rw [h]; rfl)
  · rw [h] at hblank
    cases hblank
  · exact hcomment
  · rw [hnext] at h
    cases h

lemma raw_of_closer_mem {w : List Char} (h : (closer b, w) ∈ ofText cs) : w = [b.closer] := by
  obtain ⟨c, ds, hl⟩ := exists_next_of_mem h
  obtain ⟨hvalue, rfl⟩ := Prod.mk.inj hl
  exact congrArg Piece.raw (next_closer hvalue.symm)

lemma raw_of_comment_mem {w : List Char} (h : (comment, w) ∈ ofText cs) : ∃ r, w = '/' :: r := by
  obtain ⟨c, ds, hl⟩ := exists_next_of_mem h
  obtain ⟨hvalue, rfl⟩ := Prod.mk.inj hl
  obtain ⟨rest, -, -, hnext⟩ := next_comment hvalue.symm
  exact ⟨_, by rw [hnext]; rfl⟩

lemma raw_of_blank_mem {w : List Char} (h : (blank, w) ∈ ofText cs) : w ≠ [] ∧ ∀ d ∈ w, isSpace d := by
  obtain ⟨c, ds, hl⟩ := exists_next_of_mem h
  obtain ⟨hvalue, rfl⟩ := Prod.mk.inj hl
  have hspace : isSpace c := isSpace_of_next hvalue.symm
  rw [next_blank hspace]
  exact ⟨List.cons_ne_nil _ _, List.forall_mem_cons.mpr ⟨hspace, List.all_eq_true.mp List.all_takeWhile⟩⟩

end

end MapStyle.Lexeme
