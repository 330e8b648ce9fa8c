import MapStyle.Proofs.Comments.Numbers

/-!
# Closed lexemes before an exchanged text

A string, an address or a comment that is closed stays what it is, whatever stands behind it.
-/

namespace MapStyle.Lexeme

variable {x y p q r u : List Char} {c : Char}

/-! ### Strings -/

section

variable {quote : Char} {cs : List Char}

lemma stringBody_quote : stringBody quote (quote :: cs) = ⟨(true, []), [quote], cs⟩ := by
  rw [stringBody, if_pos rfl]

lemma stringBody_newline (hquote : c ≠ quote) (hc : isNewline c) :
    stringBody quote (c :: cs) = ⟨(false, []), [], c :: cs⟩ := by
  rw [stringBody, if_neg hquote, if_pos hc]

lemma stringBody_continued (hquote : '\\' ≠ quote) (hcs : startsNewline cs) :
    stringBody quote ('\\' :: cs) =
      (stringBody quote (oneBlank cs).rest).after ('\\' :: (oneBlank cs).raw) := by
  have hne : cs.isEmpty = false := by
    cases cs with
    | nil => cases hcs
    | cons c cs => rfl
  rw [stringBody, if_neg hquote, if_neg (by decide), if_pos rfl, hne, if_neg Bool.false_ne_true,
    if_pos hcs]

lemma stringBody_escape (hquote : '\\' ≠ quote) (hne : cs ≠ []) (hcs : ¬ startsNewline cs) :
    stringBody quote ('\\' :: cs) = ((stringBody quote (escape cs).rest).map fun s =>
      (s.1, (escape cs).value :: s.2)).after ('\\' :: (escape cs).raw) := by
  rw [stringBody, if_neg hquote, if_neg (by decide), if_pos rfl,
    if_neg (by simpa [List.isEmpty_iff] using hne), if_neg hcs]

lemma stringBody_char (hquote : c ≠ quote) (hc : ¬ isNewline c) (hslash : c ≠ '\\') :
    stringBody quote (c :: cs) = ((stringBody quote cs).map fun s =>
      (s.1, (if c = '\x00' then replacement else c) :: s.2)).after [c] := by
  rw [stringBody, if_neg hquote, if_neg hc, if_neg hslash]

end

lemma raw_stringBody_ne_nil {quote : Char} (hp : p ≠ []) (hclosed : (stringBody quote p).value.1) :
    (stringBody quote p).raw ≠ [] := by
  obtain ⟨c, p, rfl⟩ := List.exists_cons_of_ne_nil hp
  by_cases hquote : c = quote
  · rw [hquote, stringBody_quote]
    exact List.cons_ne_nil _ _
  by_cases hnewline : isNewline c
  · rw [stringBody_newline hquote hnewline] at hclosed
    cases hclosed
  by_cases hslash : c = '\\'
  · subst hslash
    by_cases hne : p = []
    · rw [hne, stringBody, if_neg hquote, if_neg (by decide), if_pos rfl]
      exact List.cons_ne_nil _ _
    by_cases hcontinued : startsNewline p
    · rw [stringBody_continued hquote hcontinued]
      exact List.cons_ne_nil _ _
    · rw [stringBody_escape hquote hne hcontinued]
      exact List.cons_ne_nil _ _
  · rw [stringBody_char hquote hnewline hslash]
    exact List.cons_ne_nil _ _

/-- A closed string. -/
lemma stringBody_swap {x y p q : List Char} {quote : Char} (h : Swap x p q)
    (hclosed : (stringBody quote (x ++ p)).value.1) (hx : (stringBody quote (x ++ p)).raw ++ y = x) :
    stringBody quote (x ++ q) =
      ⟨(stringBody quote (x ++ p)).value, (stringBody quote (x ++ p)).raw, y ++ q⟩ := by
  match x with
  | [] => exact absurd (List.append_eq_nil_iff.mp hx).1 (raw_stringBody_ne_nil h.ne_nil hclosed)
  | c :: x =>
    rw [List.cons_append] at hx hclosed ⊢
    rw [List.cons_append]
    by_cases hquote : c = quote
    · subst hquote
      rw [stringBody_quote] at hx ⊢
      obtain rfl : y = x := (List.cons.inj hx).2
      rw [stringBody_quote]
    -- a line break would leave the string open
    by_cases hnewline : isNewline c
    · rw [stringBody_newline hquote hnewline] at hclosed
      cases hclosed
    -- a backslash continues the line or escapes what follows; both leave a shorter text
    by_cases hslash : c = '\\'
    · subst hslash
      have hne : x ++ p ≠ [] := fun hnil => h.ne_nil (List.append_eq_nil_iff.mp hnil).2
      by_cases hcontinued : startsNewline (x ++ p)
      · rw [stringBody_continued hquote hcontinued] at hx hclosed ⊢
        obtain ⟨z, hz, hx, hrest⟩ := Piece.exists_split (source_oneBlank _) (List.cons.inj hx).2
        have hxne : x ≠ [] := by
          rintro rfl
          exact raw_oneBlank_ne_nil hcontinued (List.append_eq_nil_iff.mp hx).1
        rw [hrest] at hz hclosed ⊢
        rw [startsNewline_append hxne p q] at hcontinued
        have hswap : Swap z p q := Swap.of_append (u := (oneBlank (x ++ p)).raw) (hx.symm ▸ h.of_cons)
        have hnil : x = [] → ∀ d ∈ q.head?, ¬ isSpace d := fun hnil => absurd hnil hxne
        rw [stringBody_continued hquote hcontinued, oneBlank_swap hnil h.head?_ne hx]
        dsimp only
        rw [stringBody_swap hswap hclosed hz]
        rfl
      · rw [stringBody_escape hquote hne hcontinued] at hx hclosed ⊢
        obtain ⟨z, hz, hlength, hxne, hswap, hrest, hescape⟩ := escape_split h (List.cons.inj hx).2
        have hne' : x ++ q ≠ [] := fun hnil => hxne (List.append_eq_nil_iff.mp hnil).1
        rw [hrest] at hz hclosed ⊢
        rw [startsNewline_append hxne p q] at hcontinued
        rw [stringBody_escape hquote hne' hcontinued, hescape]
        dsimp only
        rw [stringBody_swap hswap hclosed hz]
        rfl
    · rw [stringBody_char hquote hnewline hslash] at hx hclosed ⊢
      rw [stringBody_char hquote hnewline hslash,
        stringBody_swap h.of_cons hclosed (List.cons.inj hx).2]
      rfl
termination_by x.length
decreasing_by
  · exact Nat.lt_succ_of_le (List.IsSuffix.length_le ⟨_, hx⟩)
  · exact Nat.lt_succ_of_le hlength
  · exact Nat.lt_succ_self _

/-! ### Addresses -/

/-- An address that is not broken. -/
def Address.IsProper (a : Address) : Prop :=
  ∃ cs, a = .proper cs

lemma Address.isProper_of_cons {raw : List Char} {a : Address} (h : (cons raw c a).IsProper) :
    a.IsProper := by
  cases a with
  | proper cs => exact ⟨cs, rfl⟩
  | broken contents =>
    obtain ⟨cs, h⟩ := h
    cases h

section

variable {cs blanks : List Char}

lemma addressBody_close : addressBody (')' :: cs) = ⟨.proper [], [')'], cs⟩ := by
  rw [addressBody, if_pos rfl]

lemma addressBody_blank (hc : isSpace c) : addressBody (c :: cs) =
    (addressEnd (c :: cs.takeWhile isSpace) (cs.dropWhile isSpace)).after
      (c :: cs.takeWhile isSpace) := by
  have hne : c ≠ ')' := by
    rintro rfl
    cases hc
  rw [addressBody, if_neg hne, if_pos hc]

lemma addressBody_escape (hcs : ¬ startsNewline cs) : addressBody ('\\' :: cs) =
    ((addressBody (escape cs).rest).map
      (Address.cons ('\\' :: (escape cs).raw) (escape cs).value)).after ('\\' :: (escape cs).raw) := by
  rw [addressBody, if_neg (by decide), if_neg (by decide), if_neg (by decide), if_pos rfl, if_neg hcs]

/-- A character that stands for itself in an address. -/
structure IsAddressChar (c : Char) : Prop where
  not_close : c ≠ ')'
  not_blank : ¬ isSpace c
  allowed : ¬ (isUnprintable c || c = '"' || c = '\'' || c = '(')
  not_slash : c ≠ '\\'

lemma addressBody_char (hc : IsAddressChar c) : addressBody (c :: cs) = ((addressBody cs).map
    (Address.cons [c] (if c = '\x00' then replacement else c))).after [c] := by
  rw [addressBody, if_neg hc.not_close, if_neg hc.not_blank, if_neg hc.allowed, if_neg hc.not_slash]

lemma addressBody_cases (h : (addressBody (c :: cs)).value.IsProper) :
    c = ')' ∨ isSpace c ∨ (c = '\\' ∧ ¬ startsNewline cs) ∨ IsAddressChar c := by
  by_cases hclose : c = ')'
  · exact .inl hclose
  by_cases hblank : isSpace c
  · exact .inr (.inl hblank)
  have hbroken : ¬ (breakAddress (c :: cs)).value.IsProper := by
    rintro ⟨v, hv⟩
    cases hv
  rw [addressBody, if_neg hclose, if_neg hblank] at h
  by_cases hother : isUnprintable c || c = '"' || c = '\'' || c = '('
  · rw [if_pos hother] at h
    exact absurd h hbroken
  by_cases hslash : c = '\\'
  · rw [if_neg hother, if_pos hslash] at h
    by_cases hcs : startsNewline cs
    · rw [if_pos hcs] at h
      exact absurd h hbroken
    · exact .inr (.inr (.inl ⟨hslash, hcs⟩))
  · exact .inr (.inr (.inr ⟨hclose, hblank, hother, hslash⟩))

lemma addressEnd_cases (h : (addressEnd blanks cs).value.IsProper) :
    cs = [] ∨ ∃ ds, cs = ')' :: ds := by
  unfold addressEnd at h
  split at h
  · exact .inl rfl
  · exact .inr ⟨_, rfl⟩
  · next hne hclose =>
    obtain ⟨v, hv⟩ := h
    cases cs with
    | nil => exact .inl rfl
    | cons c cs => cases hv

lemma raw_addressBody_ne_nil (hp : p ≠ []) (h : (addressBody p).value.IsProper) :
    (addressBody p).raw ≠ [] := by
  obtain ⟨c, p, rfl⟩ := List.exists_cons_of_ne_nil hp
  obtain rfl | hc | ⟨rfl, hescape⟩ | hc := addressBody_cases h
  · rw [addressBody_close]
    exact List.cons_ne_nil _ _
  · rw [addressBody_blank hc]
    exact List.cons_ne_nil _ _
  · rw [addressBody_escape hescape]
    exact List.cons_ne_nil _ _
  · rw [addressBody_char hc]
    exact List.cons_ne_nil _ _

end

/-- A closed address. -/
lemma addressBody_swap {x y p q : List Char} (h : Swap x p q)
    (hproper : (addressBody (x ++ p)).value.IsProper) (hx : (addressBody (x ++ p)).raw ++ y = x) :
    addressBody (x ++ q) = ⟨(addressBody (x ++ p)).value, (addressBody (x ++ p)).raw, y ++ q⟩ := by
  match x with
  | [] => exact absurd (List.append_eq_nil_iff.mp hx).1 (raw_addressBody_ne_nil h.ne_nil hproper)
  | c :: x =>
    rw [List.cons_append] at hx hproper ⊢
    rw [List.cons_append]
    obtain rfl | hc | ⟨rfl, hescape⟩ | hc := addressBody_cases hproper
    · rw [addressBody_close] at hx ⊢
      obtain rfl : y = x := (List.cons.inj hx).2
      rw [addressBody_close]
    · rw [addressBody_blank hc] at hx hproper ⊢
      rw [addressBody_blank hc]
      have hsource := List.takeWhile_append_dropWhile (p := isSpace) (l := x ++ p)
      have hblanks : ∀ b ∈ (x ++ p).takeWhile isSpace, isSpace b :=
        List.all_eq_true.mp List.all_takeWhile
      generalize (x ++ p).takeWhile isSpace = blanks at hx hproper hsource hblanks ⊢
      -- behind blanks, a proper address ends with its parenthesis or with the text
      obtain hnil | ⟨ds, hclose⟩ := addressEnd_cases hproper
      · rw [hnil, List.append_nil] at hsource
        rw [hnil] at hx
        have hx : blanks ++ y = x := by simpa [addressEnd] using hx
        have hx := congrArg List.length hx
        have hp := List.length_pos_iff.mpr h.ne_nil
        rw [hsource, List.length_append, List.length_append] at hx
        omega
      · rw [hclose] at hx ⊢
        have hx : blanks ++ ')' :: y = x := by simpa [addressEnd] using hx
        obtain ⟨htake, hdrop⟩ := dropWhile_append_cons (c := ')') (x := y ++ q) hblanks (by decide)
        rw [← hx, List.append_assoc, List.cons_append, htake, hdrop]
        rfl
    · rw [addressBody_escape hescape] at hx hproper ⊢
      obtain ⟨z, hz, hlength, hne, hswap, hrest, heq⟩ := escape_split h (List.cons.inj hx).2
      rw [hrest] at hz hproper ⊢
      rw [startsNewline_append hne p q] at hescape
      rw [addressBody_escape hescape, heq]
      dsimp only
      rw [addressBody_swap hswap (Address.isProper_of_cons hproper) hz]
      rfl
    · rw [addressBody_char hc] at hx hproper ⊢
      rw [addressBody_char hc,
        addressBody_swap h.of_cons (Address.isProper_of_cons hproper) (List.cons.inj hx).2]
      rfl
termination_by x.length
decreasing_by
  · exact Nat.lt_succ_of_le hlength
  · exact Nat.lt_succ_self _

lemma address?_eq_some_iff {cs : List Char} {a : Piece Address} : address? cs = some a ↔
    (∀ c ∈ (cs.dropWhile isSpace).head?, c ≠ '"' ∧ c ≠ '\'') ∧
      a = (addressBody (cs.dropWhile isSpace)).after (cs.takeWhile isSpace) := by
  unfold address?
  dsimp only
  split
  · next heq => simp [heq]
  · next heq => simp [heq]
  · next hdouble hsingle =>
    have hquote : ∀ c ∈ (cs.dropWhile isSpace).head?, c ≠ '"' ∧ c ≠ '\'' := by
      intro c hc
      obtain ⟨ds, hds⟩ := List.head?_eq_some_iff.mp hc
      constructor
      · rintro rfl
        exact hdouble ds hds
      · rintro rfl
        exact hsingle ds hds
    rw [Option.some_inj]
    exact ⟨fun h => ⟨hquote, h.symm⟩, fun h => h.2.symm⟩

/-- A closed address behind blanks. -/
lemma address?_swap {a : Piece Address} (h : Swap x p q) (ha : address? (x ++ p) = some a)
    (hproper : a.value.IsProper) (hx : a.raw ++ y = x) :
    address? (x ++ q) = some ⟨a.value, a.raw, y ++ q⟩ := by
  -- blanks, then the body of the address, which is not empty as it is closed
  obtain ⟨hquote, rfl⟩ := address?_eq_some_iff.mp ha
  have hblanks : ∀ b ∈ (x ++ p).takeWhile isSpace, isSpace b :=
    List.all_eq_true.mp List.all_takeWhile
  have hsource := List.takeWhile_append_dropWhile (p := isSpace) (l := x ++ p)
  have hhead := List.head?_dropWhile_not isSpace (x ++ p)
  rw [Piece.raw_after, List.append_assoc] at hx
  generalize (x ++ p).takeWhile isSpace = blanks at hx hsource hblanks ⊢
  obtain ⟨z, hz⟩ : ∃ z, (addressBody ((x ++ p).dropWhile isSpace)).raw ++ y = z := ⟨_, rfl⟩
  rw [hz] at hx
  have hrest : (x ++ p).dropWhile isSpace = z ++ p := by
    refine List.append_cancel_left (hsource.trans ?_)
    rw [← hx, List.append_assoc]
  rw [hrest] at hz hquote hhead hproper ⊢
  have hne : z ++ p ≠ [] := fun hnil => h.ne_nil (List.append_eq_nil_iff.mp hnil).2
  cases z with
  | nil => exact absurd (List.append_eq_nil_iff.mp hz).1 (raw_addressBody_ne_nil hne hproper)
  | cons c z =>  -- the blanks end at the same character in either text
    have hc : ¬ isSpace c := by simpa using hhead
    have hswap : Swap (c :: z) p q := Swap.of_append (u := blanks) (hx.symm ▸ h)
    obtain ⟨htake, hdrop⟩ := dropWhile_append_cons (x := z ++ q) hblanks hc
    rw [address?_eq_some_iff, ← hx, List.append_assoc]
    rw [← List.cons_append] at htake hdrop
    rw [htake, hdrop]
    refine ⟨hquote, ?_⟩
    rw [addressBody_swap hswap hproper hz]
    rfl

/-! ### Comments -/

lemma commentBody_end {cs : List Char} : commentBody ('*' :: '/' :: cs) = ⟨(), ['*', '/'], cs⟩ := by
  rw [commentBody]

lemma commentBody_char {cs : List Char} (h : ∀ ds, c :: cs ≠ '*' :: '/' :: ds) :
    commentBody (c :: cs) = (commentBody cs).after [c] := by
  rw [commentBody.eq_def]
  split
  · next heq => cases heq
  · next heq => exact absurd heq (h _)
  · next heq =>
    cases heq
    rfl

lemma raw_commentBody_ne_nil (hp : p ≠ []) : (commentBody p).raw ≠ [] := by
  obtain ⟨c, p, rfl⟩ := List.exists_cons_of_ne_nil hp
  by_cases hend : ∃ ds, c :: p = '*' :: '/' :: ds
  · obtain ⟨ds, hds⟩ := hend
    rw [hds, commentBody_end]
    exact List.cons_ne_nil _ _
  · rw [commentBody_char fun ds hds => hend ⟨ds, hds⟩]
    exact List.cons_ne_nil _ _

/-- A closed comment. -/
lemma commentBody_swap {x y p q : List Char} (hp : p ≠ []) (hx : (commentBody (x ++ p)).raw ++ y = x) :
    commentBody (x ++ q) = ⟨(), (commentBody (x ++ p)).raw, y ++ q⟩ := by
  match x with
  | [] => exact absurd (List.append_eq_nil_iff.mp hx).1 (raw_commentBody_ne_nil hp)
  | c :: x =>
    by_cases hend : ∃ ds, c :: x ++ p = '*' :: '/' :: ds
    · obtain ⟨ds, hds⟩ := hend
      rw [hds, commentBody_end] at hx ⊢
      rw [← hx]
      exact commentBody_end
    · have hchar : commentBody (c :: x ++ p) = (commentBody (x ++ p)).after [c] :=
        commentBody_char fun ds hds => hend ⟨ds, hds⟩
      rw [hchar] at hx ⊢
      have hx := (List.cons.inj hx).2
      have hchar' : ∀ ds, c :: (x ++ q) ≠ '*' :: '/' :: ds := by
        intro ds hds
        cases x with
        | nil => exact raw_commentBody_ne_nil hp (List.append_eq_nil_iff.mp hx).1
        | cons d x =>
          simp only [List.cons_append, List.cons.injEq] at hds
          obtain ⟨rfl, rfl, rfl⟩ := hds
          exact hend ⟨_, rfl⟩
      rw [List.cons_append, commentBody_char hchar', commentBody_swap hp hx]
      rfl

end MapStyle.Lexeme
