import MapStyle.Proofs.Comments.Names

/-!
# Numbers before an exchanged text

A number stays what it is if the text behind it is exchanged. Its parts are read one behind the other,
and each of them ends before the exchanged text or where it ended before.
-/

namespace MapStyle.Lexeme

variable {x y p q r u : List Char} {c : Char}

/-- Behind what a scanner reads, one text can be exchanged for another. -/
def Swaps {α : Type} (f : List Char → Piece α) (p q : List Char) : Prop :=
  ∀ x y, (f (x ++ p)).raw ++ y = x → f (x ++ q) = ⟨(f (x ++ p)).value, (f (x ++ p)).raw, y ++ q⟩

/-- One scanner behind another. -/
def seq {α β : Type} (f : List Char → Piece α) (g : List Char → Piece β) (cs : List Char) :
    Piece (α × β) :=
  ⟨((f cs).value, (g (f cs).rest).value), (f cs).raw ++ (g (f cs).rest).raw, (g (f cs).rest).rest⟩

section

variable {α β : Type} {f : List Char → Piece α} {g : List Char → Piece β}

lemma source_seq (hf : ∀ cs, (f cs).source = cs) (hg : ∀ cs, (g cs).source = cs) (cs : List Char) :
    (seq f g cs).source = cs := by
  have hrest : (f cs).raw ++ (f cs).rest = cs := hf cs
  have hrest' : (g (f cs).rest).raw ++ (g (f cs).rest).rest = (f cs).rest := hg _
  rw [seq, Piece.source_mk, List.append_assoc, hrest', hrest]

lemma Swaps.seq (hf : Swaps f p q) (hsource : ∀ cs, (f cs).source = cs) (hg : Swaps g p q) :
    Swaps (seq f g) p q := by
  intro x y hx
  obtain ⟨z, hz, hx, hrest⟩ := Piece.exists_split (hsource _) hx
  unfold Lexeme.seq
  rw [hrest] at hz ⊢
  rw [hf x z hx, hg z y hz]

lemma Swaps.map {γ : Type} (hf : Swaps f p q) (k : α → γ) : Swaps (fun cs => (f cs).map k) p q := by
  intro x y hx
  dsimp only
  rw [hf x y hx]
  rfl

end

lemma takeWhile_eq_nil_swap {f : Char → Bool} (hq : q.takeWhile f = [])
    (h : (x ++ p).takeWhile f = []) : (x ++ q).takeWhile f = [] := by
  cases x with
  | nil => exact hq
  | cons c x =>
    have hc : ¬ f c := fun hc => by
      rw [List.cons_append, List.takeWhile_cons_of_pos hc] at h
      cases h
    rw [List.cons_append, List.takeWhile_cons_of_neg hc]

lemma takeWhile_swap {f : Char → Bool} (hq : y = [] → q.takeWhile f = [])
    (hx : (x ++ p).takeWhile f ++ y = x) : (x ++ q).takeWhile f = (x ++ p).takeWhile f := by
  induction x with
  | nil =>
    obtain ⟨htake, hy⟩ := List.append_eq_nil_iff.mp hx
    exact (hq hy).trans htake.symm
  | cons c x ih =>
    by_cases hc : f c
    · simp only [List.cons_append, List.takeWhile_cons_of_pos hc, List.cons.injEq, true_and] at hx ⊢
      exact ih hx
    · simp only [List.cons_append, List.takeWhile_cons_of_neg hc]

lemma takeWhile_isDigit_of_isBreak (hq : isBreak q) : q.takeWhile Char.isDigit = [] := by
  cases q with
  | nil => rfl
  | cons c q =>
    have hc := of_isBreak (f := fun c => !c.isDigit) hq (by decide)
    exact List.takeWhile_cons_of_neg (by simpa using hc)

lemma digits_swap (hq : isBreak q) : Swaps digits p q := by
  intro x y hx
  have htake := takeWhile_swap (fun _ => takeWhile_isDigit_of_isBreak hq) hx
  exact Piece.eq_of_source (by rw [source_digits, ← List.append_assoc, hx]) htake htake

lemma sign_cons (c : Char) (cs : List Char) : sign (c :: cs) =
    if c = '+' ∨ c = '-' then ⟨some c, [c], cs⟩ else ⟨none, [], c :: cs⟩ := by
  unfold sign
  split
  · next heq =>
    cases heq
    rfl
  · next heq =>
    cases heq
    rfl
  · next hplus hminus =>
    have hc : ¬ (c = '+' ∨ c = '-') := by
      rintro (rfl | rfl)
      · exact hplus cs rfl
      · exact hminus cs rfl
    rw [if_neg hc]

lemma sign_eq_of_raw_eq_nil (h : (sign p).raw = []) : sign p = ⟨none, [], p⟩ := by
  cases p with
  | nil => rfl
  | cons c p =>
    rw [sign_cons] at h ⊢
    split at h
    · cases h
    · next hc => rw [if_neg hc]

lemma sign_of_isBreak (hq : isBreak q) : sign q = ⟨none, [], q⟩ := by
  cases q with
  | nil => rfl
  | cons c q =>
    have hc := of_isBreak (f := fun c => c != '+' && c != '-') hq (by decide)
    simp only [Bool.and_eq_true, bne_iff_ne] at hc
    rw [sign_cons, if_neg (not_or.mpr hc)]

lemma sign_swap (hq : isBreak q) : Swaps sign p q := by
  intro x y hx
  cases x with
  | nil =>
    obtain ⟨hraw, rfl⟩ := List.append_eq_nil_iff.mp hx
    rw [sign_eq_of_raw_eq_nil hraw]
    exact sign_of_isBreak hq
  | cons c x =>
    refine Piece.eq_of_source (by rw [source_sign, ← List.append_assoc, hx]) ?_ ?_
    all_goals
      simp only [List.cons_append, sign_cons]
      split <;> rfl

lemma fraction_digit (hc : c.isDigit) (cs : List Char) :
    fraction ('.' :: c :: cs) = (digits (c :: cs)).after ['.'] :=
  if_pos hc

lemma fraction_eq_nil {cs : List Char} (h : ∀ c ds, cs = '.' :: c :: ds → ¬ c.isDigit) :
    fraction cs = ⟨[], [], cs⟩ := by
  unfold fraction
  split
  · exact if_neg (h _ _ rfl)
  · rfl

lemma raw_digits_ne_nil (hc : c.isDigit) (cs : List Char) : (digits (c :: cs)).raw ≠ [] := by
  rw [digits, List.takeWhile_cons_of_pos hc]
  exact List.cons_ne_nil _ _

lemma fraction_swap (hq : isBreak q) : Swaps fraction p q := by
  intro x y hx
  -- a fraction has a point and a digit, which are both in front of the exchange
  by_cases hdigit : ∃ c ds, x ++ p = '.' :: c :: ds ∧ c.isDigit
  · obtain ⟨c, ds, hcs, hc⟩ := hdigit
    rw [hcs, fraction_digit hc, Piece.raw_after, List.singleton_append] at hx
    match x with
    | [] => cases hx
    | [d] => exact absurd (List.append_eq_nil_iff.mp (List.cons.inj hx).2).1 (raw_digits_ne_nil hc ds)
    | d :: e :: x =>
      simp only [List.cons_append, List.cons.injEq] at hcs
      obtain ⟨rfl, rfl, rfl⟩ := hcs
      have hdigits := digits_swap hq (e :: x) y (List.cons.inj hx).2
      simp only [List.cons_append] at hdigits ⊢
      rw [fraction_digit hc, fraction_digit hc, hdigits]
      rfl
  · -- without a fraction there: none comes from behind, where no digit is first
    have hno : fraction (x ++ p) = ⟨[], [], x ++ p⟩ :=
      fraction_eq_nil fun c ds hcs hc => hdigit ⟨c, ds, hcs, hc⟩
    rw [hno] at hx ⊢
    obtain rfl : y = x := hx
    refine fraction_eq_nil ?_
    intro c ds hcs hc
    match y with
    | [] =>
      subst hcs
      cases hq
    | [d] =>
      obtain ⟨rfl, rfl⟩ := List.cons.inj hcs
      have hc' := of_isBreak (f := fun c => !c.isDigit) hq (by decide)
      rw [hc] at hc'
      cases hc'
    | d :: e :: x =>
      simp only [List.cons_append, List.cons.injEq] at hcs
      obtain ⟨rfl, rfl, rfl⟩ := hcs
      exact hdigit ⟨_, _, rfl, hc⟩

/-- The sign of an exponent and the digits behind it. -/
def exponentDigits : List Char → Piece (Option Char × List Char) :=
  seq sign digits

lemma exponent_some {cs : List Char} (hc : c = 'e' ∨ c = 'E')
    (hne : (exponentDigits cs).value.2 ≠ []) : exponent (c :: cs) =
      ((exponentDigits cs).map fun v => some (v.1 == some '-', v.2)).after [c] := by
  rw [exponent]
  refine if_pos ?_
  simp only [exponentDigits, seq] at hne
  simp [hc, hne]

lemma exponent_none {cs : List Char} (h : c = 'e' ∨ c = 'E' → (exponentDigits cs).value.2 = []) :
    exponent (c :: cs) = ⟨none, [], c :: cs⟩ := by
  rw [exponent]
  refine if_neg ?_
  simp only [exponentDigits, seq] at h
  simpa using h

lemma exponentDigits_eq_nil_swap (hq : isBreak q) (h : (exponentDigits (x ++ p)).value.2 = []) :
    (exponentDigits (x ++ q)).value.2 = [] := by
  have htake := takeWhile_isDigit_of_isBreak hq
  simp only [exponentDigits, seq] at h ⊢
  cases x with
  | nil =>
    rw [List.nil_append, sign_of_isBreak hq]
    exact htake
  | cons c x =>
    rw [List.cons_append, sign_cons] at h ⊢
    split at h
    · next hc =>
      rw [if_pos hc]
      exact takeWhile_eq_nil_swap htake h
    · next hc =>
      rw [if_neg hc]
      exact takeWhile_eq_nil_swap (x := c :: x) htake h

lemma exponent_of_isBreak (hq : isBreak q) : exponent q = ⟨none, [], q⟩ := by
  cases q with
  | nil => rfl
  | cons c q =>
    have hc := of_isBreak (f := fun c => c != 'e' && c != 'E') hq (by decide)
    simp only [Bool.and_eq_true, bne_iff_ne] at hc
    exact exponent_none fun h => absurd h (not_or.mpr hc)

lemma exponent_eq_of_raw_eq_nil (h : (exponent p).raw = []) : exponent p = ⟨none, [], p⟩ := by
  cases p with
  | nil => rfl
  | cons c p =>
    by_cases hc : c = 'e' ∨ c = 'E' → (exponentDigits p).value.2 = []
    · exact exponent_none hc
    · obtain ⟨hc, hne⟩ := Classical.not_imp.mp hc
      rw [exponent_some hc hne] at h
      cases h

lemma exponent_swap (hq : isBreak q) : Swaps exponent p q := by
  intro x y hx
  cases x with
  | nil =>
    obtain ⟨hraw, rfl⟩ := List.append_eq_nil_iff.mp hx
    rw [exponent_eq_of_raw_eq_nil hraw]
    exact exponent_of_isBreak hq
  | cons c x =>
    rw [List.cons_append] at hx ⊢
    rw [List.cons_append]
    by_cases hc : c = 'e' ∨ c = 'E' → (exponentDigits (x ++ p)).value.2 = []
    · rw [exponent_none hc] at hx ⊢
      obtain rfl : y = c :: x := hx
      exact exponent_none fun h => exponentDigits_eq_nil_swap hq (hc h)
    · obtain ⟨hc, hne⟩ := Classical.not_imp.mp hc
      rw [exponent_some hc hne] at hx ⊢
      have hdigits := (sign_swap hq).seq source_sign (digits_swap hq) x y (List.cons.inj hx).2
      rw [exponent_some hc (by rw [exponentDigits, hdigits]; exact hne), exponentDigits, hdigits]
      rfl

lemma writtenNumber_swap (hq : isBreak q) : Swaps writtenNumber p q := by
  have hwhole := (sign_swap (p := p) hq).seq source_sign (digits_swap hq)
  have hfraction := hwhole.seq (source_seq source_sign source_digits) (fraction_swap hq)
  have hexponent := hfraction.seq
    (source_seq (source_seq source_sign source_digits) source_fraction) (exponent_swap hq)
  exact hexponent.map fun v => (⟨v.1.1.1, v.1.1.2, v.1.2, v.2⟩ : WrittenNumber)

lemma numeric_percent {cs rest : List Char} (h : (writtenNumber cs).rest = '%' :: rest) :
    numeric cs =
      ⟨percentage (writtenNumber cs).value, (writtenNumber cs).raw ++ ['%'], rest⟩ := by
  rw [numeric, h]
  rfl

lemma numeric_dimension {cs : List Char} (h : startsName (writtenNumber cs).rest) : numeric cs =
    ⟨dimension (writtenNumber cs).value (String.ofList (name (writtenNumber cs).rest).value),
      (writtenNumber cs).raw ++ (name (writtenNumber cs).rest).raw,
      (name (writtenNumber cs).rest).rest⟩ := by
  rw [numeric]
  dsimp only
  split
  · next hrest =>
    rw [hrest] at h
    cases h
  · rw [if_pos h]

lemma numeric_plain {cs : List Char} (hpercent : (writtenNumber cs).rest.head? ≠ some '%')
    (h : ¬ startsName (writtenNumber cs).rest) : numeric cs =
      ⟨number (writtenNumber cs).value, (writtenNumber cs).raw, (writtenNumber cs).rest⟩ := by
  rw [numeric]
  dsimp only
  split
  · next hrest =>
    rw [hrest] at hpercent
    exact absurd rfl hpercent
  · rw [if_neg h]

/-- A character that is not next in a text is not next in the other one. -/
lemma head?_swap (hq : isBreak q) (hc : c ∉ breaks)
    (h : (x ++ p).head? ≠ some c) : (x ++ q).head? ≠ some c := by
  cases x with
  | nil =>
    intro hhead
    obtain ⟨q, rfl⟩ := List.head?_eq_some_iff.mp hhead
    exact hc (mem_breaks hq)
  | cons d x => exact h

lemma numeric_swap (h : Swap x p q) (hx : (numeric (x ++ p)).raw ++ y = x) (hy : y ≠ ['\\']) :
    numeric (x ++ q) = ⟨(numeric (x ++ p)).value, (numeric (x ++ p)).raw, y ++ q⟩ := by
  by_cases hpercent : ∃ rest, (writtenNumber (x ++ p)).rest = '%' :: rest
  · obtain ⟨rest, hrest⟩ := hpercent
    rw [numeric_percent hrest] at hx ⊢
    have hx : (writtenNumber (x ++ p)).raw ++ '%' :: y = x := by simpa using hx
    have hnumber := writtenNumber_swap h.isBreak x _ hx
    rw [numeric_percent (by rw [hnumber]; rfl), hnumber]
    rfl
  by_cases hname : startsName (writtenNumber (x ++ p)).rest
  · rw [numeric_dimension hname] at hx ⊢
    obtain ⟨z, hz, hx, hrest⟩ := Piece.exists_split (source_writtenNumber _) hx
    have hnumber := writtenNumber_swap h.isBreak x z hx
    have hswap : Swap z p q := Swap.of_append (u := (writtenNumber (x ++ p)).raw) (hx.symm ▸ h)
    rw [hrest] at hz hname ⊢
    have hstarts := startsName_swap hswap hz hname
    rw [numeric_dimension (by rw [hnumber]; exact hstarts), hnumber]
    dsimp only
    rw [name_swap hswap hz hy]
  · have hhead : (writtenNumber (x ++ p)).rest.head? ≠ some '%' := by
      intro hhead
      exact hpercent (List.head?_eq_some_iff.mp hhead)
    rw [numeric_plain hhead hname] at hx ⊢
    have hnumber := writtenNumber_swap h.isBreak x y hx
    have hswap : Swap y p q := Swap.of_append (u := (writtenNumber (x ++ p)).raw) (hx.symm ▸ h)
    -- the number ends where it did: neither a percent sign nor a name comes to it
    rw [Piece.rest_eq (source_writtenNumber _) hx] at hhead hname
    have hhead' := head?_swap h.isBreak (by decide) hhead
    have hname' := not_startsName_swap hswap hy hname
    rw [numeric_plain (by rw [hnumber]; exact hhead') (by rw [hnumber]; exact hname'), hnumber]

end MapStyle.Lexeme
