import Mathlib
import MapStyle.Proofs.Comments.Lexemes
import MapStyle.Token.Basic

/-!
# Places in a text

The place behind some characters, in closed form: the lines that they end and the width of what stands
in the last line. Places can be counted lexeme by lexeme, because no lexeme ends between a carriage
return and a line feed.
-/

namespace MapStyle

open Lexeme

namespace Location

/-! ### The place behind some characters -/

/-- A text with each line break as a single line feed. -/
def unified : List Char → List Char
  | [] => []
  | '\r' :: '\n' :: cs => '\n' :: unified cs
  | c :: cs => (if isNewline c then '\n' else c) :: unified cs

/-- How wide a text is behind its last line feed. -/
def lineWidth (u : List Char) : Nat :=
  ((u.reverse.takeWhile (· ≠ '\n')).map width).sum

/-- The place behind a text: its line breaks and the width of its last line, each counted from one. -/
def behind (cs : List Char) : Location where
  line := (unified cs).count '\n' + 1
  column := lineWidth (unified cs) + 1

/-- Places are ordered by line and then by column. -/
def Before (l l' : Location) : Prop :=
  l.line < l'.line ∨ (l.line = l'.line ∧ l.column < l'.column)

section

variable {l l' l'' : Location} {c : Char} {u cs ds : List Char}

lemma unified_eq_nil_iff : unified cs = [] ↔ cs = [] := by
  constructor
  · fun_cases unified cs <;> simp
  · rintro rfl
    rfl

lemma lineWidth_newline : lineWidth ('\n' :: u) = lineWidth u := by
  unfold lineWidth
  rw [List.reverse_cons, List.takeWhile_append]
  split
  · next h =>
    rw [(List.takeWhile_prefix _).eq_of_length h]
    simp
  · rfl

lemma lineWidth_cons (hc : c ≠ '\n') :
    lineWidth (c :: u) = lineWidth u + if '\n' ∈ u then 0 else width c := by
  have hall : (u.reverse.takeWhile (· ≠ '\n')).length = u.reverse.length ↔ '\n' ∉ u := by
    constructor
    · intro h hmem
      have hself := (List.takeWhile_prefix _).eq_of_length h
      have := List.mem_takeWhile_imp (hself ▸ List.mem_reverse.mpr hmem)
      simp at this
    · intro hmem
      rw [List.takeWhile_eq_self_iff.mpr]
      intro x hx
      rw [decide_eq_true_iff]
      rintro rfl
      exact hmem (List.mem_reverse.mp hx)
  unfold lineWidth
  rw [List.reverse_cons, List.takeWhile_append]
  by_cases hmem : '\n' ∈ u
  · rw [if_neg (mt hall.mp (not_not_intro hmem)), if_pos hmem, Nat.add_zero]
  · have hself := (List.takeWhile_prefix _).eq_of_length (hall.mpr hmem)
    rw [if_pos (hall.mpr hmem), if_neg hmem, hself]
    simp [hc]

lemma advance_eq (l : Location) (cs : List Char) : l.advance cs =
    ⟨l.line + (unified cs).count '\n',
      (if '\n' ∈ unified cs then 1 else l.column) + lineWidth (unified cs)⟩ := by
  fun_induction advance l cs with
  | case1 => simp [unified, lineWidth]
  | case2 l cs ih =>
    rw [ih, unified, lineWidth_newline]
    simp
    omega
  | case3 l c cs hne hc ih =>
    have hunified : unified (c :: cs) = '\n' :: unified cs := by
      rw [unified.eq_3 _ _ hne, if_pos (by simpa [isNewline, or_assoc] using hc)]
    rw [ih, hunified, lineWidth_newline]
    simp
    omega
  | case4 l c cs hne hc ih =>
    have hc' : ¬ isNewline c := by simpa [isNewline, or_assoc] using hc
    have hfeed : c ≠ '\n' := by
      rintro rfl
      exact hc' rfl
    have hunified : unified (c :: cs) = c :: unified cs := by
      rw [unified.eq_3 _ _ hne, if_neg hc']
    rw [ih, hunified, lineWidth_cons hfeed, List.count_cons_of_ne hfeed]
    by_cases hmem : '\n' ∈ unified cs
    · simp [hmem]
    · simp [hmem, Ne.symm hfeed]
      omega

/-- The place that is reached from the start of a text. -/
theorem advance_start (cs : List Char) : advance {} cs = behind cs := by
  rw [advance_eq, behind]
  simp [Nat.add_comm]

lemma advance_cons (hne : ∀ ds, c = '\r' → cs = '\n' :: ds → False) (l : Location) :
    l.advance (c :: cs) = (l.advance [c]).advance cs := by
  rw [advance.eq_3 _ _ _ hne, advance.eq_3 _ _ _ (fun _ _ h => by cases h)]
  split <;> rfl

/-- Characters can be counted in two parts, unless a line break stands across the parts. -/
lemma advance_append (h : cs.getLast? = some '\r' → ds.head? ≠ some '\n') (l : Location) :
    l.advance (cs ++ ds) = (l.advance cs).advance ds := by
  fun_induction advance l cs with
  | case1 => rfl
  | case2 l cs ih =>
    exact ih fun hlast => h (by rw [List.getLast?_cons, List.getLast?_cons, hlast]; rfl)
  | case3 l c cs hne hc ih | case4 l c cs hne hc ih =>
    have hne' : ∀ es, c = '\r' → cs ++ ds = '\n' :: es → False := by
      intro es hcr hes
      cases cs with
      | nil => exact h (by rw [hcr]; rfl) (by rw [List.nil_append] at hes; rw [hes]; rfl)
      | cons d cs => exact hne cs hcr (by rw [(List.cons.inj hes).1])
    rw [List.cons_append, advance_cons hne', advance.eq_3 _ _ _ (fun _ _ h => by cases h)]
    simp only [hc, advance]
    exact ih fun hlast => h (by rw [List.getLast?_cons, hlast]; rfl)

lemma advance_behind (h : cs.getLast? = some '\r' → ds.head? ≠ some '\n') :
    (behind cs).advance ds = behind (cs ++ ds) := by
  rw [← advance_start, ← advance_start, advance_append h]

/-! ### The order of places -/

lemma Before.trans (h : Before l l') (h' : Before l' l'') : Before l l'' := by
  unfold Before at *
  omega

lemma width_pos (c : Char) : 0 < width c := by
  unfold width
  split <;> decide

/-- Any character takes a place further. -/
lemma before_advance (l : Location) (h : cs ≠ []) : Before l (l.advance cs) := by
  rw [advance_eq]
  cases hcount : (unified cs).count '\n' with
  | succ n => exact .inl (by simp)
  | zero =>
    have hmem : '\n' ∉ unified cs := List.count_eq_zero.mp hcount
    have hwidth : 0 < lineWidth (unified cs) := by
      cases hu : unified cs with
      | nil => exact absurd (unified_eq_nil_iff.mp hu) h
      | cons c u =>
        rw [hu, List.mem_cons, not_or] at hmem
        rw [lineWidth_cons (Ne.symm hmem.1), if_neg hmem.2]
        exact Nat.add_pos_right _ (width_pos c)
    rw [if_neg hmem]
    exact .inr ⟨rfl, Nat.lt_add_of_pos_right hwidth⟩

end

end Location

/-! ### The ends of lexemes -/

namespace Piece

variable {α β : Type} {p : Piece α} {pre : List Char}

/-- A piece of a text does not end between a carriage return and a line feed. -/
def IsWhole (p : Piece α) : Prop :=
  p.raw.getLast? = some '\r' → p.rest.head? ≠ some '\n'

lemma isWhole_of_getLast? (h : p.raw.getLast? ≠ some '\r') : p.IsWhole :=
  fun hlast => absurd hlast h

lemma isWhole_of_rest (h : p.rest = []) : p.IsWhole := by
  intro _ hhead
  rw [h] at hhead
  cases hhead

/-- Nor does it with characters in front of it that do not, either. -/
lemma IsWhole.after (h : p.IsWhole)
    (hpre : pre.getLast? = some '\r' → p.source.head? ≠ some '\n') : (p.after pre).IsWhole := by
  intro hlast
  rw [raw_after, List.getLast?_append] at hlast
  cases hraw : p.raw.getLast? with
  | none =>
    rw [hraw] at hlast
    have hnil : p.raw = [] := List.getLast?_eq_none_iff.mp hraw
    have hsource : p.source = p.rest := by rw [source, hnil, List.nil_append]
    exact hsource ▸ hpre hlast
  | some c =>
    rw [hraw] at hlast
    exact h (hraw.trans hlast)

/-- A piece behind another one that is whole. -/
lemma IsWhole.behind {first : Piece β} (hfirst : first.IsWhole) (h : p.IsWhole)
    (hsource : p.source = first.rest) : (p.after first.raw).IsWhole :=
  h.after (hsource ▸ hfirst)

end Piece

namespace Lexeme

variable {c quote : Char} {cs : List Char}

lemma isWhole_oneBlank (cs : List Char) : (oneBlank cs).IsWhole := by
  unfold oneBlank
  split
  · exact Piece.isWhole_of_getLast? (by simp)
  · next hne =>
    split
    · intro hlast hhead
      obtain ⟨ds, rfl⟩ := List.head?_eq_some_iff.mp hhead
      exact hne ds (Option.some_inj.mp hlast) rfl
    · exact Piece.isWhole_of_getLast? nofun
  · exact Piece.isWhole_of_rest rfl

lemma getLast?_ne_of_forall {cs : List Char} (h : ∀ d ∈ cs, d ≠ c) : cs.getLast? ≠ some c :=
  fun hlast => h c (List.mem_of_getLast? hlast) rfl

lemma isWhole_escape (h : ¬ startsNewline cs) : (escape cs).IsWhole := by
  cases cs with
  | nil => exact Piece.isWhole_of_rest rfl
  | cons c cs =>
    by_cases hc : isHexDigit c
    · rw [escape_hex hc]
      refine Piece.IsWhole.after (isWhole_oneBlank _) fun hlast => absurd hlast ?_
      refine getLast?_ne_of_forall fun d hd => ?_
      have hdigit := List.mem_of_mem_take hd
      rintro rfl
      exact absurd (List.all_eq_true.mp List.all_takeWhile _ hdigit) (by decide)
    · rw [escape_other hc]
      refine Piece.isWhole_of_getLast? fun hlast => h ?_
      obtain rfl : c = '\r' := Option.some_inj.mp hlast
      rfl

/-- A backslash and the escape behind it. -/
lemma isWhole_slash_escape (h : ¬ startsNewline cs) : ((escape cs).after ['\\']).IsWhole :=
  (isWhole_escape h).after fun hlast => by cases hlast

lemma isWhole_name (cs : List Char) : (name cs).IsWhole := by
  fun_induction name cs with
  | case1 => exact Piece.isWhole_of_rest rfl
  | case2 c cs hc ih =>
    refine Piece.IsWhole.after ih fun hlast => ?_
    obtain rfl : c = '\r' := Option.some_inj.mp hlast
    cases hc
  | case3 cs _ ih => exact Piece.IsWhole.after ih fun hlast => by cases hlast
  | case4 c cs _ _ hslash e ih =>
    obtain ⟨rfl, hnewline⟩ : c = '\\' ∧ ¬ startsNewline cs := by simpa using hslash
    exact (isWhole_slash_escape hnewline).behind ih (source_name _)
  | case5 => exact Piece.isWhole_of_getLast? (by simp)

/-! ### Closed lexemes -/

/-- A string that is not broken ends with its quote or with the text. -/
lemma stringBody_end (h : (stringBody quote cs).value.1) :
    (stringBody quote cs).rest = [] ∨ (stringBody quote cs).raw.getLast? = some quote := by
  fun_induction stringBody quote cs with
  | case1 => exact .inl rfl
  | case2 => exact .inr rfl
  | case3 => cases h
  | case4 => exact .inl rfl
  | case5 _ _ _ _ _ _ ih | case6 _ _ _ _ _ _ ih | case7 _ _ _ _ _ _ ih =>
    refine (ih h).imp_right fun hlast => ?_
    rw [Piece.raw_after, List.getLast?_append]
    simp [hlast]

/-- An address that is not broken ends with its parenthesis or with the text. -/
lemma addressBody_end (h : (addressBody cs).value.IsProper) :
    (addressBody cs).rest = [] ∨ (addressBody cs).raw.getLast? = some ')' := by
  have hbroken (cs : List Char) (hcs : cs ≠ []) : ¬ (breakAddress cs).value.IsProper := by
    obtain ⟨c, cs, rfl⟩ := List.exists_cons_of_ne_nil hcs
    rintro ⟨v, hv⟩
    cases hv
  fun_induction addressBody cs with
  | case1 => exact .inl rfl
  | case2 => exact .inr rfl
  | case3 c cs _ _ blanks =>
    obtain hnil | ⟨ds, hclose⟩ := addressEnd_cases h
    · rw [hnil]
      exact .inl rfl
    · rw [hclose]
      exact .inr (by simp [addressEnd])
  | case4 => exact absurd h (hbroken _ (List.cons_ne_nil _ _))
  | case5 => exact absurd h (hbroken _ (List.cons_ne_nil _ _))
  | case6 _ _ _ _ _ _ ih | case7 _ _ _ _ _ _ _ ih =>
    refine (ih (Address.isProper_of_cons h)).imp_right fun hlast => ?_
    rw [Piece.raw_after, List.getLast?_append]
    simp [hlast]

/-- A comment ends with its first end, or with the text if it has none. -/
lemma commentBody_cases (cs : List Char) :
    (∃ s, ¬ ['*', '/'] <:+: s ∧ (commentBody cs).raw = s ++ ['*', '/']) ∨
      ((commentBody cs).rest = [] ∧ ¬ ['*', '/'] <:+: (commentBody cs).raw) := by
  fun_induction commentBody cs with
  | case1 => exact .inr ⟨rfl, by simp⟩
  | case2 => exact .inl ⟨[], by simp, rfl⟩
  | case3 c cs hne ih =>
    -- the end of a comment cannot start with a character that does not start one here
    have hnot (s : List Char) (hs : s <+: cs) (h : ¬ ['*', '/'] <:+: s) : ¬ ['*', '/'] <:+: c :: s := by
      rw [List.infix_cons_iff]
      rintro (hstart | hinfix)
      · obtain ⟨rfl, hslash⟩ := List.cons_prefix_cons.mp hstart
        obtain ⟨ds, rfl⟩ := hslash.trans hs
        exact hne ds rfl rfl
      · exact h hinfix
    have hsource := source_commentBody cs
    obtain ⟨s, hs, hraw⟩ | ⟨hrest, hraw⟩ := ih
    · refine .inl ⟨c :: s, hnot s ?_ hs, by rw [Piece.raw_after, hraw]; rfl⟩
      rw [Piece.source, hraw, List.append_assoc] at hsource
      exact ⟨_, hsource⟩
    · refine .inr ⟨hrest, hnot _ ?_ hraw⟩
      exact ⟨_, hsource⟩

lemma isWhole_commentBody (cs : List Char) : (commentBody cs).IsWhole := by
  obtain ⟨s, -, hraw⟩ | ⟨hrest, -⟩ := commentBody_cases cs
  · exact Piece.isWhole_of_getLast? (by simp [hraw])
  · exact Piece.isWhole_of_rest hrest

/-! ### Numbers -/

lemma mem_raw_sign {d : Char} (h : d ∈ (sign cs).raw) : d ≠ '\r' := by
  unfold sign at h
  split at h
  · exact List.mem_singleton.mp h ▸ by decide
  · exact List.mem_singleton.mp h ▸ by decide
  · cases h

lemma mem_raw_digits {d : Char} (h : d ∈ (digits cs).raw) : d ≠ '\r' := by
  have hdigit : d.isDigit := List.all_eq_true.mp List.all_takeWhile d h
  rintro rfl
  cases hdigit

lemma mem_raw_fraction {d : Char} (h : d ∈ (fraction cs).raw) : d ≠ '\r' := by
  unfold fraction at h
  split at h
  · split at h
    · obtain rfl | h := List.mem_cons.mp h
      · decide
      · exact mem_raw_digits h
    · cases h
  · cases h

lemma mem_raw_exponent {d : Char} (h : d ∈ (exponent cs).raw) : d ≠ '\r' := by
  cases cs with
  | nil => cases h
  | cons c cs =>
    unfold exponent at h
    dsimp only at h
    split at h
    · next hc =>
      obtain rfl | h := List.mem_cons.mp h
      · rintro rfl
        simp at hc
      · exact (List.mem_append.mp h).elim mem_raw_sign mem_raw_digits
    · cases h

lemma mem_raw_writtenNumber {d : Char} (h : d ∈ (writtenNumber cs).raw) : d ≠ '\r' := by
  simp only [writtenNumber, List.mem_append] at h
  obtain ((h | h) | h) | h := h
  · exact mem_raw_sign h
  · exact mem_raw_digits h
  · exact mem_raw_fraction h
  · exact mem_raw_exponent h

lemma isWhole_writtenNumber (cs : List Char) : (writtenNumber cs).IsWhole :=
  Piece.isWhole_of_getLast? (getLast?_ne_of_forall fun _ => mem_raw_writtenNumber)

lemma isWhole_numeric (cs : List Char) : (numeric cs).IsWhole := by
  unfold numeric
  dsimp only
  split
  · exact Piece.isWhole_of_getLast? (by simp)
  · split
    · exact Piece.IsWhole.behind (isWhole_writtenNumber cs) (isWhole_name _) (source_name _)
    · exact isWhole_writtenNumber cs

/-! ### One lexeme -/

lemma isWhole_address? {a : Piece Address} (ha : address? cs = some a) (h : a.value.IsProper) :
    a.IsWhole := by
  obtain ⟨-, rfl⟩ := address?_eq_some_iff.mp ha
  obtain hrest | hlast := addressBody_end h
  · exact Piece.isWhole_of_rest hrest
  · refine Piece.isWhole_of_getLast? ?_
    rw [Piece.raw_after, List.getLast?_append]
    simp [hlast]

lemma isWhole_wordLike : isSound (wordLike cs).value → (wordLike cs).IsWhole := by
  have hstart : ((name cs).raw ++ ['(']).getLast? ≠ some '\r' := by simp
  unfold wordLike
  dsimp only
  split
  · split
    · split
      · next a ha =>
        intro h
        have hproper : a.value.IsProper := by
          obtain ⟨address, raw, rest⟩ := a
          cases address with
          | proper cs => exact ⟨cs, rfl⟩
          | broken contents => cases h
        exact (isWhole_address? ha hproper).after fun hlast => absurd hlast hstart
      · exact fun _ => Piece.isWhole_of_getLast? hstart
    · exact fun _ => Piece.isWhole_of_getLast? hstart
  · exact fun _ => isWhole_name cs

lemma isWhole_hashLike (cs : List Char) : (hashLike cs).IsWhole := by
  have hname : ((name cs).after ['#']).IsWhole := (isWhole_name cs).after fun hlast => by cases hlast
  unfold hashLike
  dsimp only
  split
  · exact hname
  · split
    · split
      · exact hname
      · exact Piece.isWhole_of_getLast? (by simp)
    · exact Piece.isWhole_of_getLast? (by simp)

lemma isWhole_atLike (cs : List Char) : (atLike cs).IsWhole := by
  have hname : ((name cs).after ['@']).IsWhole := (isWhole_name cs).after fun hlast => by cases hlast
  unfold atLike
  split
  · exact hname
  · exact Piece.isWhole_of_getLast? (by simp)

lemma isWhole_quoted (hquote : quote ≠ '\r') (h : isSound (quoted quote cs).value) :
    (quoted quote cs).IsWhole := by
  have hclosed : (stringBody quote cs).value.1 := by
    refine Bool.not_eq_false _ ▸ fun hfalse => ?_
    rw [quoted] at h
    simp [hfalse, isSound, Piece.after, Piece.map] at h
  refine Piece.IsWhole.after (p := (stringBody quote cs).map _) ?_
    fun hlast => absurd (Option.some_inj.mp hlast) hquote
  obtain hrest | hlast := stringBody_end hclosed
  · exact Piece.isWhole_of_rest hrest
  · exact Piece.isWhole_of_getLast? fun hcr => hquote (Option.some_inj.mp (hlast.symm.trans hcr))

lemma isWhole_matcherLike (hc : c ≠ '\r') (cs : List Char) : (matcherLike c cs).IsWhole := by
  unfold matcherLike
  split
  · exact Piece.isWhole_of_getLast? (by simp)
  · exact Piece.isWhole_of_getLast? (by simp [hc])

/-- No lexeme ends between a carriage return and a line feed. -/
theorem isWhole_next (c : Char) (cs : List Char) :
    isSound (next c cs).value → (next c cs).IsWhole := by
  unfold next
  split
  · intro _ _ hhead
    have hspace := List.head?_dropWhile_not isSpace cs
    change (cs.dropWhile isSpace).head? = some '\n' at hhead
    rw [hhead] at hspace
    exact absurd hspace (by decide)
  next hc =>
  have hreturn : c ≠ '\r' := by
    rintro rfl
    exact hc rfl
  split
  · exact fun _ => isWhole_numeric _
  split
  case h_1 => exact fun _ => Piece.IsWhole.after (isWhole_commentBody _) fun hlast => by cases hlast
  case h_4 | h_5 => exact isWhole_quoted (by decide)
  case h_6 => exact fun _ => isWhole_hashLike _
  case h_7 => exact fun _ => isWhole_atLike _
  case h_17 | h_18 | h_19 | h_20 | h_21 => exact fun _ => isWhole_matcherLike (by decide) _
  case h_22 =>
    split
    · exact isWhole_wordLike
    · exact fun _ => Piece.isWhole_of_getLast? (by simp [hreturn])
  all_goals exact fun _ => Piece.isWhole_of_getLast? (by simp)

end Lexeme

end MapStyle
