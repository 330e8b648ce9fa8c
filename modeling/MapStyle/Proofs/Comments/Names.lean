import Mathlib.Tactic.Lemma
import MapStyle.Proofs.Printing.Spelling

/-!
# Names before an exchanged text

The text behind a lexeme can be exchanged for one that starts with a comment, a blank or a closing
parenthesis, and the lexeme stays what it is. Here this is stated for escapes and names. The characters
that stay are split into those that are read and those up to the exchanged text.
-/

namespace MapStyle

namespace Piece

variable {α : Type} {piece : Piece α} {x y p q r : List Char} {v : α}

/-- A piece is known from its value and from the characters that it took. -/
lemma eq_of_source (hsource : piece.source = r ++ q) (hvalue : piece.value = v)
    (hraw : piece.raw = r) : piece = ⟨v, r, q⟩ := by
  obtain ⟨value, raw, rest⟩ := piece
  cases hvalue
  cases hraw
  rw [← List.append_cancel_left hsource]

/-- What is behind a piece that took the first characters of a text. -/
lemma rest_eq (hsource : piece.source = x ++ p) (h : piece.raw ++ y = x) : piece.rest = y ++ p := by
  rw [← h, List.append_assoc] at hsource
  exact List.append_cancel_left hsource

/-- What stands behind a piece, up to the end of the characters that another piece takes, too. -/
lemma exists_split {w : List Char} (hsource : piece.source = x ++ p) (h : piece.raw ++ w ++ y = x) :
    ∃ z, w ++ y = z ∧ piece.raw ++ z = x ∧ piece.rest = z ++ p := by
  rw [List.append_assoc] at h
  exact ⟨_, rfl, h, rest_eq hsource h⟩

end Piece

namespace Lexeme

/-- A text before which a lexeme ends that is neither quoted nor a comment. -/
def isBreak : List Char → Bool
  | [] => true
  | c :: _ => isSpace c || c == '/' || c == ')'

/-- The characters that such a text starts with. -/
def breaks : List Char :=
  [' ', '\t', '\n', '\r', '\x0c', '/', ')']

/-- Whether a text starts with a backslash that is no escape. -/
def isLone : List Char → Bool
  | '\\' :: cs => startsNewline cs
  | _ => false

/-- Whether some characters end with up to six hexadecimal digits behind a backslash. As the end of a
lexeme they are an escape that a blank behind them belongs to. -/
def endsHex (x : List Char) : Bool :=
  let digits := x.reverse.takeWhile isHexDigit
  !digits.isEmpty && digits.length ≤ 6 && (x.reverse.dropWhile isHexDigit).head? == some '\\'

/-- Behind some characters stands a text for which another one can be exchanged. A blank that the other
text starts with must not become part of an escape. -/
structure Swap (x p q : List Char) : Prop where
  ne_nil : p ≠ []
  not_isLone : ¬ isLone p
  isBreak : isBreak q
  blank : ∀ c ∈ q.head?, isSpace c → c = ' ' ∧ ((∃ d ∈ p.head?, isSpace d) ∨ ¬ endsHex x)

variable {x y p q r u ds : List Char} {c : Char}

lemma dropWhile_append_cons {f : Char → Bool} (hu : ∀ b ∈ u, f b) (hc : ¬ f c) :
    (u ++ c :: x).takeWhile f = u ∧ (u ++ c :: x).dropWhile f = c :: x := by
  rw [List.takeWhile_append_of_pos hu, List.dropWhile_append_of_pos hu,
    List.takeWhile_cons_of_neg hc, List.dropWhile_cons_of_neg hc, List.append_nil]
  exact ⟨rfl, rfl⟩

lemma endsHex_iff : endsHex x ↔
    ∃ u ds, x = u ++ '\\' :: ds ∧ ds ≠ [] ∧ ds.length ≤ 6 ∧ ∀ d ∈ ds, isHexDigit d := by
  constructor
  · intro h
    have hsource := List.takeWhile_append_dropWhile (p := isHexDigit) (l := x.reverse)
    have hall : ∀ d ∈ x.reverse.takeWhile isHexDigit, isHexDigit d :=
      List.all_eq_true.mp List.all_takeWhile
    rw [endsHex] at h
    generalize x.reverse.takeWhile isHexDigit = ds at h hsource hall
    simp only [Bool.and_eq_true, Bool.not_eq_true', List.isEmpty_eq_false_iff, decide_eq_true_eq,
      beq_iff_eq] at h
    obtain ⟨⟨hne, hlength⟩, hslash⟩ := h
    obtain ⟨u, hu⟩ := List.head?_eq_some_iff.mp hslash
    refine ⟨u.reverse, ds.reverse, ?_, by simpa using hne, by simpa using hlength, by simpa using hall⟩
    rw [← List.reverse_reverse x, ← hsource, hu]
    simp
  · rintro ⟨u, ds, rfl, hne, hlength, hall⟩
    have hdigits : ∀ d ∈ ds.reverse, isHexDigit d := fun d hd => hall d (List.mem_reverse.mp hd)
    obtain ⟨htake, hdrop⟩ := dropWhile_append_cons (c := '\\') (x := u.reverse) hdigits (by decide)
    have hreverse : (u ++ '\\' :: ds).reverse = ds.reverse ++ '\\' :: u.reverse := by simp
    rw [endsHex, hreverse, htake, hdrop]
    simp [hne, hlength]

lemma endsHex_append (h : endsHex x) (u : List Char) : endsHex (u ++ x) := by
  obtain ⟨v, ds, rfl, hds⟩ := endsHex_iff.mp h
  exact endsHex_iff.mpr ⟨u ++ v, ds, by simp, hds⟩

lemma Swap.of_append (h : Swap (u ++ x) p q) : Swap x p q where
  ne_nil := h.ne_nil
  not_isLone := h.not_isLone
  isBreak := h.isBreak
  blank c hc hspace := by
    obtain ⟨rfl, hp | hx⟩ := h.blank c hc hspace
    · exact ⟨rfl, .inl hp⟩
    · exact ⟨rfl, .inr fun hends => hx (endsHex_append hends u)⟩

lemma Swap.of_cons (h : Swap (c :: x) p q) : Swap x p q :=
  Swap.of_append (u := [c]) h

lemma Swap.head?_ne (h : Swap x p q) : q.head? ≠ some '\n' := by
  intro hhead
  exact absurd (h.blank '\n' hhead rfl).1 (by decide)

lemma mem_breaks (hq : isBreak (c :: q)) : c ∈ breaks := by
  simpa [isBreak, isSpace, isNewline, breaks, or_assoc] using hq

lemma of_isBreak {f : Char → Bool} (hq : isBreak (c :: q)) (h : breaks.all f) : f c :=
  List.all_eq_true.mp h c (mem_breaks hq)

/-! ### Escapes -/

lemma raw_oneBlank_cons (c : Char) (cs : List Char) : (oneBlank (c :: cs)).raw =
    if c = '\r' ∧ cs.head? = some '\n' then ['\r', '\n'] else if isSpace c then [c] else [] := by
  unfold oneBlank
  split
  · next heq =>
    cases heq
    rfl
  · next hne heq =>
    cases heq
    have hcs : ¬ (c = '\r' ∧ cs.head? = some '\n') := by
      rintro ⟨hc, hhead⟩
      obtain ⟨ds, hds⟩ := List.head?_eq_some_iff.mp hhead
      exact hne ds hc hds
    rw [if_neg hcs]
    split <;> rfl
  · next heq => cases heq

lemma raw_oneBlank_eq_nil_iff : (oneBlank p).raw = [] ↔ ∀ c ∈ p.head?, ¬ isSpace c := by
  cases p with
  | nil => simp [oneBlank]
  | cons c p =>
    rw [raw_oneBlank_cons]
    by_cases hc : isSpace c
    · rw [if_pos hc]
      split <;> simp [hc]
    · have hreturn : c ≠ '\r' := by
        rintro rfl
        exact hc rfl
      simp [hc, hreturn]

lemma oneBlank_swap (hnil : x = [] → ∀ c ∈ q.head?, ¬ isSpace c) (hfeed : q.head? ≠ some '\n')
    (hx : (oneBlank (x ++ p)).raw ++ y = x) :
    oneBlank (x ++ q) = ⟨(), (oneBlank (x ++ p)).raw, y ++ q⟩ := by
  refine Piece.eq_of_source (by rw [source_oneBlank, ← List.append_assoc, hx]) rfl ?_
  match x with
  | [] =>
    rw [(List.append_eq_nil_iff.mp hx).1]
    exact raw_oneBlank_eq_nil_iff.mpr (hnil rfl)
  | [c] =>
    simp only [List.singleton_append, raw_oneBlank_cons] at hx ⊢
    split at hx
    · cases hx
    · next hcd => rw [if_neg hcd, if_neg fun hcd => hfeed hcd.2]
  | c :: d :: x =>
    have hcons (s : List Char) : c :: d :: x ++ s = c :: d :: (x ++ s) := rfl
    rw [hcons, hcons, raw_oneBlank_cons, raw_oneBlank_cons]
    rfl

lemma raw_oneBlank_ne_nil (h : startsNewline p) : (oneBlank p).raw ≠ [] := by
  cases p with
  | nil => cases h
  | cons c p =>
    have hspace : isSpace c := by
      rw [isSpace, show isNewline c = true from h, Bool.or_true]
    intro hraw
    exact raw_oneBlank_eq_nil_iff.mp hraw c rfl hspace

/-- Characters of a class in front, up to some number of them, do not depend on what ends them. -/
lemma take_takeWhile_swap {f : Char → Bool} (hq : q.takeWhile f = []) (n : Nat)
    (hx : (((x ++ p).takeWhile f).take n).length ≤ x.length) :
    ((x ++ q).takeWhile f).take n = ((x ++ p).takeWhile f).take n := by
  induction x generalizing n with
  | nil =>
    rw [List.length_nil, Nat.le_zero, List.length_eq_zero_iff] at hx
    rw [hx, List.nil_append, hq, List.take_nil]
  | cons c x ih =>
    cases n with
    | zero => rfl
    | succ n =>
      by_cases hc : f c
      · simp only [List.cons_append, List.takeWhile_cons_of_pos hc, List.take_succ_cons] at hx ⊢
        rw [ih n (Nat.le_of_succ_le_succ hx)]
      · simp only [List.cons_append, List.takeWhile_cons_of_neg hc]

/-- The digits of an escape. -/
def hexDigits (cs : List Char) : List Char :=
  (cs.takeWhile isHexDigit).take 6

/-- The character that digits stand for. -/
def ofHexDigits (ds : List Char) : Char :=
  ofCodePoint (ds.foldl (fun n d => 16 * n + hexValue d) 0)

lemma escape_hex (hc : isHexDigit c) (cs : List Char) : escape (c :: cs) =
    ((oneBlank ((c :: cs).drop (hexDigits (c :: cs)).length)).map fun _ =>
      ofHexDigits (hexDigits (c :: cs))).after (hexDigits (c :: cs)) := by
  rw [escape, if_pos hc]
  rfl

lemma escape_other (hc : ¬ isHexDigit c) (cs : List Char) :
    escape (c :: cs) = ⟨if c = '\x00' then replacement else c, [c], cs⟩ := by
  rw [escape, if_neg hc]

lemma raw_escape_ne_nil (hp : p ≠ []) : (escape p).raw ≠ [] := by
  obtain ⟨c, cs, rfl⟩ := List.exists_cons_of_ne_nil hp
  by_cases hc : isHexDigit c
  · rw [escape_hex hc, hexDigits, List.takeWhile_cons_of_pos hc]
    simp
  · rw [escape_other hc]
    exact List.cons_ne_nil _ _

lemma hexDigits_ne_nil (hc : isHexDigit c) (cs : List Char) : hexDigits (c :: cs) ≠ [] := by
  simp [hexDigits, List.takeWhile_cons_of_pos hc]

lemma mem_hexDigits {cs : List Char} {d : Char} (h : d ∈ hexDigits cs) : isHexDigit d :=
  List.all_eq_true.mp List.all_takeWhile d (List.mem_of_mem_take h)

/-- An escape does not change, since no blank becomes part of it. -/
lemma escape_swap (h : Swap ('\\' :: x) p q) (hx : (escape (x ++ p)).raw ++ y = x) :
    escape (x ++ q) = ⟨(escape (x ++ p)).value, (escape (x ++ p)).raw, y ++ q⟩ := by
  cases x with
  | nil => exact absurd (List.append_eq_nil_iff.mp hx).1 (raw_escape_ne_nil h.ne_nil)
  | cons c x =>
    by_cases hc : isHexDigit c
    · -- up to six digits and a blank: none of them comes from behind the swap
      rw [List.cons_append, escape_hex hc] at hx ⊢
      rw [List.cons_append, escape_hex hc]
      simp only [← List.cons_append, Piece.raw_after, Piece.raw_map, List.append_assoc] at hx ⊢
      have htake : q.takeWhile isHexDigit = [] := by
        cases q with
        | nil => rfl
        | cons d q =>
          have hd := of_isBreak (f := fun d => !isHexDigit d) h.isBreak (by decide)
          exact List.takeWhile_cons_of_neg (by simpa using hd)
      have hlength : (hexDigits (c :: x ++ p)).length ≤ (c :: x).length := by
        have hx := congrArg List.length hx
        rw [List.length_append] at hx
        omega
      have hdigits : hexDigits (c :: x ++ q) = hexDigits (c :: x ++ p) :=
        take_takeWhile_swap htake 6 hlength
      have hne : hexDigits (c :: x ++ p) ≠ [] := hexDigits_ne_nil hc _
      have hsix : (hexDigits (c :: x ++ p)).length ≤ 6 := List.length_take_le _ _
      have hall : ∀ d ∈ hexDigits (c :: x ++ p), isHexDigit d := fun _ => mem_hexDigits
      generalize hexDigits (c :: x ++ p) = ds at hx hdigits hne hsix hall ⊢
      obtain ⟨z, hz⟩ : ∃ z, c :: x = ds ++ z := ⟨_, hx.symm⟩
      have hdrop (s : List Char) : (c :: x ++ s).drop ds.length = z ++ s := by
        rw [hz, List.append_assoc, List.drop_left]
      rw [hdrop, hz] at hx
      have hx := List.append_cancel_left hx
      -- the blank behind the digits is that of the first text, or none is there to take
      have hnil : z = [] → ∀ d ∈ q.head?, ¬ isSpace d := by
        rintro rfl d hd hspace
        rw [List.append_nil] at hz
        obtain ⟨-, ⟨e, he, hblank⟩ | hends⟩ := h.blank d hd hspace
        · exact raw_oneBlank_eq_nil_iff.mp (List.append_eq_nil_iff.mp hx).1 e he hblank
        · exact hends (endsHex_iff.mpr ⟨[], ds, by rw [hz]; rfl, hne, hsix, hall⟩)
      rw [hdigits, hdrop, hdrop, oneBlank_swap hnil h.head?_ne hx]
      rfl
    · rw [List.cons_append, escape_other hc] at hx ⊢
      rw [List.cons_append, escape_other hc]
      obtain rfl : y = x := List.cons.inj hx |>.2
      rfl

/-- Behind an escape the text is exchanged, too, given the characters that are read there. -/
lemma escape_split {w : List Char} (h : Swap ('\\' :: x) p q)
    (hx : (escape (x ++ p)).raw ++ w ++ y = x) :
    ∃ z, w ++ y = z ∧ z.length ≤ x.length ∧ x ≠ [] ∧ Swap z p q ∧ (escape (x ++ p)).rest = z ++ p ∧
      escape (x ++ q) = ⟨(escape (x ++ p)).value, (escape (x ++ p)).raw, z ++ q⟩ := by
  obtain ⟨z, hz, hx, hrest⟩ := Piece.exists_split (source_escape _) hx
  have hne : x ≠ [] := by
    rintro rfl
    exact raw_escape_ne_nil h.ne_nil (List.append_eq_nil_iff.mp hx).1
  have hswap : Swap z p q := Swap.of_append (u := (escape (x ++ p)).raw) (hx.symm ▸ h.of_cons)
  exact ⟨z, hz, List.IsSuffix.length_le ⟨_, hx⟩, hne, hswap, hrest,
    escape_swap h hx⟩

/-! ### Names -/

lemma name_char (hc : isNameChar c) (cs : List Char) :
    name (c :: cs) = ((name cs).map (c :: ·)).after [c] := by
  rw [name, if_pos hc]

lemma name_nul (cs : List Char) :
    name ('\x00' :: cs) = ((name cs).map (replacement :: ·)).after ['\x00'] := by
  rw [name, if_neg (by decide), if_pos rfl]

lemma name_escape {cs : List Char} (h : ¬ startsNewline cs) : name ('\\' :: cs) =
    ((name (escape cs).rest).map ((escape cs).value :: ·)).after ('\\' :: (escape cs).raw) := by
  rw [name, if_neg (by decide), if_neg (by decide), if_pos (by simp [h])]

lemma name_end {cs : List Char} (hc : ¬ isNameChar c) (hnul : c ≠ '\x00')
    (hslash : c = '\\' → startsNewline cs) : name (c :: cs) = ⟨[], [], c :: cs⟩ := by
  rw [name, if_neg hc, if_neg hnul, if_neg (by simpa using hslash)]

lemma name_of_isBreak (hq : isBreak q) : name q = ⟨[], [], q⟩ := by
  cases q with
  | nil => rw [name]
  | cons c q =>
    have hc := of_isBreak (f := fun c => !isNameChar c && c != '\x00' && c != '\\') hq (by decide)
    simp only [Bool.and_eq_true, Bool.not_eq_true', bne_iff_ne] at hc
    exact name_end (by simp [hc.1.1]) hc.1.2 fun hslash => absurd hslash hc.2

lemma startsNewline_append (hx : x ≠ []) (p q : List Char) :
    startsNewline (x ++ p) = startsNewline (x ++ q) := by
  obtain ⟨c, x, rfl⟩ := List.exists_cons_of_ne_nil hx
  rfl

lemma name_eq_of_raw_eq_nil (h : (name p).raw = []) : name p = ⟨[], [], p⟩ := by
  cases p with
  | nil => rw [name]
  | cons c p =>
    by_cases hc : isNameChar c
    · simp [name_char hc] at h
    by_cases hnul : c = '\x00'
    · simp [hnul, name_nul] at h
    by_cases hslash : c = '\\' → startsNewline p
    · exact name_end hc hnul hslash
    · obtain ⟨rfl, hp⟩ := Classical.not_imp.mp hslash
      simp [name_escape hp] at h

lemma name_swap {x y p q : List Char} (h : Swap x p q) (hx : (name (x ++ p)).raw ++ y = x)
    (hy : y ≠ ['\\']) :
    name (x ++ q) = ⟨(name (x ++ p)).value, (name (x ++ p)).raw, y ++ q⟩ := by
  match x with
  | [] =>
    obtain ⟨hraw, rfl⟩ := List.append_eq_nil_iff.mp hx
    rw [name_eq_of_raw_eq_nil hraw]
    exact name_of_isBreak h.isBreak
  | c :: x =>
    rw [List.cons_append] at hx ⊢
    rw [List.cons_append]
    by_cases hc : isNameChar c
    · rw [name_char hc] at hx ⊢
      rw [name_char hc, name_swap h.of_cons (List.cons.inj hx).2 hy]
      rfl
    by_cases hnul : c = '\x00'
    · subst hnul
      rw [name_nul] at hx ⊢
      rw [name_nul, name_swap h.of_cons (List.cons.inj hx).2 hy]
      rfl
    by_cases hslash : c = '\\' → startsNewline (x ++ p)
    · rw [name_end hc hnul hslash] at hx ⊢
      obtain rfl : y = c :: x := hx
      refine name_end hc hnul ?_
      -- a backslash that nothing stays behind could start an escape before the other text
      rintro rfl
      have hne : x ≠ [] := by
        rintro rfl
        exact hy rfl
      rw [startsNewline_append hne q p]
      exact hslash rfl
    · obtain ⟨rfl, hnewline⟩ := Classical.not_imp.mp hslash
      rw [name_escape hnewline] at hx ⊢
      obtain ⟨z, hz, hlength, hne, hswap, hrest, hescape⟩ := escape_split h (List.cons.inj hx).2
      rw [hrest] at hz ⊢
      rw [startsNewline_append hne p q] at hnewline
      rw [name_escape hnewline, hescape]
      dsimp only
      rw [name_swap hswap hz hy]
      rfl
termination_by x.length
decreasing_by
  · exact Nat.lt_succ_self _
  · exact Nat.lt_succ_self _
  · exact Nat.lt_succ_of_le hlength

lemma startsName_cons {cs : List Char} (hhyphen : c ≠ '-') (hslash : c ≠ '\\') :
    startsName (c :: cs) = isNameStart c := by
  unfold startsName
  split
  · next heq => cases heq; exact absurd rfl hhyphen
  · next heq => cases heq; exact absurd rfl hhyphen
  · next heq => cases heq; exact absurd rfl hslash
  · next heq => cases heq; rfl
  · next heq => cases heq

lemma not_startsName_of_isBreak (hq : isBreak q) : ¬ startsName q := by
  intro hstarts
  have hraw := raw_name_ne_nil hstarts
  rw [name_of_isBreak hq] at hraw
  exact hraw rfl

/-- Two characters decide whether a name starts, and a line break as the third one does. -/
lemma startsName_append_two (c d : Char) (x p q : List Char) :
    startsName (c :: d :: x ++ p) = startsName (c :: d :: x ++ q) := by
  by_cases hhyphen : c = '-'
  · subst hhyphen
    rfl
  by_cases hslash : c = '\\'
  · subst hslash
    rfl
  · simp only [List.cons_append, startsName_cons hhyphen hslash]

lemma not_startsName_swap (h : Swap x p q) (hx : x ≠ ['\\']) (hno : ¬ startsName (x ++ p)) :
    ¬ startsName (x ++ q) := by
  match x with
  | [] => exact not_startsName_of_isBreak h.isBreak
  | [c] =>
    by_cases hhyphen : c = '-'
    · subst hhyphen
      cases q with
      | nil => exact Bool.false_ne_true
      | cons d q =>
        have hd := of_isBreak (f := fun d => !(isNameStart d || d == '-' || d == '\\')) h.isBreak
          (by decide)
        exact Bool.eq_false_iff.mp ((Bool.not_eq_true' _).mp hd)
    · have hslash : c ≠ '\\' := fun hc => hx (by rw [hc])
      rw [List.singleton_append, startsName_cons hhyphen hslash] at hno ⊢
      exact hno
  | c :: d :: x => rwa [startsName_append_two c d x q p]

lemma startsName_swap (h : Swap x p q) (hx : (name (x ++ p)).raw ++ y = x)
    (hyes : startsName (x ++ p)) : startsName (x ++ q) := by
  match x with
  | [] => exact absurd (List.append_eq_nil_iff.mp hx).1 (raw_name_ne_nil hyes)
  | [c] =>  -- a single character in front of the exchange: it must be all that the decision looks at
    by_cases hhyphen : c = '-'
    · -- the character behind the hyphen would be part of the name
      subst hhyphen
      obtain ⟨d, p, rfl⟩ := List.exists_cons_of_ne_nil h.ne_nil
      have hraw : (name (d :: p)).raw = [] := by
        rw [List.singleton_append, name_char (by decide)] at hx
        exact (List.append_eq_nil_iff.mp (List.cons.inj hx).2).1
      have hd : isNameStart d || d == '-' || d == '\\' := hyes
      simp only [Bool.or_eq_true, beq_iff_eq] at hd
      rcases hd with (hd | rfl) | rfl
      · exact absurd hraw (raw_name_ne_nil (startsName_of_isNameStart hd))
      · rw [name_char (by decide)] at hraw
        cases hraw
      · have hnewline : ¬ startsNewline p := h.not_isLone
        rw [name_escape hnewline] at hraw
        cases hraw
    by_cases hslash : c = '\\'
    · subst hslash
      have hnewline : ¬ startsNewline p := by simpa [startsName] using hyes
      rw [List.singleton_append, name_escape hnewline] at hx
      have hraw := (List.append_eq_nil_iff.mp (List.cons.inj hx).2).1
      exact absurd (List.append_eq_nil_iff.mp hraw).1 (raw_escape_ne_nil h.ne_nil)
    · rw [List.singleton_append, startsName_cons hhyphen hslash] at hyes ⊢
      exact hyes
  | c :: d :: x => rwa [startsName_append_two c d x q p]

end Lexeme

end MapStyle
