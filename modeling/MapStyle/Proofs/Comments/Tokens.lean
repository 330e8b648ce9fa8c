import MapStyle.Proofs.Comments.Lexemes
import MapStyle.Token.Stream

/-!
# Tokens with a comment between them

A comment joins the token behind it. That token stays what it is if its text is not what was written,
and the tokens further behind only move. Between square brackets what was written counts, too, so that
there a comment may stand in front of white space and of a fitting closer only.
-/

namespace MapStyle.Token

open Lexeme

/-! ### Tokens that were written differently -/

/-- Two tokens that say the same. -/
structure Alike (t t' : Token) : Prop where
  kind : t'.kind = t.kind
  text : t'.text = t.text

/-- Whether a token is followed by something between square brackets, given whether it is so itself. -/
def inside (b : Bool) (t : Token) : Bool :=
  if t.isDelimiter "[" then true else if t.isDelimiter "]" then false else b

/-- Tokens that say the same. Between square brackets they were written the same, up to white space. -/
inductive Respelled : Bool → List Token → List Token → Prop
  | nil {b : Bool} : Respelled b [] []
  | cons {b : Bool} {t t' : Token} {ts ts' : List Token} (ht : Alike t t')
      (hraw : b → t.isWhitespace ∨ t'.raw = t.raw) (hts : Respelled (inside b t) ts ts') :
      Respelled b (t :: ts) (t' :: ts')

section

variable {t t' : Token} {ts ts' us : List Token} {b b' : Bool} {text : String}

lemma Alike.refl (t : Token) : Alike t t :=
  ⟨rfl, rfl⟩

lemma Alike.symm (h : Alike t t') : Alike t' t :=
  ⟨h.kind.symm, h.text.symm⟩

lemma Alike.isWhitespace_eq (h : Alike t t') : t'.isWhitespace = t.isWhitespace := by
  rw [isWhitespace, isWhitespace, h.kind]

lemma Alike.isDelimiter_eq (h : Alike t t') : t'.isDelimiter text = t.isDelimiter text := by
  rw [isDelimiter, isDelimiter, h.kind, h.text]

lemma Alike.isOperator_eq (h : Alike t t') : t'.isOperator text = t.isOperator text := by
  rw [isOperator, isOperator, h.kind, h.text]

lemma Alike.isKeyword_eq (h : Alike t t') : t'.isKeyword text = t.isKeyword text := by
  rw [isKeyword, isKeyword, h.kind, h.text]

lemma Alike.startsSelector_eq (h : Alike t t') : t'.startsSelector = t.startsSelector := by
  rw [startsSelector, startsSelector, h.kind, h.text]

lemma Alike.inside_eq (h : Alike t t') (b : Bool) : inside b t' = inside b t := by
  rw [inside, inside, h.isDelimiter_eq, h.isDelimiter_eq]

lemma Respelled.append (h : Respelled (us.foldl inside b) ts ts') :
    Respelled b (us ++ ts) (us ++ ts') := by
  induction us generalizing b with
  | nil => exact h
  | cons u us ih => exact .cons (.refl u) (fun _ => .inr rfl) (ih h)

lemma Respelled.symm (h : Respelled b ts ts') : Respelled b ts' ts := by
  induction h with
  | nil => exact .nil
  | @cons b t t' _ _ ht hraw _ ih =>
    refine .cons ht.symm (fun hb => ?_) (ht.inside_eq b ▸ ih)
    exact (hraw hb).imp (fun hblank => ht.isWhitespace_eq ▸ hblank) Eq.symm

/-- Outside of square brackets less is asked for. -/
lemma Respelled.outside (h : Respelled b ts ts') : Respelled false ts ts' := by
  suffices hle : ∀ b' : Bool, (b' → b) → Respelled b' ts ts' from hle false nofun
  induction h with
  | nil => exact fun _ _ => .nil
  | @cons b t t' _ _ ht hraw _ ih =>
    intro b' hb
    refine .cons ht (fun hb' => hraw (hb hb')) (ih _ fun hinside => ?_)
    unfold inside at hinside ⊢
    split at hinside
    · next hopen => rw [if_pos hopen]
    · next hopen =>
      rw [if_neg hopen]
      split at hinside
      · cases hinside
      · next hclose => rw [if_neg hclose, hb hinside]

end

/-! ### Tokens of lexemes -/

variable {limit : Nat} {opened : List Bracket} {pending : List Char} {start here : Location}
  {ls : List (Lexeme × List Char)} {l : Lexeme} {ts : List Token}

/-- Whether the text of a lexeme's token is what was written. -/
def takesRaw : Lexeme → Bool
  | .number _ | .percentage _ | .dimension _ _ | .closer _ | .atWord _ | .matcher _ | .markupOpener
  | .markupCloser => true
  | _ => false

lemma describe_eq (h : ¬ takesRaw l) (raw raw' : List Char) : describe raw l = describe raw' l := by
  cases l <;> first | rfl | exact absurd rfl h

lemma isSound_of_describe {raw : List Char} {x : TokenKind × List Char}
    (h : describe raw l = .ok x) : isSound l := by
  cases l <;> first | rfl | cases h

/-- Whether a lexeme closes the innermost bracket that is open. -/
def Closes (opened : List Bracket) (l : Lexeme) : Prop :=
  opened.head?.map Lexeme.closer = some l

instance (opened : List Bracket) (l : Lexeme) : Decidable (Closes opened l) :=
  inferInstanceAs (Decidable (_ = _))

/-- The brackets that are open behind some lexemes, given those that are open before them. -/
def openedBehind (opened : List Bracket) : List (Lexeme × List Char) → List Bracket
  | [] => opened
  | (l, _) :: ls =>
    if Closes opened l then openedBehind opened.tail ls
    else openedBehind ((opened? l).toList ++ opened) ls

lemma ofLexemes_comment {w : List Char} :
    ofLexemes limit opened pending start here ((.comment, w) :: ls) =
      ofLexemes limit opened (pending ++ w) start (here.advance w) ls := by
  rw [ofLexemes]
  exact if_pos rfl

lemma Closes.isCloser (h : Closes opened l) : ∃ b, l = .closer b := by
  cases opened with
  | nil => cases h
  | cons b opened => exact ⟨b, (Option.some_inj.mp h).symm⟩

/-- A closer that fits leaves the comments before it out. -/
lemma ofLexemes_closes (h : Closes opened l) {w : List Char} :
    ofLexemes limit opened pending start here ((l, w) :: ls) =
      (ofLexemes limit opened.tail [] (here.advance w) (here.advance w) ls).map
        (⟨.delimiter, String.ofList w, String.ofList w, here⟩ :: ·) := by
  have hcomment : l ≠ .comment := by
    obtain ⟨b, rfl⟩ := h.isCloser
    nofun
  rw [ofLexemes]
  refine (if_neg hcomment).trans ((if_pos h).trans ?_)
  dsimp only
  cases ofLexemes limit opened.tail [] (here.advance w) (here.advance w) ls <;> rfl

/-- Any other lexeme becomes a token that starts with the comments before it. -/
lemma ofLexemes_lexeme (hcomment : l ≠ .comment) (hcloses : ¬ Closes opened l) {w : List Char} :
    ofLexemes limit opened pending start here ((l, w) :: ls) =
      match describe (pending ++ w) l with
      | .error fault => .error (.atPlace fault start)
      | .ok (kind, text) =>
        if (opened? l).isSome ∧ limit ≤ opened.length then
          .error (.atPlace (.nestedTooDeep limit) start)
        else
          (ofLexemes limit ((opened? l).toList ++ opened) [] (here.advance w) (here.advance w) ls).map
            (⟨kind, String.ofList (pending ++ w), String.ofList text, start⟩ :: ·) := by
  rw [ofLexemes]
  refine (if_neg hcomment).trans ((if_neg hcloses).trans ?_)
  dsimp only
  cases describe (pending ++ w) l with
  | error => rfl
  | ok x =>
    dsimp only
    cases opened? l with
    | none =>
      simp only [Option.isSome_none, Bool.false_eq_true, false_and, if_false, Option.toList_none,
        List.nil_append]
      cases ofLexemes limit opened [] (here.advance w) (here.advance w) ls <;> rfl
    | some b =>
      simp only [Option.isSome_some, true_and, Option.toList_some, List.cons_append, List.nil_append]
      cases ofLexemes limit (b :: opened) [] (here.advance w) (here.advance w) ls <;> rfl

lemma map_eq_ok_iff {ε α β : Type} {f : α → β} {x : Except ε α} {y : β} :
    x.map f = .ok y ↔ ∃ a, x = .ok a ∧ y = f a := by
  cases x <;> simp [Except.map, eq_comm]

lemma ofLexemes_lexeme_eq_ok_iff (hcomment : l ≠ .comment) (hcloses : ¬ Closes opened l)
    {w : List Char} :
    ofLexemes limit opened pending start here ((l, w) :: ls) = .ok ts ↔
      ¬ ((opened? l).isSome ∧ limit ≤ opened.length) ∧ ∃ kind text us,
        describe (pending ++ w) l = .ok (kind, text) ∧
        ofLexemes limit ((opened? l).toList ++ opened) [] (here.advance w) (here.advance w) ls = .ok us ∧
        ts = ⟨kind, String.ofList (pending ++ w), String.ofList text, start⟩ :: us := by
  rw [ofLexemes_lexeme hcomment hcloses]
  cases describe (pending ++ w) l with
  | error => simp
  | ok x =>
    obtain ⟨kind, text⟩ := x
    dsimp only
    split
    · next hdeep => simp [hdeep]
    · next hdeep =>
      rw [map_eq_ok_iff]
      constructor
      · rintro ⟨us, hus, hts⟩
        exact ⟨hdeep, kind, text, us, rfl, hus, hts⟩
      · rintro ⟨-, kind', text', us, hdescribe, hus, hts⟩
        cases hdescribe
        exact ⟨us, hus, hts⟩

lemma not_closes_comment : ¬ Closes opened .comment := by
  intro h
  obtain ⟨b, hb⟩ := h.isCloser
  cases hb

/-! ### Other comments in front -/

/-- A comment may stand in front of some lexemes, given whether that is between square brackets and the
brackets that are open: the next lexeme is white space, a closer that fits, or, but for square brackets,
one whose token does not say what was written. -/
def Harmless (b : Bool) (opened : List Bracket) (ls : List (Lexeme × List Char)) : Prop :=
  ∀ l ∈ ls.find? (·.1 ≠ .comment), l.1 = .blank ∨ Closes opened l.1 ∨ (b = false ∧ ¬ takesRaw l.1)

instance (b : Bool) (opened : List Bracket) (ls : List (Lexeme × List Char)) :
    Decidable (Harmless b opened ls) :=
  inferInstanceAs (Decidable (∀ l ∈ ls.find? (·.1 ≠ .comment),
    l.1 = .blank ∨ Closes opened l.1 ∨ (b = false ∧ ¬ takesRaw l.1)))

/-- The token of a lexeme that may stand behind comments says the same behind others. -/
lemma describe_behind {b : Bool} {pending' w : List Char} {kind : TokenKind} {text : List Char}
    (hcomment : l ≠ .comment) (hcloses : ¬ Closes opened l)
    (hpending : pending = pending' ∨ Harmless b opened ((l, w) :: ls))
    (h : describe (pending ++ w) l = .ok (kind, text)) :
    describe (pending' ++ w) l = .ok (kind, text) ∧ (b → kind = .whitespace ∨ pending = pending') := by
  obtain rfl | hharmless := hpending
  · exact ⟨h, fun _ => .inr rfl⟩
  · obtain hblank | hnext | ⟨hb, hraw⟩ := hharmless (l, w) (by simp [hcomment])
    · obtain rfl : l = .blank := hblank
      cases h
      exact ⟨rfl, fun _ => .inl rfl⟩
    · exact absurd hnext hcloses
    · exact ⟨describe_eq hraw _ _ ▸ h, fun htrue => absurd hb (by simp [htrue])⟩

/-- Lexemes become the same tokens behind other comments and at another place, if these comments
change nothing. -/
lemma ofLexemes_respelled {b : Bool} {limit : Nat} {opened : List Bracket}
    {pending pending' : List Char} {start here : Location} (start' here' : Location)
    {ls : List (Lexeme × List Char)} {ts : List Token}
    (h : ofLexemes limit opened pending start here ls = .ok ts)
    (hpending : pending = pending' ∨ Harmless b opened ls) :
    ∃ ts', ofLexemes limit opened pending' start' here' ls = .ok ts' ∧ Respelled b ts ts' := by
  -- only the first lexeme that is no comment sees what is pending; behind it nothing is
  induction ls generalizing b opened pending pending' start here start' here' ts with
  | nil =>
    rw [ofLexemes] at h
    cases h
    exact ⟨[], ofLexemes.eq_1 .., .nil⟩
  | cons l ls ih =>
    obtain ⟨l, w⟩ := l
    by_cases hcomment : l = .comment
    · subst hcomment
      rw [ofLexemes_comment] at h ⊢
      exact ih _ _ h (hpending.imp (fun hpending => by rw [hpending]) fun hharmless => hharmless)
    by_cases hcloses : Closes opened l
    · rw [ofLexemes_closes hcloses, map_eq_ok_iff] at h
      obtain ⟨us, hus, rfl⟩ := h
      obtain ⟨us', hus', hrespelled⟩ := ih (here'.advance w) (here'.advance w) hus (.inl rfl)
      exact ⟨_, (ofLexemes_closes hcloses).trans (map_eq_ok_iff.mpr ⟨us', hus', rfl⟩),
        .cons ⟨rfl, rfl⟩ (fun _ => .inr rfl) hrespelled⟩
    · obtain ⟨hdeep, kind, text, us, hdescribe, hus, rfl⟩ :=
        (ofLexemes_lexeme_eq_ok_iff hcomment hcloses).mp h
      obtain ⟨us', hus', hrespelled⟩ := ih (here'.advance w) (here'.advance w) hus (.inl rfl)
      obtain ⟨hdescribe', hraw⟩ := describe_behind hcomment hcloses hpending hdescribe
      refine ⟨_, (ofLexemes_lexeme_eq_ok_iff hcomment hcloses).mpr
        ⟨hdeep, kind, text, us', hdescribe', hus', rfl⟩, .cons ⟨rfl, rfl⟩ (fun hb => ?_) hrespelled⟩
      exact (hraw hb).imp beq_iff_eq.mpr fun hpending => by rw [hpending]

/-! ### Lexemes in front -/

/-- The tokens of lexemes in front do not depend on those behind them. -/
lemma ofLexemes_append {limit : Nat} {opened : List Bracket} {pending : List Char}
    {start here : Location} {before after : List (Lexeme × List Char)} {ts : List Token}
    (h : ofLexemes limit opened pending start here (before ++ after) = .ok ts) :
    ∃ us vs pending' start' here', ts = us ++ vs ∧
      ofLexemes limit (openedBehind opened before) pending' start' here' after = .ok vs ∧
      ∀ after' vs',
        ofLexemes limit (openedBehind opened before) pending' start' here' after' = .ok vs' →
          ofLexemes limit opened pending start here (before ++ after') = .ok (us ++ vs') := by
  induction before generalizing opened pending start here ts with
  | nil => exact ⟨[], ts, pending, start, here, rfl, h, fun _ _ h' => h'⟩
  | cons l before ih =>
    obtain ⟨l, w⟩ := l
    simp only [List.cons_append] at h ⊢
    by_cases hcomment : l = .comment
    · subst hcomment
      rw [openedBehind, if_neg not_closes_comment]
      rw [ofLexemes_comment] at h
      obtain ⟨us, vs, pending', start', here', hts, hvs, hbehind⟩ := ih h
      exact ⟨us, vs, pending', start', here', hts, hvs, fun after' vs' h' =>
        ofLexemes_comment.trans (hbehind after' vs' h')⟩
    -- a closer takes the innermost bracket away in either text
    by_cases hcloses : Closes opened l
    · rw [openedBehind, if_pos hcloses]
      rw [ofLexemes_closes hcloses, map_eq_ok_iff] at h
      obtain ⟨ts, hts, rfl⟩ := h
      obtain ⟨us, vs, pending', start', here', rfl, hvs, hbehind⟩ := ih hts
      exact ⟨_ :: us, vs, pending', start', here', rfl, hvs, fun after' vs' h' =>
        (ofLexemes_closes hcloses).trans (map_eq_ok_iff.mpr ⟨_, hbehind after' vs' h', rfl⟩)⟩
    · -- any other lexeme becomes the same token in front of either text
      rw [openedBehind, if_neg hcloses]
      obtain ⟨hdeep, kind, text, ts, hdescribe, hts, rfl⟩ :=
        (ofLexemes_lexeme_eq_ok_iff hcomment hcloses).mp h
      obtain ⟨us, vs, pending', start', here', rfl, hvs, hbehind⟩ := ih hts
      exact ⟨_ :: us, vs, pending', start', here', rfl, hvs, fun after' vs' h' =>
        (ofLexemes_lexeme_eq_ok_iff hcomment hcloses).mpr
          ⟨hdeep, kind, text, _, hdescribe, hbehind after' vs' h', rfl⟩⟩

/-- Lexemes that have tokens are no broken strings and addresses. -/
lemma isSound_of_ofLexemes {limit : Nat} {opened : List Bracket} {pending : List Char}
    {start here : Location} {ls : List (Lexeme × List Char)} {ts : List Token}
    (h : ofLexemes limit opened pending start here ls = .ok ts) : ∀ l ∈ ls, isSound l.1 := by
  induction ls generalizing opened pending start here ts with
  | nil => nofun
  | cons l ls ih =>
    obtain ⟨l, w⟩ := l
    refine List.forall_mem_cons.mpr ?_
    by_cases hcomment : l = .comment
    · subst hcomment
      rw [ofLexemes_comment] at h
      exact ⟨rfl, ih h⟩
    by_cases hcloses : Closes opened l
    · rw [ofLexemes_closes hcloses, map_eq_ok_iff] at h
      obtain ⟨us, hus, -⟩ := h
      obtain ⟨b, rfl⟩ := hcloses.isCloser
      exact ⟨rfl, ih hus⟩
    · obtain ⟨-, kind, text, us, hdescribe, hus, -⟩ :=
        (ofLexemes_lexeme_eq_ok_iff hcomment hcloses).mp h
      exact ⟨isSound_of_describe hdescribe, ih hus⟩

/-! ### A comment between tokens -/

/-- Whether some lexemes, read from the start of a text, end between square brackets. -/
def insideBehind (limit : Nat) (before : List (Lexeme × List Char)) : Bool :=
  match ofLexemes limit [] [] {} {} before with
  | .ok ts => ts.foldl inside false
  | .error _ => true

/-- A gap between the lexemes of a text where a comment may stand, with what is written and which
lexemes there are in front of it and behind it. -/
structure Gap (limit : Nat) (pre post : List Char) (before after : List (Lexeme × List Char)) :
    Prop where
  text : Lexeme.ofText (pre ++ post) = before ++ after
  front : before.flatMap (·.2) = pre
  ne_nil : after ≠ []
  firm : Firm before
  not_backslash : ∀ l ∈ after.head?, l.2 ≠ ['\\']
  harmless : Harmless (insideBehind limit before) (openedBehind [] before) after

instance (limit : Nat) (pre post : List Char) (before after : List (Lexeme × List Char)) :
    Decidable (Gap limit pre post before after) :=
  decidable_of_iff
    (Lexeme.ofText (pre ++ post) = before ++ after ∧ before.flatMap (·.2) = pre ∧ after ≠ [] ∧
      Firm before ∧ (∀ l ∈ after.head?, l.2 ≠ ['\\']) ∧
      Harmless (insideBehind limit before) (openedBehind [] before) after)
    ⟨fun ⟨htext, hfront, hne, hfirm, hslash, hharmless⟩ =>
      ⟨htext, hfront, hne, hfirm, hslash, hharmless⟩,
    fun h => ⟨h.text, h.front, h.ne_nil, h.firm, h.not_backslash, h.harmless⟩⟩

lemma not_isLone {p : List Char} (h : ∀ l ∈ (Lexeme.ofText p).head?, l.2 ≠ ['\\']) : ¬ isLone p := by
  intro hlone
  unfold isLone at hlone
  split at hlone
  · next cs =>
    have hname : ¬ startsName ('\\' :: cs) := by simp [startsName, hlone]
    have hnext : next '\\' cs = ⟨.delimiter '\\', ['\\'], cs⟩ := if_neg hname
    rw [ofText_of_next hnext] at h
    exact h _ rfl rfl
  · cases hlone

/-- A comment in such a gap changes no token but for what was written. -/
theorem ofText_insert {limit : Nat} {pre post s : List Char} {before after : List (Lexeme × List Char)}
    {ts : List Token} (hgap : Gap limit pre post before after) (hs : ¬ ['*', '/'] <:+: s)
    (h : ofText limit (String.ofList (pre ++ post)) = .ok ts) :
    ∃ ts', ofText limit (String.ofList (pre ++ (ofComment s ++ post))) = .ok ts' ∧
      Respelled false ts ts' := by
  have hpost := ofText_behind hgap.text hgap.front
  have hne : post ≠ [] := by
    rintro rfl
    exact hgap.ne_nil (hpost.symm.trans Lexeme.ofText.eq_1)
  have hlone : ¬ isLone post := not_isLone (hpost ▸ hgap.not_backslash)
  rw [ofText, String.toList_ofList] at h ⊢
  rw [hgap.text] at h
  have hsound : ∀ l ∈ before, isSound l.1 := fun l hl =>
    isSound_of_ofLexemes h l (List.mem_append_left after hl)
  rw [Lexeme.ofText_insert hgap.text hgap.front hne hsound hgap.firm hlone hs]
  obtain ⟨us, vs, pending, start, here, rfl, hvs, hbehind⟩ := ofLexemes_append h
  -- the tokens in front are those of the lexemes in front on their own
  have hinside : insideBehind limit before = us.foldl inside false := by
    have hus := hbehind [] [] (ofLexemes.eq_1 ..)
    rw [List.append_nil, List.append_nil] at hus
    rw [insideBehind, hus]
  obtain ⟨vs', hvs', hrespelled⟩ := ofLexemes_respelled start (here.advance (ofComment s)) hvs
    (.inr (hinside ▸ hgap.harmless))
  exact ⟨us ++ vs', hbehind _ vs' (ofLexemes_comment.trans hvs'), hrespelled.append⟩

end MapStyle.Token
