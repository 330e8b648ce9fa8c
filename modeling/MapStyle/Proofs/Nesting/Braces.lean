import MapStyle.Proofs.Balance.Brackets
import MapStyle.Proofs.Comments.Tokens

/-!
# Nested braces

How deep braces are nested at each token of a list. In a token list that was made from a text they are
never nested deeper than brackets may be: a brace counts as a bracket, and what looks like the end of a
block, but is not, can only make the braces seem to be nested less deep.
-/

namespace MapStyle.Token

/-- How deep braces are nested behind a token, given how deep they are before it. -/
def bracesBehind (n : Nat) (t : Token) : Nat :=
  if t.isDelimiter "\x7b" then n + 1 else if t.isDelimiter "\x7d" then n - 1 else n

/-- Tokens that open no brace inside as many others as a limit says, given how many are open in front
of them. -/
def Fits (limit : Nat) : Nat → List Token → Prop
  | _, [] => True
  | n, t :: ts => (t.isDelimiter "\x7b" → n < limit) ∧ Fits limit (t.bracesBehind n) ts

variable {limit n k : Nat} {t : Token} {ts : List Token}

lemma bracesBehind_mono (h : k ≤ n) (t : Token) : t.bracesBehind k ≤ t.bracesBehind n := by
  unfold bracesBehind
  split
  · exact Nat.succ_le_succ h
  split
  · exact Nat.sub_le_sub_right h 1
  · exact h

/-- With fewer braces open in front of them tokens fit all the more. -/
lemma Fits.mono (h : Fits limit n ts) (hle : k ≤ n) : Fits limit k ts := by
  induction ts generalizing n k with
  | nil => trivial
  | cons t ts ih =>
    exact ⟨fun hopen => Nat.lt_of_le_of_lt hle (h.1 hopen), ih h.2 (bracesBehind_mono hle t)⟩

/-- A token that opens no brace keeps tokens behind it fitting. -/
lemma Fits.cons (ht : ¬ t.isDelimiter "\x7b") (h : Fits limit n ts) : Fits limit n (t :: ts) := by
  refine ⟨fun hopen => absurd hopen ht, h.mono ?_⟩
  rw [bracesBehind, if_neg ht]
  split
  · exact Nat.sub_le n 1
  · exact Nat.le_refl n

lemma eq_of_isDelimiter_ofList {kind : TokenKind} {raw : String} {text : List Char}
    {location : Location} {c : Char}
    (h : (⟨kind, raw, String.ofList text, location⟩ : Token).isDelimiter (String.ofList [c])) :
    text = [c] :=
  String.ofList_injective (eq_of_beq (Bool.and_eq_true_iff.mp h).2)

section

variable {raw text : List Char} {l : Lexeme} {written : String} {location : Location}
  {kind : TokenKind} {b : Bracket} (h : describe raw l = .ok (kind, text))
  (hraw : ∀ b, l = .closer b → raw.getLast? = some b.closer)
include h hraw

/-- A token opens the bracket that its lexeme opens. -/
lemma opens?_of_describe :
    (⟨kind, written, String.ofList text, location⟩ : Token).opens? = opened? l := by
  cases l with
  | closer b =>
    cases h
    refine Option.eq_none_iff_forall_ne_some.mpr fun b' hb' => ?_
    obtain ⟨hkind, -⟩ | hopener := opens?_eq_some_iff.mp hb'
    · cases hkind
    · have hlast := hraw b rfl
      rw [eq_of_isDelimiter_ofList hopener] at hlast
      cases b <;> cases b' <;> cases hlast
  | opener b => cases h; cases b <;> rfl
  | brokenString | brokenUrl => cases h
  | _ => cases h; rfl

/-- A token closes only the bracket that its lexeme closes. -/
lemma eq_closer_of_describe
    (hcloses : (⟨kind, written, String.ofList text, location⟩ : Token).closes? = some b) :
    l = .closer b := by
  have hdelimiter := closes?_eq_some_iff.mp hcloses
  have htext := eq_of_isDelimiter_ofList hdelimiter
  have hkind : kind = .delimiter := eq_of_beq (Bool.and_eq_true_iff.mp hdelimiter).1
  subst htext hkind
  cases l with
  | closer b' =>
    cases h
    have hlast := hraw b' rfl
    cases b <;> cases b' <;> first | rfl | cases hlast
  | opener b' => cases b <;> cases b' <;> cases h
  | colon | semicolon | comma => cases b <;> cases h
  | _ => cases h

end

/-- The tokens of lexemes fit as deep into braces as the lexemes do into brackets. -/
lemma fits_of_ofLexemes {opened : List Bracket} {pending : List Char} {start here : Location}
    {ls : List (Lexeme × List Char)} (hls : ∀ b w, (Lexeme.closer b, w) ∈ ls → w = [b.closer])
    (h : ofLexemes limit opened pending start here ls = .ok ts) :
    Fits limit (opened.count .curly) ts := by
  induction ls generalizing opened pending start here ts with
  | nil =>
    rw [ofLexemes] at h
    cases h
    trivial
  | cons l ls ih =>
    obtain ⟨l, w⟩ := l
    have hls' := fun b w hw => hls b w (List.mem_cons_of_mem _ hw)
    by_cases hcomment : l = .comment
    · subst hcomment
      rw [ofLexemes_comment] at h
      exact ih hls' h
    -- a closer leaves one bracket less open, and one brace less if it is one
    by_cases hcloses : Closes opened l
    · rw [ofLexemes_closes hcloses, map_eq_ok_iff] at h
      obtain ⟨us, hus, rfl⟩ := h
      cases opened with
      | nil => cases hcloses
      | cons b opened =>
        obtain rfl : Lexeme.closer b = l := Option.some_inj.mp hcloses
        obtain rfl := hls b w List.mem_cons_self
        have hfits := ih hls' hus
        rw [List.tail_cons] at hfits
        cases b with
        | curly =>
          refine ⟨by simp [isDelimiter, Bracket.closer], ?_⟩
          simpa [bracesBehind, isDelimiter, Bracket.closer] using hfits
        | paren | square =>
          refine .cons (by simp [isDelimiter, Bracket.closer]) ?_
          simpa using hfits
    · obtain ⟨hdeep, kind, text, us, hdescribe, hus, rfl⟩ :=
        (ofLexemes_lexeme_eq_ok_iff hcomment hcloses).mp h
      have hfits := ih hls' hus
      -- a lexeme that opens a brace is deep enough for it: the braces are some of the open brackets
      by_cases hbrace : isDelimiter ⟨kind, String.ofList (pending ++ w), String.ofList text, start⟩ "\x7b"
      · have hraw (b : Bracket) (hb : l = .closer b) : (pending ++ w).getLast? = some b.closer := by
          rw [hls b w (hb ▸ List.mem_cons_self), List.getLast?_append]
          rfl
        have hopened : opened? l = some .curly :=
          (opens?_of_describe hdescribe hraw).symm.trans (opens?_eq_some_iff.mpr (.inr hbrace))
        rw [hopened] at hdeep hfits
        have hlength : opened.length < limit := by simpa using hdeep
        refine ⟨fun _ => Nat.lt_of_le_of_lt List.count_le_length hlength, ?_⟩
        rw [bracesBehind, if_pos hbrace]
        simpa using hfits
      · refine .cons hbrace (hfits.mono ?_)
        rw [List.count_append]
        exact Nat.le_add_left _ _

/-- In the tokens of a text braces are nested no deeper than the text's brackets may be. -/
theorem fits_of_ofText {text : String} (h : ofText limit text = .ok ts) : Fits limit 0 ts :=
  fits_of_ofLexemes (fun _ _ => Lexeme.raw_of_closer_mem) h

/-- The limit decides whether a text has tokens, but not which. -/
lemma ofLexemes_mono {limit' : Nat} (hle : limit ≤ limit') {opened : List Bracket}
    {pending : List Char} {start here : Location} {ls : List (Lexeme × List Char)}
    (h : ofLexemes limit opened pending start here ls = .ok ts) :
    ofLexemes limit' opened pending start here ls = .ok ts := by
  induction ls generalizing opened pending start here ts with
  | nil => rwa [ofLexemes] at h ⊢
  | cons l ls ih =>
    obtain ⟨l, w⟩ := l
    by_cases hcomment : l = .comment
    · subst hcomment
      rw [ofLexemes_comment] at h ⊢
      exact ih h
    by_cases hcloses : Closes opened l
    · rw [ofLexemes_closes hcloses, map_eq_ok_iff] at h ⊢
      obtain ⟨us, hus, rfl⟩ := h
      exact ⟨us, ih hus, rfl⟩
    · rw [ofLexemes_lexeme_eq_ok_iff hcomment hcloses] at h ⊢
      obtain ⟨hdeep, kind, text, us, hdescribe, hus, rfl⟩ := h
      exact ⟨fun hdeep' => hdeep ⟨hdeep'.1, Nat.le_trans hle hdeep'.2⟩, kind, text, us, hdescribe,
        ih hus, rfl⟩

end MapStyle.Token
