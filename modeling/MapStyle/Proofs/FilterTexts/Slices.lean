import Mathlib.Data.List.DropRight
import MapStyle.Proofs.Coverage.Tokens
import MapStyle.Proofs.FilterTexts.Spacing

/-!
# The text between the brackets of a filter

A reader puts the text of a filter together from tokens: each piece of white space becomes one blank, and
the comments in front of white space and of what closes a parenthesis are left out. What is read from
that is what is read from the text between the brackets, as long as no backslash comes to stand before
another character than it did.
-/

namespace MapStyle

namespace Text

variable {cs ds : List Char}

lemma isBlank_of_isSpace {c : Char} (h : Lexeme.isSpace c) : isBlank c := by
  have hcases : c = ' ' ∨ c = '\t' ∨ c = '\n' ∨ c = '\r' ∨ c = '\x0c' := by
    simpa [Lexeme.isSpace, Lexeme.isNewline, or_assoc] using h
  rcases hcases with rfl | rfl | rfl | rfl | rfl <;> decide

lemma trimChars_append (hds : ∀ c ∈ ds, isBlank c) : trimChars (cs ++ ds) = trimChars cs := by
  rw [trimChars, List.dropWhile_append]
  split
  · next hcs =>
    rw [trimChars, List.isEmpty_iff.mp hcs, List.dropWhile_eq_nil_iff.mpr hds]
  · have hreverse : ∀ c ∈ ds.reverse, isBlank c := fun c hc => hds c (List.mem_reverse.mp hc)
    rw [List.reverse_append, List.dropWhile_append_of_pos hreverse, trimChars]

lemma trimChars_append_left (hds : ∀ c ∈ ds, isBlank c) : trimChars (ds ++ cs) = trimChars cs := by
  rw [trimChars, List.dropWhile_append_of_pos hds, trimChars]

/-- Of a text that does not end with white space only white space at the start is trimmed. -/
lemma trimChars_eq_dropWhile (hspace : ∀ c ∈ cs, isBlank c → Lexeme.isSpace c)
    (hlast : ∀ c ∈ cs.getLast?, ¬ Lexeme.isSpace c) : trimChars cs = cs.dropWhile Lexeme.isSpace := by
  have hfront : ∀ c ∈ cs.takeWhile Lexeme.isSpace, isBlank c := fun c hc =>
    isBlank_of_isSpace (List.mem_takeWhile_imp hc)
  have hcs := List.takeWhile_append_dropWhile (p := Lexeme.isSpace) (l := cs)
  have hmem : ∀ c ∈ cs.dropWhile Lexeme.isSpace, c ∈ cs := fun c hc => (List.dropWhile_suffix _).mem hc
  rw [← hcs, trimChars_append_left hfront, hcs]
  refine trimChars_eq_self (fun c hc hblank => ?_) fun c hc hblank => ?_
  · have hnot := List.head?_dropWhile_not Lexeme.isSpace cs
    rw [Option.mem_def.mp hc] at hnot
    exact Bool.eq_false_iff.mp hnot (hspace c (hmem c (List.mem_of_head? hc)) hblank)
  · refine hlast c ?_ (hspace c (hmem c (List.mem_of_getLast? hc)) hblank)
    rw [← hcs, List.getLast?_append, Option.mem_def.mp hc]
    rfl

end Text

namespace Lexeme

variable {x y q cs : List Char} {l : Lexeme} {before comments ls : List (Lexeme × List Char)}

/-- A lone backslash in front of something is no part of a name. -/
lemma next_backslash (h : (next '\\' cs).raw = ['\\']) (hcs : cs ≠ []) :
    (next '\\' cs).value = .delimiter '\\' := by
  have hsign : ¬ StartsSign '\\' cs := by simp [StartsSign]
  have hnext := next_other (by decide) (by simp [startsNumber, startsDigits]) (by decide) hsign
  by_cases hname : startsName ('\\' :: cs)
  · have hnewline : ¬ startsNewline cs := by simpa [startsName] using hname
    have hraw : (name ('\\' :: cs)).raw <+: ['\\'] := by
      rw [hnext, if_pos hname] at h
      exact h ▸ raw_name_prefix_raw_wordLike ('\\' :: cs)
    rw [name_escape hnewline] at hraw
    have hescape := (List.cons_prefix_cons.mp hraw).2
    exact absurd (List.append_eq_nil_iff.mp (List.prefix_nil.mp hescape)).1 (raw_escape_ne_nil hcs)
  · rw [hnext, if_neg hname]

lemma eq_delimiter_of_raw_eq (h : ofText ('\\' :: cs) = (l, ['\\']) :: ofText cs) (hcs : cs ≠ []) :
    l = .delimiter '\\' := by
  rw [ofText_cons] at h
  obtain ⟨hvalue, hraw⟩ := Prod.mk.inj (List.cons.inj h).1
  exact hvalue.symm.trans (next_backslash hraw hcs)

namespace Respaced

/-- Fewer characters in front leave fewer escapes that a blank may become part of. -/
lemma of_suffix (h : Respaced y ls q) (hx : x <:+ y) : Respaced x ls q := by
  induction h generalizing x with
  | nil => exact .nil
  | @keep y q l ls hblank hslash h ih =>
    obtain ⟨u, rfl⟩ := hx
    exact .keep hblank hslash (ih ⟨u, (List.append_assoc ..).symm⟩)
  | blank h => exact .blank h
  | drop hcomments hne hbreak hhex h =>
    obtain ⟨u, rfl⟩ := hx
    exact .drop hcomments hne hbreak (fun hhead hends => hhex hhead (endsHex_append hends u)) h

lemma append_keep (hblank : ∀ l ∈ before, l.1 ≠ .blank) (hslash : ∀ l ∈ before, l.2 ≠ ['\\'])
    (h : Respaced (x ++ before.flatMap (·.2)) ls q) :
    Respaced x (before ++ ls) (before.flatMap (·.2) ++ q) := by
  induction before generalizing x with
  | nil => simpa using h
  | cons l before ih =>
    obtain ⟨hl, hblank⟩ := List.forall_mem_cons.mp hblank
    obtain ⟨hl', hslash⟩ := List.forall_mem_cons.mp hslash
    have htail := ih (x := x ++ l.2) hblank hslash (by simpa using h)
    rw [List.flatMap_cons, List.append_assoc]
    exact .keep hl hl' htail

/-- There may be no comments to be left out. -/
lemma append_drop (hcomments : ∀ c ∈ comments, c.1 = .comment) (hbreak : isBreak q)
    (hhex : comments ≠ [] → q.head? = some ' ' → ¬ endsHex x) (h : Respaced x ls q) :
    Respaced x (comments ++ ls) q := by
  by_cases hne : comments = []
  · rwa [hne, List.nil_append]
  · exact .drop hcomments hne hbreak (hhex hne) (h.of_suffix List.nil_suffix)

/-- A lexeme that stays keeps the comments in front of it. -/
lemma keep_behind {w : List Char} (hcomments : ∀ c ∈ comments, c.1 = .comment)
    (hmem : ∀ c ∈ comments, c ∈ ofText cs) (hblank : l ≠ .blank) (hw : w ≠ ['\\'])
    (h : Respaced (x ++ (comments.flatMap (·.2) ++ w)) ls q) :
    Respaced x (comments ++ (l, w) :: ls) (comments.flatMap (·.2) ++ w ++ q) := by
  have hall : ∀ m ∈ comments ++ [(l, w)], m.1 ≠ .blank ∧ m.2 ≠ ['\\'] := by
    refine List.forall_mem_append.mpr ⟨fun c hc => ⟨?_, ?_⟩, List.forall_mem_singleton.mpr ⟨hblank, hw⟩⟩
    · rw [hcomments c hc]
      nofun
    · exact raw_ne_backslash (hmem c hc) (.inr (hcomments c hc))
  have hkeep := append_keep (x := x) (q := q) (fun m hm => (hall m hm).1) (fun m hm => (hall m hm).2)
    (by simpa using h)
  simpa using hkeep

lemma eq_blank_or_mem (h : Respaced x ls q) : ∀ c ∈ q, c = ' ' ∨ c ∈ ls.flatMap (·.2) := by
  induction h with
  | nil => nofun
  | keep hblank hslash h ih => grind
  | blank h ih => grind
  | drop hcomments hne hbreak hhex h ih => grind

end Respaced

end Lexeme

namespace Token

open Grammar (bounds filterText)
open Lexeme (Respaced endsHex isSpace isSound)

/-! ### The text that a reader puts together -/

/-- What a token adds to the text of a filter. -/
def piece (t : Token) : List Char :=
  if t.isWhitespace then [' '] else t.raw.toList

lemma filterText_eq_ofList (inner : List Token) :
    filterText inner = String.ofList (Text.trimChars (inner.flatMap piece)) := by
  have hjoin : (String.join (inner.map fun t => if t.isWhitespace then " " else t.raw)).toList =
      inner.flatMap piece := by
    induction inner with
    | nil => rfl
    | cons t inner ih =>
      rw [List.map_cons, String.join_cons, String.toList_append, ih, List.flatMap_cons, piece]
      split <;> rfl
  rw [filterText, Text.trim, hjoin]

/-- No white space that comments are left out before stands behind an escape that goes on with a blank.
Given are the characters in front. -/
def KeepsEscapes : List Char → List Token → Prop
  | _, [] => True
  | x, t :: ts => (t.isWhitespace → t.raw.toList.head? = some '/' → ¬ endsHex x) ∧
      KeepsEscapes (x ++ t.raw.toList) ts

instance decidableKeepsEscapes : (x : List Char) → (ts : List Token) → Decidable (KeepsEscapes x ts)
  | _, [] => isTrue trivial
  | x, t :: ts =>
    have := decidableKeepsEscapes (x ++ t.raw.toList) ts
    inferInstanceAs (Decidable (_ ∧ _))

/-- The text of the tokens in a filter still says the same when its white space is collapsed: none of it
follows a backslash, is joined to an escape, or belongs to an escape at the end. -/
structure Collapses (inner : List Token) : Prop where
  not_backslash : ∀ t ∈ inner, ¬ t.isOperator "\\"
  keepsEscapes : KeepsEscapes [] inner
  last : ∀ t ∈ (inner.rdropWhile isWhitespace).getLast?, ¬ t.raw.toList.getLast?.any isSpace

instance (inner : List Token) : Decidable (Collapses inner) :=
  decidable_of_iff ((∀ t ∈ inner, ¬ t.isOperator "\\") ∧ KeepsEscapes [] inner ∧
      ∀ t ∈ (inner.rdropWhile isWhitespace).getLast?, ¬ t.raw.toList.getLast?.any isSpace)
    ⟨fun ⟨hslash, hescapes, hlast⟩ => ⟨hslash, hescapes, hlast⟩,
      fun h => ⟨h.not_backslash, h.keepsEscapes, h.last⟩⟩

variable {limit : Nat} {opened : List Bracket} {x pre cs raw text : List Char} {l : Lexeme}
  {kind : TokenKind} {t o u : Token} {ts us front inner blanks rest : List Token}

lemma mem_of_mem_rdropWhile (ht : t ∈ inner.rdropWhile isWhitespace) : t ∈ inner :=
  (List.rdropWhile_prefix isWhitespace inner).mem ht

lemma KeepsEscapes.of_append (h : KeepsEscapes x (ts ++ us)) : KeepsEscapes x ts := by
  induction ts generalizing x with
  | nil => trivial
  | cons t ts ih => exact ⟨h.1, ih h.2⟩

/-- A filter in a text: between its brackets stand the lexemes that its tokens are made of, and white
space and comments behind them. -/
structure IsFilter (pre cs : List Char) (o : Token) (inner : List Token) (u : Token)
    (ls gap : List (Lexeme × List Char)) (post : List Char) : Prop where
  text : cs = o.raw.toList ++ ((ls ++ gap).flatMap (·.2) ++ ']' :: post)
  opening : o.location = Location.behind pre
  closing : u.location = Location.behind (pre ++ o.raw.toList ++ (ls ++ gap).flatMap (·.2))
  bracket : u.raw.toList = [']']
  respaced : Respaced [] ls ((inner.rdropWhile isWhitespace).flatMap piece)
  blanks : ∀ l ∈ gap, l.1 = .blank ∨ l.1 = .comment
  sound : ∀ l ∈ ls ++ gap, isSound l.1
  lexemes : Lexeme.ofText ((ls ++ gap).flatMap (·.2) ++ ']' :: post) =
    ls ++ gap ++ Lexeme.ofText (']' :: post)

/-! ### Lexemes and tokens -/

lemma eq_blank_of_describe (h : describe raw l = .ok (.whitespace, text)) (hl : l ≠ .comment) :
    l = .blank := by
  cases l with
  | blank => rfl
  | comment => exact absurd rfl hl
  | _ => cases h

lemma piece_of_isWhitespace (ht : t.isWhitespace) : t.piece = [' '] :=
  if_pos ht

lemma piece_of_not_isWhitespace (ht : ¬ t.isWhitespace) : t.piece = t.raw.toList :=
  if_neg ht

namespace First

variable {opened' : List Bracket} {gap w q : List Char} {comments ls : List (Lexeme × List Char)}

lemma isOperator {c : Char} (h : First opened pre gap (.delimiter c) w t opened') :
    t.isOperator (String.ofList [c]) := by
  cases h with
  | closer hcloses =>
    obtain ⟨b, -, hb⟩ := Option.map_eq_some_iff.mp hcloses
    cases hb
  | other hcloses hdescribe =>
    cases hdescribe
    simp [Token.isOperator]

/-- In a filter a token keeps its lexeme and mostly the comments in front of it. -/
lemma respaced (h : First opened pre (comments.flatMap (·.2)) l w t opened')
    (hcomments : ∀ c ∈ comments, c.1 = .comment) (hmem : ∀ m ∈ comments ++ [(l, w)], m ∈ Lexeme.ofText cs)
    (hl : l ≠ .comment) (ht : ¬ bounds t) (hw : w ≠ ['\\'])
    (hescape : t.isWhitespace → t.raw.toList.head? = some '/' → ¬ endsHex x)
    (hls : Respaced (x ++ t.raw.toList) ls q) : Respaced x (comments ++ (l, w) :: ls) (t.piece ++ q) := by
  obtain ⟨hmem_comments, hmem_l⟩ := List.forall_mem_append.mp hmem
  have hmem_l : (l, w) ∈ Lexeme.ofText cs := hmem_l _ List.mem_cons_self
  -- a closer is a parenthesis: the other two bound the filter
  cases h with
  | closer hcloses =>
    obtain ⟨b, -, rfl⟩ := Option.map_eq_some_iff.mp hcloses
    obtain rfl := Lexeme.raw_of_closer_mem hmem_l
    rw [String.toList_ofList] at hls
    rw [piece_of_not_isWhitespace (by simp [isWhitespace]), String.toList_ofList]
    cases b with
    | paren =>
      refine .append_drop hcomments rfl (fun _ hhead => by cases hhead) ?_
      exact .keep (l := (.closer .paren, [')'])) (by simp) (by decide) hls
    | square | curly => exact absurd rfl ht
  | @other kind text hcloses hdescribe =>
    by_cases hblank : l = .blank
    · -- a blank is written anew as one; the comments in front of it would join an escape otherwise
      subst hblank
      cases hdescribe
      rw [piece_of_isWhitespace rfl]
      refine .append_drop hcomments rfl (fun hne _ => hescape rfl ?_) ?_
      · obtain ⟨⟨l, v⟩, comments, rfl⟩ := List.exists_cons_of_ne_nil hne
        obtain rfl : l = .comment := hcomments _ List.mem_cons_self
        obtain ⟨r, rfl⟩ := Lexeme.raw_of_comment_mem (hmem_comments _ List.mem_cons_self)
        simp
      · exact .blank (hls.of_suffix List.nil_suffix)
    · -- any other lexeme is kept with the comments in front of it
      have hspace : ¬ isWhitespace
          ⟨kind, String.ofList (comments.flatMap (·.2) ++ w), String.ofList text, Location.behind pre⟩ := by
        intro hspace
        obtain rfl := eq_of_beq hspace
        exact hblank (eq_blank_of_describe hdescribe hl)
      rw [String.toList_ofList] at hls
      rw [piece_of_not_isWhitespace hspace, String.toList_ofList]
      exact .keep_behind hcomments hmem_comments hblank hw hls

end First

namespace Rest

lemma ne_nil (h : Rest limit opened pre cs ts) (hts : ts ≠ []) : cs ≠ [] := by
  obtain ⟨t, ts, rfl⟩ := List.exists_cons_of_ne_nil hts
  obtain ⟨comments, l, w, cs', opened', -, -, -, htext, -⟩ := h.exists_first
  rintro rfl
  rw [Lexeme.ofText] at htext
  simp at htext

/-- Behind some tokens stand the others. -/
lemma exists_behind (h : Rest limit opened pre cs (front ++ ts)) :
    ∃ pre' cs' opened', pre ++ cs = pre' ++ cs' ∧ Rest limit opened' pre' cs' ts := by
  induction front generalizing opened pre cs with
  | nil => exact ⟨pre, cs, opened, rfl, h⟩
  | cons t front ih =>
    obtain ⟨comments, l, w, cs', opened', -, -, -, htext, -, hrest⟩ := h.exists_first
    obtain ⟨pre'', cs'', opened'', hsource, hbehind⟩ := ih hrest
    refine ⟨pre'', cs'', opened'', ?_, hbehind⟩
    rw [← hsource, Lexeme.eq_of_ofText htext]
    simp

lemma raw_ne_nil (h : Rest limit opened pre cs ts) : ∀ t ∈ ts, t.raw.toList ≠ [] := by
  intro t ht
  obtain ⟨front, us, rfl⟩ := List.append_of_mem ht
  obtain ⟨pre', cs', opened', -, hrest⟩ := h.exists_behind
  obtain ⟨comments, l, w, cs'', opened'', -, -, -, htext, hfirst, -⟩ := hrest.exists_first
  have hw : w ≠ [] := Lexeme.raw_ne_nil_of_mem (htext ▸ List.mem_append_right comments List.mem_cons_self)
  cases hfirst <;> simp [hw]

lemma exists_opener (h : Rest limit opened pre cs (o :: ts)) (hopen : o.isDelimiter "[") :
    o.location = Location.behind pre ∧
      ∃ cs' opened', cs = o.raw.toList ++ cs' ∧ Rest limit opened' (pre ++ o.raw.toList) cs' ts := by
  obtain ⟨comments, l, w, cs', opened', -, -, -, htext, hfirst, hrest⟩ := h.exists_first
  cases hfirst with
  | closer hcloses =>
    obtain ⟨b, -, rfl⟩ := Option.map_eq_some_iff.mp hcloses
    obtain rfl := Lexeme.raw_of_closer_mem (htext ▸ List.mem_append_right comments List.mem_cons_self)
    have hclose := eq_of_isDelimiter_ofList hopen
    cases b <;> cases hclose
  | other hcloses hdescribe =>
    rw [String.toList_ofList, ← List.append_assoc]
    exact ⟨rfl, cs', _, Lexeme.eq_of_ofText htext, hrest⟩

/-- A square bracket that is closed has at most comments before it that do not belong to it. -/
lemma exists_closer (h : Rest limit opened pre cs (u :: ts)) (hclose : u.isDelimiter "]") :
    u.raw.toList = [']'] ∧ ∃ comments cs', (∀ c ∈ comments, c.1 = .comment) ∧
      Lexeme.ofText cs = comments ++ (.closer .square, [']']) :: Lexeme.ofText cs' ∧
      u.location = Location.behind (pre ++ comments.flatMap (·.2)) := by
  obtain ⟨comments, l, w, cs', opened', hall, -, -, htext, hfirst, -⟩ := h.exists_first
  have hmem : (l, w) ∈ Lexeme.ofText cs := htext ▸ List.mem_append_right comments List.mem_cons_self
  cases hfirst with
  | closer hcloses =>
    obtain rfl := eq_of_isDelimiter_ofList hclose
    obtain ⟨b, -, rfl⟩ := Option.map_eq_some_iff.mp hcloses
    have hb := Lexeme.raw_of_closer_mem hmem
    obtain rfl : b = .square := by cases b <;> first | rfl | cases hb
    exact ⟨String.toList_ofList, comments, cs', hall, htext, rfl⟩
  | @other kind text hcloses hdescribe =>
    have hraw (b : Bracket) (hb : l = .closer b) :
        (comments.flatMap (·.2) ++ w).getLast? = some b.closer := by
      subst hb
      rw [Lexeme.raw_of_closer_mem hmem, List.getLast?_append]
      rfl
    have hl : l = .closer .square := eq_closer_of_describe hdescribe hraw (closes?_eq_some_iff.mpr hclose)
    subst hl
    obtain rfl := Lexeme.raw_of_closer_mem hmem
    -- a closer that does not fit says all that is written in it
    have htext' : comments.flatMap (·.2) ++ [']'] = text := by
      cases hdescribe
      rfl
    have hbracket := htext'.trans (eq_of_isDelimiter_ofList hclose)
    have hnone : comments.flatMap (·.2) = [] := by simpa using hbracket
    refine ⟨?_, comments, cs', hall, htext, ?_⟩
    · rw [String.toList_ofList, hnone]
      rfl
    · rw [hnone, List.append_nil]

/-- White space comes from blanks and the comments in front of them. -/
lemma exists_gap (h : Rest limit opened pre cs (blanks ++ ts)) (hblanks : ∀ t ∈ blanks, t.isWhitespace) :
    ∃ gap cs' opened', (∀ l ∈ gap, l.1 = .blank ∨ l.1 = .comment) ∧
      Lexeme.ofText cs = gap ++ Lexeme.ofText cs' ∧
      Rest limit opened' (pre ++ gap.flatMap (·.2)) cs' ts := by
  induction blanks generalizing opened pre cs with
  | nil => exact ⟨[], cs, opened, nofun, rfl, by simpa using h⟩
  | cons t blanks ih =>
    obtain ⟨ht, hblanks⟩ := List.forall_mem_cons.mp hblanks
    obtain ⟨comments, l, w, cs', opened', hall, -, hl, htext, hfirst, hrest⟩ := h.exists_first
    obtain ⟨gap, cs'', opened'', hgap, htext', hrest'⟩ := ih hrest hblanks
    have hblank : l = .blank := by
      cases hfirst with
      | closer => cases ht
      | other hcloses hdescribe =>
        obtain rfl := eq_of_beq ht
        exact eq_blank_of_describe hdescribe hl
    subst hblank
    refine ⟨comments ++ (.blank, w) :: gap, cs'', opened'', ?_, ?_, ?_⟩
    · refine List.forall_mem_append.mpr ⟨fun c hc => .inr (hall c hc), ?_⟩
      exact List.forall_mem_cons.mpr ⟨.inl rfl, hgap⟩
    · rw [htext, htext']
      simp
    · simpa using hrest'

/-- What stands between the brackets of a filter is written in its tokens with one blank for each piece
of white space and without some comments. -/
lemma exists_respaced (h : Rest limit opened pre cs (inner ++ us)) (hus : us ≠ [])
    (hinner : ∀ t ∈ inner, ¬ bounds t) (hslash : ∀ t ∈ inner, ¬ t.isOperator "\\")
    (hescapes : KeepsEscapes x inner) :
    ∃ ls cs' opened', Lexeme.ofText cs = ls ++ Lexeme.ofText cs' ∧ Respaced x ls (inner.flatMap piece) ∧
      Rest limit opened' (pre ++ ls.flatMap (·.2)) cs' us := by
  induction inner generalizing opened pre cs x with
  | nil => exact ⟨[], cs, opened, rfl, .nil, by simpa using h⟩
  | cons t inner ih =>
    obtain ⟨ht, hinner⟩ := List.forall_mem_cons.mp hinner
    obtain ⟨htslash, hslash⟩ := List.forall_mem_cons.mp hslash
    obtain ⟨comments, l, w, cs', opened', hall, -, hl, htext, hfirst, hrest⟩ := h.exists_first
    obtain ⟨ls, cs'', opened'', htext', hrespaced, hrest'⟩ := ih hrest hinner hslash hescapes.2
    have hw : w ≠ ['\\'] := by
      rintro rfl
      have hcs' : cs' ≠ [] := hrest.ne_nil (List.append_ne_nil_of_right_ne_nil inner hus)
      have hbehind : Lexeme.ofText ('\\' :: cs') = (l, ['\\']) :: Lexeme.ofText cs' := by
        have hflat := Lexeme.ofText_flatMap htext
        rwa [List.flatMap_cons, Lexeme.flatMap_raw_ofText] at hflat
      obtain rfl := Lexeme.eq_delimiter_of_raw_eq hbehind hcs'
      exact htslash hfirst.isOperator
    have hmem : ∀ m ∈ comments ++ [(l, w)], m ∈ Lexeme.ofText cs := fun m hm => by
      rw [htext, List.append_cons]
      exact List.mem_append_left _ hm
    refine ⟨comments ++ (l, w) :: ls, cs'', opened'', ?_, ?_, by simpa using hrest'⟩
    · rw [htext, htext']
      simp
    · exact hfirst.respaced hall hmem hl ht hw hescapes.1 hrespaced

/-- The tokens of a filter are those of the text between its brackets. -/
lemma exists_isFilter (h : Rest limit opened pre cs (o :: (inner ++ u :: rest))) (hopen : o.isDelimiter "[")
    (hclose : u.isDelimiter "]") (hinner : ∀ t ∈ inner, ¬ bounds t) (hcollapses : Collapses inner) :
    ∃ ls gap post, IsFilter pre cs o inner u ls gap post := by
  obtain ⟨hlocation, cs', opened', rfl, hinside⟩ := h.exists_opener hopen
  have hsplit : inner.rdropWhile isWhitespace ++ inner.rtakeWhile isWhitespace = inner :=
    List.rdropWhile_append_rtakeWhile
  have hescapes := hcollapses.keepsEscapes
  -- the blanks in front of the closing bracket are set apart: the text of the filter leaves them out
  rw [← hsplit] at hescapes
  rw [← hsplit, List.append_assoc] at hinside
  obtain ⟨ls, cs₁, opened₁, htext, hrespaced, hbehind⟩ := hinside.exists_respaced (by simp)
    (fun t ht => hinner t (mem_of_mem_rdropWhile ht))
    (fun t ht => hcollapses.not_backslash t (mem_of_mem_rdropWhile ht)) hescapes.of_append
  obtain ⟨gap, cs₂, opened₂, hgap, htext₁, hend⟩ := hbehind.exists_gap fun t => List.mem_rtakeWhile_imp
  obtain ⟨hraw, comments, post, hcomments, htext₂, hlocation'⟩ := hend.exists_closer hclose
  have hbracket : Lexeme.ofText (']' :: post) = (.closer .square, [']']) :: Lexeme.ofText post := by
    rw [Lexeme.ofText_cons]
    rfl
  -- the text in parts: the lexemes written anew, the blanks and comments behind them, the bracket
  have hall : Lexeme.ofText cs' = ls ++ (gap ++ comments) ++ Lexeme.ofText (']' :: post) := by
    rw [htext, htext₁, htext₂, hbracket]
    simp
  have hcs' : cs' = (ls ++ (gap ++ comments)).flatMap (·.2) ++ ']' :: post := by
    rw [← Lexeme.flatMap_raw_ofText cs', hall, List.flatMap_append, Lexeme.flatMap_raw_ofText]
  have hsound := isSound_of_ofLexemes hinside.tokens
  rw [hall] at hsound
  exact ⟨ls, gap ++ comments, post, {
    text := by rw [← hcs']
    opening := hlocation
    closing := by
      rw [hlocation']
      simp
    bracket := hraw
    respaced := hrespaced
    blanks := List.forall_mem_append.mpr ⟨hgap, fun c hc => .inr (hcomments c hc)⟩
    sound := fun l hl => hsound l (List.mem_append_left _ hl)
    lexemes := by rw [← hcs', hall] }⟩

end Rest

/-- White space behind the last token of a filter is trimmed. -/
lemma trimChars_flatMap_piece (hblanks : ∀ t ∈ blanks, t.isWhitespace) :
    Text.trimChars ((ts ++ blanks).flatMap piece) = Text.trimChars (ts.flatMap piece) := by
  rw [List.flatMap_append]
  refine Text.trimChars_append fun c hc => ?_
  obtain ⟨t, ht, hc⟩ := List.mem_flatMap.mp hc
  rw [piece_of_isWhitespace (hblanks t ht), List.mem_singleton] at hc
  exact hc ▸ by decide

/-- The last token of a filter that may be collapsed does not end with white space. -/
lemma Collapses.not_isSpace_getLast? (h : Collapses inner) (hraw : ∀ t ∈ inner, t.raw.toList ≠ []) :
    ∀ c ∈ ((inner.rdropWhile isWhitespace).flatMap piece).getLast?, ¬ isSpace c := by
  have hmem : ∀ t ∈ inner.rdropWhile isWhitespace, t ∈ inner := fun t => mem_of_mem_rdropWhile
  have hlast := h.last
  have hword := List.rdropWhile_last_not isWhitespace inner
  generalize inner.rdropWhile isWhitespace = body at hmem hlast hword ⊢
  obtain rfl | ⟨body, t, rfl⟩ := List.eq_nil_or_concat body
  · nofun
  · simp only [List.concat_eq_append] at hmem hlast hword ⊢
    have ht : ¬ t.isWhitespace := by simpa using hword (by simp)
    have hne := hraw t (hmem t (by simp))
    rw [List.flatMap_append, List.flatMap_singleton, piece_of_not_isWhitespace ht,
      List.getLast?_append_of_ne_nil _ hne]
    intro c hc hspace
    refine hlast t (by simp) ?_
    rw [Option.mem_def.mp hc]
    exact hspace

/-- The text of a filter that may be collapsed is trimmed at its start and of the white space behind its
last token. -/
lemma Collapses.filterText_eq (h : Collapses inner) (hraw : ∀ t ∈ inner, t.raw.toList ≠ [])
    (hspace : ∀ c ∈ (inner.rdropWhile isWhitespace).flatMap piece, Text.isBlank c → isSpace c) :
    filterText inner =
      String.ofList (((inner.rdropWhile isWhitespace).flatMap piece).dropWhile isSpace) := by
  have hsplit : inner.rdropWhile isWhitespace ++ inner.rtakeWhile isWhitespace = inner :=
    List.rdropWhile_append_rtakeWhile
  rw [filterText_eq_ofList]
  nth_rewrite 1 [← hsplit]
  rw [trimChars_flatMap_piece fun t => List.mem_rtakeWhile_imp,
    Text.trimChars_eq_dropWhile hspace (h.not_isSpace_getLast? hraw)]

/-- What is read from the text of a filter is what is read from the text between its brackets, if its
white space may be collapsed. -/
theorem toOption_parse_filterText {text : String}
    (h : ofText limit text = .ok (front ++ o :: (inner ++ u :: rest)))
    (hspace : ∀ c ∈ text.toList, Text.isBlank c → isSpace c) (hopen : o.isDelimiter "[")
    (hclose : u.isDelimiter "]") (hinner : ∀ t ∈ inner, ¬ bounds t) (hcollapses : Collapses inner) :
    ∃ pre slice post, text.toList = pre ++ o.raw.toList ++ slice ++ u.raw.toList ++ post ∧
      o.location = Location.behind pre ∧ u.location = Location.behind (pre ++ o.raw.toList ++ slice) ∧
      (Cql.Expr.parse (filterText inner)).toOption = (Cql.Expr.parse (String.ofList slice)).toOption := by
  have hstart : Rest limit [] [] text.toList (front ++ o :: (inner ++ u :: rest)) :=
    ⟨h, fun hlast => by cases hlast⟩
  obtain ⟨pre, cs, opened, hsource, hrest⟩ := hstart.exists_behind
  obtain ⟨ls, gap, post, hfilter⟩ := hrest.exists_isFilter hopen hclose hinner hcollapses
  have htext : text.toList = pre ++ (o.raw.toList ++ ((ls ++ gap).flatMap (·.2) ++ ']' :: post)) := by
    rw [← hfilter.text, ← hsource, List.nil_append]
  refine ⟨pre, (ls ++ gap).flatMap (·.2), post, ?_, hfilter.opening, hfilter.closing, ?_⟩
  · rw [htext, hfilter.bracket]
    simp
  have hblank : ∀ c ∈ (inner.rdropWhile isWhitespace).flatMap piece, Text.isBlank c → isSpace c := by
    intro c hc hblank
    obtain rfl | hc := hfilter.respaced.eq_blank_or_mem c hc
    · rfl
    · refine hspace c ?_ hblank
      rw [htext, List.flatMap_append]
      simp only [List.mem_append, hc, true_or, or_true]
  have htail : Lexeme.IsTail (']' :: post) :=
    ⟨by simp, by simp [Lexeme.isLone], Lexeme.address?_cons_ne_none (by decide) (by decide) (by decide)⟩
  rw [hcollapses.filterText_eq (fun t ht => hstart.raw_ne_nil t (by simp [ht])) hblank]
  exact Cql.Expr.toOption_parse_respaced hfilter.respaced hfilter.blanks hfilter.lexemes htail hfilter.sound

end Token

end MapStyle
