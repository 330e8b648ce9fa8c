import MapStyle.Proofs.Expressions.Acceptance
import MapStyle.Proofs.Expressions.Prefixes
import MapStyle.Proofs.FilterTexts.Spacing

/-!
# Blanks before groups

Between a word that joins or negates tests and the parenthesis of a group, one blank is as good as many, and
none is an error (`parse_gap_iff`): the word and the parenthesis are then read as the start of a function, and
no expression has functions.
-/

namespace MapStyle

namespace Lexeme

variable {c : Char} {x y cs raw : List Char} {w : String}

/-! ### Words -/

lemma next_wordLike (hstarts : startsName (c :: cs)) (hc : c ≠ '-') : next c cs = wordLike (c :: cs) := by
  have hspecial : c ∉ specials := by
    obtain h | rfl | ⟨rfl, -⟩ := isNameStart_of_startsName hstarts
    · intro hmem
      simp only [specials, List.mem_cons, List.not_mem_nil, or_false] at hmem
      rcases hmem with rfl | rfl | rfl | rfl | rfl | rfl | rfl | rfl | rfl | rfl | rfl | rfl | rfl | rfl | rfl |
        rfl | rfl | rfl <;> cases h
    · decide
    · exact absurd rfl hc
  have hsign : ¬ StartsSign c cs := by
    rintro (⟨rfl, -⟩ | ⟨rfl, -⟩ | ⟨rfl, -⟩)
    · cases hstarts
    · cases hstarts
    · exact hc rfl
  rw [next_other (not_isSpace_of_startsName hstarts) (not_startsNumber_of_startsName hstarts) hspecial hsign,
    if_pos hstarts]

lemma numeric_ne_word (cs : List Char) : (numeric cs).value ≠ word w := by
  unfold numeric
  dsimp only
  split
  · nofun
  · split <;> nofun

lemma hashLike_ne_word (cs : List Char) : (hashLike cs).value ≠ word w := by
  unfold hashLike
  dsimp only
  split
  · nofun
  · split
    · split <;> nofun
    · nofun

lemma atLike_ne_word (cs : List Char) : (atLike cs).value ≠ word w := by
  unfold atLike
  split <;> nofun

lemma quoted_ne_word (quote : Char) (cs : List Char) : (quoted quote cs).value ≠ word w := by
  unfold quoted
  obtain ⟨⟨closed, value⟩, raw, rest⟩ := stringBody quote cs
  cases closed <;> nofun

lemma matcherLike_ne_word (c : Char) (cs : List Char) : (matcherLike c cs).value ≠ word w := by
  unfold matcherLike
  split <;> nofun

/-- Only the scanner of names reads words. -/
lemma next_of_word : (next c cs).value = word w → startsName (c :: cs) ∧ next c cs = wordLike (c :: cs) := by
  unfold next
  split
  · nofun
  split
  · exact fun h => absurd h (numeric_ne_word _)
  split
  case h_4 | h_5 => exact fun h => absurd h (quoted_ne_word _ _)
  case h_6 => exact fun h => absurd h (hashLike_ne_word _)
  case h_7 => exact fun h => absurd h (atLike_ne_word _)
  case h_17 | h_18 | h_19 | h_20 | h_21 => exact fun h => absurd h (matcherLike_ne_word _ _)
  case h_22 =>
    split
    · next hstarts => exact fun _ => ⟨hstarts, rfl⟩
    · nofun
  all_goals nofun

/-- A word is the name that was read. -/
lemma next_of_word_name (h : (next c cs).value = word w) :
    String.ofList (name (c :: cs)).value = w ∧ (next c cs).raw = (name (c :: cs)).raw := by
  have hnext := (next_of_word h).2
  rw [hnext] at h ⊢
  have hparen : (name (c :: cs)).rest.head? ≠ some '(' := fun hparen =>
    not_isPart_wordLike hparen (by rw [h]; rfl)
  rw [wordLike_word hparen] at h ⊢
  exact ⟨word.inj h, rfl⟩

/-- A name has no more characters than its text. -/
lemma length_value_name_le (cs : List Char) : (name cs).value.length ≤ (name cs).raw.length := by
  fun_induction name cs with
  | case1 => exact Nat.le_refl 0
  | case2 c cs hc ih => exact Nat.succ_le_succ ih
  | case3 cs hc ih => exact Nat.succ_le_succ ih
  | case4 c cs hc hnul hslash e ih =>
    simp only [Piece.map, Piece.after, List.length_cons, List.length_append] at ih ⊢
    omega
  | case5 => exact Nat.le_refl 0

/-! ### Names before a parenthesis -/

variable {b : List Char}

lemma takeWhile_append_cons {p : Char → Bool} (hc : ¬ p c) : (x ++ c :: y).takeWhile p = x.takeWhile p := by
  induction x with
  | nil => exact List.takeWhile_cons_of_neg hc
  | cons d x ih =>
    by_cases hd : p d
    · rw [List.cons_append, List.takeWhile_cons_of_pos hd, List.takeWhile_cons_of_pos hd, ih]
    · rw [List.cons_append, List.takeWhile_cons_of_neg hd, List.takeWhile_cons_of_neg hd]

lemma oneBlank_paren (x b : List Char) : oneBlank (x ++ '(' :: b) = (oneBlank x).extend ('(' :: b) := by
  refine Piece.eq_extend (source_oneBlank x) (source_oneBlank _) rfl ?_
  match x with
  | [] => rfl
  | [c] => simp [raw_oneBlank_cons]
  | c :: d :: x =>
    rw [List.cons_append, List.cons_append, raw_oneBlank_cons, raw_oneBlank_cons]
    rfl

lemma escape_paren (hx : x ≠ []) (b : List Char) :
    escape (x ++ '(' :: b) = (escape x).extend ('(' :: b) := by
  obtain ⟨c, x, rfl⟩ := List.exists_cons_of_ne_nil hx
  by_cases hc : isHexDigit c
  · have hdigits : hexDigits (c :: x ++ '(' :: b) = hexDigits (c :: x) :=
      congrArg (List.take 6) (takeWhile_append_cons (by decide))
    have hlength : (hexDigits (c :: x)).length ≤ (c :: x).length :=
      ((List.take_prefix _ _).trans (List.takeWhile_prefix _)).length_le
    rw [List.cons_append, escape_hex hc, ← List.cons_append, hdigits, List.drop_append_of_le_length hlength,
      oneBlank_paren, escape_hex hc]
    rfl
  · rw [List.cons_append, escape_other hc, escape_other hc]
    rfl

/-- A name ends before a parenthesis, unless that is escaped. -/
lemma name_paren (x b : List Char) (h : replacement ∉ (name x).value) :
    name (x ++ '(' :: b) = (name x).extend ('(' :: b) := by
  match x with
  | [] =>  -- the parenthesis is no part of a name
    rw [List.nil_append, name_end (by decide) (by decide) fun hc => absurd hc (by decide), name]
    rfl
  | c :: x =>
    by_cases hc : isNameChar c
    · rw [name_char hc] at h ⊢
      rw [List.cons_append, name_char hc, name_paren x b fun hmem => h (List.mem_cons_of_mem _ hmem)]
      rfl
    -- a NUL is read as the replacement character, which the name does not hold
    by_cases hnul : c = '\x00'
    · subst hnul
      rw [name_nul] at h
      exact absurd List.mem_cons_self h
    -- the name ends here, and a backslash that ends it is not the last character
    by_cases hslash : c = '\\' → startsNewline x
    · have hslash' : c = '\\' → startsNewline (x ++ '(' :: b) := by
        intro hc'
        obtain ⟨d, x, rfl⟩ := List.exists_cons_of_ne_nil (l := x) fun hnil => by
          have hline := hslash hc'
          rw [hnil] at hline
          cases hline
        exact hslash hc'
      rw [List.cons_append, name_end hc hnul hslash', name_end hc hnul hslash]
      rfl
    · -- an escape, which is not at the end either: it would be read as the replacement character
      rw [Classical.not_imp] at hslash
      obtain ⟨rfl, hslash⟩ := hslash
      rw [name_escape hslash] at h ⊢
      have hx : x ≠ [] := by
        rintro rfl
        exact h List.mem_cons_self
      have hlt : (escape x).rest.length < ('\\' :: x).length :=
        Nat.lt_succ_of_le (Piece.rest_length_le (source_escape x))
      have hslash' : ¬ startsNewline (x ++ '(' :: b) := by rwa [startsNewline_extend hx]
      rw [List.cons_append, name_escape hslash', escape_paren hx, Piece.extend,
        name_paren _ b fun hmem => h (List.mem_cons_of_mem _ hmem)]
      rfl
termination_by x.length
decreasing_by all_goals first | exact hlt | exact Nat.lt_succ_self _

/-- A word that joins tests or negates one. -/
def IsJunctor (w : String) : Prop :=
  ∃ keyword ∈ ["and", "or", "not"], Text.sameWord w keyword

/-- The letters of the three words. -/
def junctors : List (List Char) :=
  [['a', 'n', 'd'], ['o', 'r'], ['n', 'o', 't']]

/-- Such a word is one of the three up to the case of its letters. -/
lemma IsJunctor.mem_junctors (hw : IsJunctor w) : w.toList.map Char.toLower ∈ junctors := by
  obtain ⟨keyword, hmem, hsame⟩ := hw
  rw [Text.sameWord_eq, beq_iff_eq] at hsame
  rw [hsame]
  simp only [List.mem_cons, List.not_mem_nil, or_false] at hmem
  obtain rfl | rfl | rfl := hmem <;> decide

lemma IsJunctor.two_le (hw : IsJunctor w) : 2 ≤ w.toList.length := by
  have hlength : ∀ letters ∈ junctors, 2 ≤ letters.length := by decide
  rw [← List.length_map Char.toLower]
  exact hlength _ hw.mem_junctors

lemma IsJunctor.not_mem (hw : IsJunctor w) {d : Char} (hd : ∀ letters ∈ junctors, d.toLower ∉ letters) :
    d ∉ w.toList :=
  fun hmem => hd _ hw.mem_junctors (List.mem_map_of_mem hmem)

/-- Such a word fills at least two characters. -/
lemma IsJunctor.two_le_raw (hw : IsJunctor w) (hmem : (word w, raw) ∈ ofText cs) : 2 ≤ raw.length := by
  obtain ⟨c, ds, hl⟩ := exists_next_of_mem hmem
  obtain ⟨hvalue, rfl⟩ := Prod.mk.inj hl
  obtain ⟨rfl, hraw⟩ := next_of_word_name hvalue.symm
  have hle := length_value_name_le (c :: ds)
  have htwo := hw.two_le
  rw [String.toList_ofList] at htwo
  rw [hraw]
  exact Nat.le_trans htwo hle

/-- Directly before a parenthesis such a word is none. -/
lemma IsJunctor.not_isPart_paren (hw : IsJunctor w) (h : ofText raw = [(word w, raw)]) (b : List Char) :
    ∃ l ∈ ofText (raw ++ '(' :: b), ¬ isPart l.1 := by
  have hmem : (word w, raw) ∈ ofText raw := by
    rw [h]
    exact List.mem_singleton_self _
  have htwo := hw.two_le_raw hmem
  obtain ⟨c, r, rfl⟩ := List.exists_cons_of_ne_nil (ne_nil_of_two_le htwo)
  rw [ofText_cons] at h
  obtain ⟨hvalue, hraw⟩ := Prod.mk.inj (List.cons.inj h).1
  obtain ⟨rfl, hname⟩ := next_of_word_name hvalue
  have hstarts := (next_of_word hvalue).1
  have hsource : (name (c :: r)).raw ++ (name (c :: r)).rest = c :: r := source_name _
  have hrest : (name (c :: r)).rest = [] := by
    rw [← hname, hraw] at hsource
    exact List.append_right_eq_self.mp hsource
  have hmem : replacement ∉ (name (c :: r)).value := by
    have hnot := hw.not_mem (d := replacement) (by decide)
    rwa [String.toList_ofList] at hnot
  -- none of the words holds a hyphen, so the first character starts a name and no number
  have hhyphen : c ≠ '-' := by
    rintro rfl
    have hnot := hw.not_mem (d := '-') (by decide)
    rw [String.toList_ofList, name_char (by decide)] at hnot
    exact hnot List.mem_cons_self
  -- the name ends at the parenthesis, and is a function now
  have hparen := name_paren (c :: r) b hmem
  have hstarts' : startsName (c :: (r ++ '(' :: b)) := by
    rw [← List.cons_append, startsName_extend htwo]
    exact hstarts
  rw [List.cons_append] at hparen ⊢
  rw [ofText_cons, next_wordLike hstarts' hhyphen]
  refine ⟨_, List.mem_cons_self, not_isPart_wordLike ?_⟩
  rw [hparen, Piece.extend, hrest]
  rfl

end Lexeme

namespace Cql

open Lexeme (isPart)

variable {m : Mark} {ms : List Mark} {ts us : List Tree} {e : Expr} {text : String}

/-! ### What expressions are made of -/

mutual

/-- The lexemes of a tree that are no parentheses around a group. -/
def Tree.leaves : Tree → List Mark
  | .leaf m => [m]
  | .group ts => leavesList ts

/-- The lexemes of the trees of a list. -/
def Tree.leavesList : List Tree → List Mark
  | [] => []
  | t :: ts => t.leaves ++ leavesList ts

end

namespace Tree

@[simp] lemma leavesList_append (ts us : List Tree) :
    leavesList (ts ++ us) = leavesList ts ++ leavesList us := by
  induction ts with
  | nil => rfl
  | cons t ts ih => simp only [List.cons_append, leavesList, ih, List.append_assoc]

@[simp] lemma leavesList_leaves (ms : List Mark) : leavesList (ms.map .leaf) = ms := by
  induction ms with
  | nil => rfl
  | cons m ms ih => rw [List.map_cons, leavesList, ih, leaves, List.singleton_append]

/-- A lexeme is a leaf or a parenthesis. -/
lemma Closed.mem_leaves (h : Closed ms ts) (hm : m ∈ ms) :
    m ∈ leavesList ts ∨ m.lexeme = .opener .paren ∨ m.lexeme = .closer .paren := by
  induction h with
  | nil => cases hm
  | leaf hopen hclose h ih =>
    obtain rfl | hm := List.mem_cons.mp hm
    · exact .inl List.mem_cons_self
    · exact (ih hm).imp_left (List.mem_cons_of_mem _)
  | group hopen hinner hclose h ih ih' =>
    simp only [List.mem_cons, List.mem_append] at hm
    obtain rfl | hm | rfl | hm := hm
    · exact .inr (.inl hopen)
    · exact (ih hm).imp_left (List.mem_append_left _)
    · exact .inr (.inr hclose)
    · exact (ih' hm).imp_left (List.mem_append_right _)

lemma Forms.mem_leaves {inside : Bool} (h : Forms inside ms ts) (hm : m ∈ ms) :
    m ∈ leavesList ts ∨ m.lexeme = .opener .paren ∨ m.lexeme = .closer .paren := by
  induction h with
  | nil => cases hm
  | leaf hopen hclose h ih =>
    obtain rfl | hm := List.mem_cons.mp hm
    · exact .inl List.mem_cons_self
    · exact (ih hm).imp_left (List.mem_cons_of_mem _)
  | group hopen hinner hclose h ih =>
    simp only [List.mem_cons, List.mem_append] at hm
    obtain rfl | hm | rfl | hm := hm
    · exact .inr (.inl hopen)
    · exact (hinner.mem_leaves hm).imp_left (List.mem_append_left _)
    · exact .inr (.inr hclose)
    · exact (ih hm).imp_left (List.mem_append_right _)
  | unfinished hopen h ih =>
    obtain rfl | hm := List.mem_cons.mp hm
    · exact .inr (.inl hopen)
    · exact (ih hm).imp_left (List.mem_append_left _)

end Tree

namespace Grammar

open Cql.Tree (leavesList)

lemma isPart_of_isKeyword {keyword : String} (h : m.isKeyword keyword) : isPart m.lexeme := by
  obtain ⟨w, hw, -⟩ := isKeyword_iff.mp h
  rw [hw]
  rfl

lemma IsOperand.isPart {o : Operand} (h : IsOperand m o) : isPart m.lexeme := by
  obtain ⟨w, h⟩ | ⟨s, h⟩ | ⟨n, h⟩ | ⟨name, h | h⟩ := h.lexeme_eq <;> rw [h] <;> rfl

lemma IsComparator.isPart {signs : List Mark} {op : Comparator} (h : IsComparator signs op) :
    ∀ m ∈ signs, isPart m.lexeme := by
  cases h with
  | single h => simp [h, Lexeme.isPart]
  | double h h' => simp [h, h', Lexeme.isPart]

mutual

lemma Item.isPart {ts : List Tree} {e : Expr} (h : Item ts e) : ∀ m ∈ leavesList ts, isPart m.lexeme := by
  match h with
  | .not hnot h =>
    exact List.forall_mem_cons.mpr ⟨isPart_of_isKeyword hnot, h.isPart⟩
  | .group h he =>
    simpa [leavesList, Tree.leaves] using h.isPart
  | .isNull hfirst ho his hnull =>
    simp [leavesList, Tree.leaves, ho.isPart, isPart_of_isKeyword his, isPart_of_isKeyword hnull]
  | .isNotNull hfirst ho his hnot hnull =>
    simp [leavesList, Tree.leaves, ho.isPart, isPart_of_isKeyword his, isPart_of_isKeyword hnull,
      isPart_of_isKeyword hnot]
  | .compare hfirst hleft hop hright =>
    rw [leavesList, Tree.leaves, List.singleton_append, Tree.leavesList_append, Tree.leavesList_leaves]
    refine List.forall_mem_cons.mpr ⟨hleft.isPart, ?_⟩
    exact List.forall_mem_append.mpr ⟨hop.isPart, List.forall_mem_singleton.mpr hright.isPart⟩

lemma Conjunction.isPart {ts : List Tree} {es : List Expr} (h : Conjunction ts es) :
    ∀ m ∈ leavesList ts, isPart m.lexeme := by
  match h with
  | .last h => exact h.isPart
  | .more h hand hmore =>
    rw [Tree.leavesList_append]
    refine List.forall_mem_append.mpr ⟨h.isPart, ?_⟩
    exact List.forall_mem_cons.mpr ⟨isPart_of_isKeyword hand, hmore.isPart⟩

lemma Disjunction.isPart {ts : List Tree} {es : List Expr} (h : Disjunction ts es) :
    ∀ m ∈ leavesList ts, isPart m.lexeme := by
  match h with
  | .last h he => exact h.isPart
  | .more h he hor hmore =>
    rw [Tree.leavesList_append]
    refine List.forall_mem_append.mpr ⟨h.isPart, ?_⟩
    exact List.forall_mem_cons.mpr ⟨isPart_of_isKeyword hor, hmore.isPart⟩

end

end Grammar

/-- The lexemes of a text carry meaning, or they are white space and comments. -/
lemma Mark.exists_mem_ofLexemes {l : Lexeme × List Char} {ls : List (Lexeme × List Char)} (b : Bool)
    (hl : l ∈ ls) : l.1 = .blank ∨ l.1 = .comment ∨ ∃ m ∈ ofLexemes b ls, m.lexeme = l.1 := by
  induction ls generalizing b with
  | nil => cases hl
  | cons k ls ih =>
    obtain rfl | hmem := List.mem_cons.mp hl
    · by_cases hblank : l.1 = .blank
      · exact .inl hblank
      by_cases hcomment : l.1 = .comment
      · exact .inr (.inl hcomment)
      rw [ofLexemes_of_ne hblank hcomment]
      exact .inr (.inr ⟨_, List.mem_cons_self, rfl⟩)
    · obtain ⟨lexeme, raw⟩ := k
      cases lexeme with
      | blank => exact ih true hmem
      | comment => exact ih b hmem
      | _ =>
        refine (ih false hmem).imp_right (Or.imp_right ?_)
        rintro ⟨m, hm, hlexeme⟩
        exact ⟨m, List.mem_cons_of_mem _ hm, hlexeme⟩

/-- Expressions have no lexemes but their parts. -/
lemma Expr.isPart_of_parse (h : parse text = .ok e) : ∀ l ∈ Lexeme.ofText text.toList, isPart l.1 := by
  intro l hl
  obtain ⟨ts, hforms, ⟨hdisjunction, -⟩⟩ := reads_iff.mpr h
  obtain hblank | hcomment | ⟨m, hm, hlexeme⟩ := Mark.exists_mem_ofLexemes false hl
  · rw [hblank]
    rfl
  · rw [hcomment]
    rfl
  · rw [← hlexeme]
    obtain hm | hopen | hclose := hforms.mem_leaves hm
    · exact hdisjunction.isPart m hm
    · rw [hopen]
      rfl
    · rw [hclose]
      rfl

/-! ### Blanks between a word and a group -/

section

variable {before behind : List (Lexeme × List Char)} {w : String} {raw gap : List Char}

lemma isSound_of_isPart {l : Lexeme} (h : isPart l) : Lexeme.isSound l := by
  cases l <;> first | rfl | cases h

/-- What stands in front of a gap is not changed by what stands behind it. -/
lemma ofText_gap {q : List Char} (hw : Lexeme.IsJunctor w) (hparts : ∀ l ∈ before, isPart l.1)
    (hcut : Lexeme.ofText text.toList = before ++ [(Lexeme.word w, raw)] ++ (.blank, gap) :: behind)
    (hq : q = [] ∨ ∃ q', q = ' ' :: q') :
    Lexeme.ofText ((before ++ [(Lexeme.word w, raw)]).flatMap (·.2) ++ q) =
      before ++ [(Lexeme.word w, raw)] ++ Lexeme.ofText q := by
  have htext : text.toList = (before ++ [(Lexeme.word w, raw)]).flatMap (·.2) ++
      (gap ++ behind.flatMap (·.2)) := by
    rw [← Lexeme.flatMap_raw_ofText text.toList, hcut, List.flatMap_append, List.flatMap_cons]
  have hblank : (.blank, gap) ∈ Lexeme.ofText text.toList := by simp [hcut]
  obtain ⟨hne, hgap⟩ := Lexeme.raw_of_blank_mem hblank
  obtain ⟨c, gap, rfl⟩ := List.exists_cons_of_ne_nil hne
  have hc : Lexeme.isSpace c := hgap c List.mem_cons_self
  have hword : (.word w, raw) ∈ Lexeme.ofText text.toList := by simp [hcut]
  have hraw : 2 ≤ raw.length := hw.two_le_raw hword
  rw [htext] at hcut
  -- the blank of the gap is exchanged for `q`, which is empty or starts with a blank as well
  refine Lexeme.ofText_swap hcut rfl ⟨by simp, ?_, ?_, ?_⟩ (.inl ?_) ?_ ?_ ?_
  · have hslash : c ≠ '\\' := by
      rintro rfl
      cases hc
    simp [Lexeme.isLone, hslash]
  · obtain rfl | ⟨q', rfl⟩ := hq <;> rfl
  · rintro d hd -
    obtain rfl | ⟨q', rfl⟩ := hq
    · cases hd
    · cases hd
      exact ⟨rfl, .inl ⟨c, rfl, hc⟩⟩
  · intro l hl
    rw [List.getLast?_concat] at hl
    cases hl
    exact Lexeme.noConfusion
  · refine List.forall_mem_append.mpr ⟨fun l hl => isSound_of_isPart (hparts l hl), ?_⟩
    exact List.forall_mem_singleton.mpr rfl
  · -- the word is no lone minus sign, which would join what is behind it
    intro l hl hminus
    rw [List.getLast?_concat] at hl
    cases hl
    subst hminus
    exact Nat.not_succ_le_self 1 hraw
  · -- the word is no call of `url`, whose address would go on behind the gap
    have hlast : (before ++ [(Lexeme.word w, raw)]).filter (·.1 ≠ .blank) =
        before.filter (·.1 ≠ .blank) ++ [(.word w, raw)] := by
      rw [List.filter_append]
      rfl
    intro l hl hurl
    rw [hlast, List.getLast?_concat] at hl
    cases hl
    cases hurl

/-- The characters of white space carry no meaning. -/
lemma Mark.ofLexemes_congr {ls ms : List (Lexeme × List Char)} (h : ∀ b, ofLexemes b ls = ofLexemes b ms)
    (before : List (Lexeme × List Char)) (b : Bool) :
    ofLexemes b (before ++ ls) = ofLexemes b (before ++ ms) := by
  induction before generalizing b with
  | nil => exact h b
  | cons l before ih =>
    obtain ⟨lexeme, raw⟩ := l
    cases lexeme with
    | blank => exact ih true
    | comment => exact ih b
    | _ => exact congrArg (List.cons _) (ih false)

lemma ok_of_toOption {α ε : Type} {x : Except ε α} {a : α} (h : x.toOption = some a) : x = .ok a := by
  cases x with
  | error e => cases h
  | ok b => rw [Option.some.inj h]

/-- A text with some number of blanks in front of a parenthesis. -/
def withGap (before : List (Lexeme × List Char)) (n : Nat) (behind : List (Lexeme × List Char)) : String :=
  String.ofList (before.flatMap (·.2) ++ (List.replicate n ' ' ++ '(' :: behind.flatMap (·.2)))

/-- With some blanks in the gap the text is the same expression. -/
lemma parse_withGap (hw : Lexeme.IsJunctor w) (h : Expr.parse text = .ok e)
    (hcut : Lexeme.ofText text.toList =
      before ++ [(Lexeme.word w, raw)] ++ (.blank, gap) :: (.opener .paren, ['(']) :: behind) (n : Nat) :
    Expr.parse (withGap (before ++ [(.word w, raw)]) (n + 1) behind) = .ok e := by
  have hparts : ∀ l ∈ before, isPart l.1 := fun l hl => Expr.isPart_of_parse h l (by simp [hcut, hl])
  have hbehind : Lexeme.ofText ('(' :: behind.flatMap (·.2)) = (.opener .paren, ['(']) :: behind :=
    @Lexeme.ofText_flatMap _ [(.blank, gap)] _ (Lexeme.ofText_flatMap hcut)
  have hblanks : Lexeme.ofText (List.replicate (n + 1) ' ' ++ '(' :: behind.flatMap (·.2)) =
      (.blank, List.replicate (n + 1) ' ') :: (.opener .paren, ['(']) :: behind := by
    rw [Lexeme.ofText_blanks (by simp) (by simp [Lexeme.isSpace]) (by rintro _ ⟨⟩; decide), hbehind]
  have hgap : Lexeme.ofText ((before ++ [(Lexeme.word w, raw)]).flatMap (·.2) ++
      (List.replicate (n + 1) ' ' ++ '(' :: behind.flatMap (·.2))) = before ++ [(Lexeme.word w, raw)] ++
        (.blank, List.replicate (n + 1) ' ') :: (.opener .paren, ['(']) :: behind := by
    rw [← hblanks]
    exact ofText_gap hw hparts hcut (.inr ⟨_, rfl⟩)
  have hblank (b : Bool) : Mark.ofLexemes b
      ((.blank, List.replicate (n + 1) ' ') :: (.opener .paren, ['(']) :: behind) =
        Mark.ofLexemes b ((.blank, gap) :: (.opener .paren, ['(']) :: behind) := rfl
  have hparse : (Expr.parse (withGap (before ++ [(.word w, raw)]) (n + 1) behind)).toOption =
      (Expr.parse (String.ofList text.toList)).toOption := by
    rw [withGap, Expr.toOption_parse, Expr.toOption_parse, hcut, ← Mark.ofLexemes_congr hblank, ← hgap]
  rw [String.ofList_toList, h] at hparse
  exact ok_of_toOption hparse

/-- Without a gap the text is no expression. -/
lemma parse_withoutGap_ne_ok (hw : Lexeme.IsJunctor w) (h : Expr.parse text = .ok e)
    (hcut : Lexeme.ofText text.toList =
      before ++ [(Lexeme.word w, raw)] ++ (.blank, gap) :: (.opener .paren, ['(']) :: behind) (f : Expr) :
    Expr.parse (withGap (before ++ [(.word w, raw)]) 0 behind) ≠ .ok f := by
  intro hf
  have hparts : ∀ l ∈ before, isPart l.1 := fun l hl => Expr.isPart_of_parse h l (by simp [hcut, hl])
  have hword : Lexeme.ofText ((before ++ [(Lexeme.word w, raw)]).flatMap (·.2)) =
      before ++ [(Lexeme.word w, raw)] := by
    have hgap := ofText_gap hw hparts hcut (.inl rfl)
    rwa [Lexeme.ofText, List.append_nil, List.append_nil] at hgap
  have hraw : Lexeme.ofText raw = [(Lexeme.word w, raw)] := by
    have hbehind := Lexeme.ofText_flatMap hword
    rwa [List.flatMap_singleton] at hbehind
  have hmem : (Lexeme.word w, raw) ∈ Lexeme.ofText raw := by
    rw [hraw]
    exact List.mem_singleton_self _
  have htwo : 2 ≤ raw.length := hw.two_le_raw hmem
  have hmarkup : raw ≠ ['!', '-'] := by
    rintro rfl
    rw [Lexeme.ofText_cons] at hraw
    have hstarts := (Lexeme.next_of_word (Prod.mk.inj (List.cons.inj hraw).1).1).1
    cases hstarts
  have hextend := Lexeme.ofText_extend (q := '(' :: behind.flatMap (·.2)) (hword.trans (by rw [hraw])) hparts
    htwo hmarkup
  obtain ⟨l, hl, hpart⟩ := hw.not_isPart_paren hraw (behind.flatMap (·.2))
  refine hpart (Expr.isPart_of_parse hf l ?_)
  rw [withGap, String.toList_ofList]
  exact hextend ▸ List.mem_append_right _ hl

/-- One blank between a joining word and a group does, and none does not. In an accepted text, the white
space between AND, OR or NOT and an opening parenthesis can be written as any number of blanks but none: the
text is then the same expression, and without a blank it is refused. -/
theorem parse_gap_iff (hw : Lexeme.IsJunctor w) (h : Expr.parse text = .ok e)
    (hcut : Lexeme.ofText text.toList =
      before ++ [(Lexeme.word w, raw)] ++ (.blank, gap) :: (.opener .paren, ['(']) :: behind) (n : Nat) :
    (Expr.parse (withGap (before ++ [(.word w, raw)]) n behind) = .ok e ↔ 0 < n) ∧
      ((∃ f, Expr.parse (withGap (before ++ [(.word w, raw)]) n behind) = .ok f) ↔ 0 < n) := by
  cases n with
  | zero =>
    have hno := parse_withoutGap_ne_ok hw h hcut
    exact ⟨iff_of_false (hno e) (Nat.lt_irrefl 0), iff_of_false (fun ⟨f, hf⟩ => hno f hf) (Nat.lt_irrefl 0)⟩
  | succ n =>
    have hyes := parse_withGap hw h hcut n
    exact ⟨iff_of_true hyes (Nat.succ_pos n), iff_of_true ⟨e, hyes⟩ (Nat.succ_pos n)⟩

end

/-! ### A negated group -/

/-- The expression that an attribute is not one. -/
def negatedEquation : Expr :=
  .not (.compare (.reference "a") .eq (.literal (.integer 1)))

open Grammar in
lemma parse_negatedEquation : Expr.parse "NOT (a = 1)" = .ok negatedEquation := by
  have hmarks : Mark.ofText "NOT (a = 1)".toList = [⟨.word "NOT", ['N', 'O', 'T'], false⟩,
      ⟨.opener .paren, ['('], true⟩, ⟨.word "a", ['a'], false⟩, ⟨.delimiter '=', ['='], true⟩,
      ⟨.number ⟨none, ['1'], [], none⟩, ['1'], true⟩, ⟨.closer .paren, [')'], false⟩] := by
    decide +kernel
  have hforms : Tree.Forms false (Mark.ofText "NOT (a = 1)".toList)
      [.leaf ⟨.word "NOT", ['N', 'O', 'T'], false⟩, .group [.leaf ⟨.word "a", ['a'], false⟩,
        .leaf ⟨.delimiter '=', ['='], true⟩, .leaf ⟨.number ⟨none, ['1'], [], none⟩, ['1'], true⟩]] := by
    rw [hmarks]
    refine .leaf nofun nofun (@Tree.Forms.group _ _ _ [_, _, _] _ _ _ rfl ?_ rfl .nil)
    exact .leaf nofun nofun (.leaf nofun nofun (.leaf nofun nofun .nil))
  have hnot : Text.sameWord "NOT" "not" := by
    rw [Text.sameWord_eq]
    decide
  have hname : ∀ keyword ∈ ["not", "true", "false"], ¬ Text.sameWord "a" keyword := by
    simp only [Text.sameWord_eq]
    decide
  have hone : Literal.parseNumber? (String.ofList ['1']) = some (.integer 1) := by decide +kernel
  have hequation : Item [.leaf ⟨.word "a", ['a'], false⟩, .leaf ⟨.delimiter '=', ['='], true⟩,
      .leaf ⟨.number ⟨none, ['1'], [], none⟩, ['1'], true⟩]
      (.compare (.reference "a") .eq (.literal (.integer 1))) :=
    @Item.compare _ _ [_] _ _ _ (hname "not" (by decide))
      (.reference rfl (hname "true" (by decide)) (hname "false" (by decide)))
      (.single rfl (by simp)) (.number rfl hone)
  have hgroup : Item [.group _] _ := .group (.last (.last hequation) .single) .single
  exact Expr.reads_iff.mp ⟨_, hforms, .intro (.last (.last (.not hnot hgroup)) .single) .single⟩

/-- A negated group with three blanks in front of it and with none. -/
theorem parse_gap_three_none :
    Expr.parse "NOT (a = 1)" = .ok negatedEquation ∧ Expr.parse "NOT   (a = 1)" = .ok negatedEquation ∧
      ¬ ∃ f, Expr.parse "NOT(a = 1)" = .ok f := by
  have hw : Lexeme.IsJunctor "NOT" := ⟨"not", by decide, by rw [Text.sameWord_eq]; decide⟩
  have hcut : Lexeme.ofText "NOT (a = 1)".toList = [] ++ [(Lexeme.word "NOT", ['N', 'O', 'T'])] ++
      (.blank, [' ']) :: (.opener .paren, ['(']) :: [(.word "a", ['a']), (.blank, [' ']),
        (.delimiter '=', ['=']), (.blank, [' ']), (.number ⟨none, ['1'], [], none⟩, ['1']),
        (.closer .paren, [')'])] := by
    decide +kernel
  exact ⟨parse_negatedEquation, (parse_gap_iff hw parse_negatedEquation hcut 3).1.mpr (by decide),
    fun hf => Nat.lt_irrefl 0 ((parse_gap_iff hw parse_negatedEquation hcut 0).2.mp hf)⟩

/-- A text that is accepted, and is refused without the blank in front of its parenthesis. -/
theorem parse_without_blank :
    Expr.parse "NOT (a = 1)" = .ok negatedEquation ∧ ∀ f, Expr.parse "NOT(a = 1)" ≠ .ok f := by
  refine ⟨parse_negatedEquation, fun f hf => ?_⟩
  have hmem : (Lexeme.function "NOT", ['N', 'O', 'T', '(']) ∈ Lexeme.ofText "NOT(a = 1)".toList := by
    decide +kernel
  have hpart := Expr.isPart_of_parse hf _ hmem
  cases hpart

end Cql

end MapStyle
