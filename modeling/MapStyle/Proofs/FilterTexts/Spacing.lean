import MapStyle.Proofs.Comments.Lexemes
import MapStyle.Proofs.Expressions.Trees
import MapStyle.Cql.Reading

/-!
# White space in filters

Some lexemes can be written with other white space and without some of their comments and still be read
as the same lexemes. Where comments are left out, something that ends a lexeme has to follow, and no
escape may take a blank that was not there before. A predicate is then the same.
-/

namespace MapStyle

namespace Lexeme

/-- Lexemes, written with one blank for each piece of white space and without some of their comments. No
other lexeme is a backslash. Given are the characters in front of them that stay what they are. -/
inductive Respaced : List Char → List (Lexeme × List Char) → List Char → Prop
  | nil {x : List Char} : Respaced x [] []
  | keep {x q : List Char} {l : Lexeme × List Char} {ls : List (Lexeme × List Char)}
      (hblank : l.1 ≠ .blank) (hslash : l.2 ≠ ['\\']) (h : Respaced (x ++ l.2) ls q) :
      Respaced x (l :: ls) (l.2 ++ q)
  | blank {x w q : List Char} {ls : List (Lexeme × List Char)} (h : Respaced [] ls q) :
      Respaced x ((.blank, w) :: ls) (' ' :: q)
  | drop {x q : List Char} {comments ls : List (Lexeme × List Char)}
      (hcomments : ∀ c ∈ comments, c.1 = .comment) (hne : comments ≠ []) (hbreak : isBreak q)
      (hhex : q.head? = some ' ' → ¬ endsHex x) (h : Respaced [] ls q) : Respaced x (comments ++ ls) q

/-- What may stand behind such lexemes. It is no quoted string. -/
structure IsTail (tail : List Char) : Prop where
  ne_nil : tail ≠ []
  not_isLone : ¬ isLone tail
  address : address? tail ≠ none

variable {x p q tail text : List Char} {before ls gap rest : List (Lexeme × List Char)}

lemma address?_blanks {w : List Char} (hw : ∀ c ∈ w, isSpace c) :
    address? (w ++ p) = none ↔ address? p = none := by
  rw [address?_eq_none_iff, address?_eq_none_iff, List.dropWhile_append_of_pos hw]

lemma address?_cons_ne_none {c : Char} (hc : ¬ isSpace c) (hdouble : c ≠ '"') (hsingle : c ≠ '\'') :
    address? (c :: p) ≠ none := by
  rw [Ne, address?_eq_none_iff, List.dropWhile_cons_of_neg hc]
  simp [hdouble, hsingle]

/-- Behind white space that is written anew, a quoted string still follows if one did. -/
lemma Respaced.address? (h : Respaced x ls q) (hls : ∀ l ∈ ls, l ∈ ofText text) (htail : IsTail tail)
    (ha : address? (ls.flatMap (·.2) ++ tail) = none) : Lexeme.address? q = none := by
  induction h with
  | nil => exact absurd ha htail.address
  | @keep x q l ls hblank hslash h ih =>
    obtain ⟨c, r, hr, hc⟩ := raw_of_mem (hls l List.mem_cons_self) hblank
    rw [List.flatMap_cons, hr, address?_eq_none_iff, List.cons_append, List.cons_append,
      List.dropWhile_cons_of_neg hc] at ha
    rw [hr, address?_eq_none_iff, List.cons_append, List.dropWhile_cons_of_neg hc]
    exact ha
  | @blank x w q ls h ih =>
    obtain ⟨-, hw⟩ := raw_of_blank_mem (hls _ List.mem_cons_self)
    rw [List.flatMap_cons, List.append_assoc, address?_blanks hw] at ha
    have hq := ih (fun l hl => hls l (List.mem_cons_of_mem _ hl)) ha
    exact (address?_blanks (w := [' ']) (by simp [isSpace])).mpr hq
  | @drop x q comments ls hcomments hne hbreak hhex h ih =>
    obtain ⟨⟨l, w⟩, comments, rfl⟩ := List.exists_cons_of_ne_nil hne
    obtain rfl : l = .comment := hcomments _ List.mem_cons_self
    obtain ⟨r, rfl⟩ := raw_of_comment_mem (hls (.comment, w) (by simp))
    exact absurd ha (address?_cons_ne_none (by decide) (by decide) (by decide))

/-- The only white space in front is a blank. -/
lemma Respaced.head? (h : Respaced x ls q) (hls : ∀ l ∈ ls, l ∈ ofText text) :
    ∀ c ∈ q.head?, isSpace c → c = ' ' := by
  induction h with
  | nil => nofun
  | @keep x q l ls hblank hslash h ih =>
    intro c hc hspace
    obtain ⟨d, r, hr, hd⟩ := raw_of_mem (hls l List.mem_cons_self) hblank
    rw [hr] at hc
    obtain rfl : d = c := Option.some_inj.mp hc
    exact absurd hspace hd
  | blank h ih =>
    rintro c hc -
    exact (Option.some_inj.mp hc).symm
  | drop hcomments hne hbreak hhex h ih => exact ih fun l hl => hls l (List.mem_append_right _ hl)

/-- Behind lexemes that are no white space a text can be exchanged. -/
lemma ofText_exchange {after : List (Lexeme × List Char)}
    (htext : ofText (before.flatMap (·.2) ++ p) = before ++ after) (hswap : Swap (before.flatMap (·.2)) p q)
    (hurl : address? p = none → Lexeme.address? q = none) (hsound : ∀ l ∈ before, isSound l.1)
    (hblank : ∀ l ∈ before, l.1 ≠ .blank) (hslash : ∀ l ∈ before, l.2 ≠ ['\\']) :
    ofText (before.flatMap (·.2) ++ q) = before ++ ofText q :=
  ofText_swap htext rfl hswap (.inl fun l hl => hblank l (List.mem_of_getLast? hl)) hsound
    (fun l hl => hslash l (List.mem_of_getLast? hl))
    fun _ _ _ => hurl

/-- Lexemes in front of those that are written anew stay what they are. -/
lemma Respaced.ofText_append (h : Respaced x ls q) (hx : before.flatMap (·.2) <:+ x)
    (htext : ofText (before.flatMap (·.2) ++ (ls.flatMap (·.2) ++ tail)) = before ++ (ls ++ rest))
    (htail : IsTail tail) (hsound : ∀ l ∈ before ++ ls, isSound l.1)
    (hblank : ∀ l ∈ before, l.1 ≠ .blank) (hslash : ∀ l ∈ before, l.2 ≠ ['\\']) :
    ofText (before.flatMap (·.2) ++ q) = before ++ ofText q := by
  have hfront : ∀ l ∈ before, isSound l.1 := (List.forall_mem_append.mp hsound).1
  have hmem : ∀ l ∈ ls, l ∈ ofText (before.flatMap (·.2) ++ (ls.flatMap (·.2) ++ tail)) := fun l hl =>
    htext ▸ List.mem_append_right before (List.mem_append_left rest hl)
  induction h generalizing before with
  | nil =>  -- behind the last lexeme of the filter only its tail is exchanged
    refine ofText_exchange htext ⟨htail.ne_nil, htail.not_isLone, rfl, nofun⟩ ?_ hfront hblank hslash
    exact fun ha => absurd ha htail.address
  | @keep x q l ls hblank' hslash' h ih =>  -- a kept lexeme joins those in front
    have hall : ofText ((before ++ [l]).flatMap (·.2) ++ q) = before ++ [l] ++ ofText q := by
      have hsuffix : (before ++ [l]).flatMap (·.2) <:+ x ++ l.2 := by
        obtain ⟨u, rfl⟩ := hx
        exact ⟨u, by simp⟩
      have hsound' : ∀ m ∈ before ++ [l] ++ ls, isSound m.1 := by simpa using hsound
      have htext' : ofText ((before ++ [l]).flatMap (·.2) ++ (ls.flatMap (·.2) ++ tail)) =
          before ++ [l] ++ (ls ++ rest) := by
        simpa using htext
      refine ih hsuffix htext' hsound' ?_ ?_ ?_ ?_
      · exact List.forall_mem_append.mpr ⟨hblank, List.forall_mem_singleton.mpr hblank'⟩
      · exact List.forall_mem_append.mpr ⟨hslash, List.forall_mem_singleton.mpr hslash'⟩
      · exact (List.forall_mem_append.mp hsound').1
      · exact fun m hm => htext' ▸ List.mem_append_right _ (List.mem_append_left rest hm)
    have hq : ofText (before.flatMap (·.2) ++ (l.2 ++ q)) = before ++ l :: ofText q := by
      simpa using hall
    rw [hq, ofText_behind hq rfl]
  | @blank x w q ls h ih =>
    -- the blank is written anew as a single one, and both texts start with a blank
    obtain ⟨hne, hw⟩ := raw_of_blank_mem (hmem _ List.mem_cons_self)
    obtain ⟨c, r, rfl⟩ := List.exists_cons_of_ne_nil hne
    have hc : isSpace c := hw c List.mem_cons_self
    refine ofText_exchange htext ⟨by simp, ?_, rfl, ?_⟩ ?_ hfront hblank hslash
    · have hslash' : c ≠ '\\' := by
        rintro rfl
        cases hc
      simp [isLone, hslash']
    · rintro d hd -
      exact ⟨(Option.some_inj.mp hd).symm, .inl ⟨c, rfl, hc⟩⟩
    · intro ha
      rw [List.flatMap_cons, List.append_assoc, address?_blanks hw] at ha
      have hq := h.address? (fun l hl => hmem l (List.mem_cons_of_mem _ hl)) htail ha
      exact (address?_blanks (w := [' ']) (by simp [isSpace])).mpr hq
  | @drop x q comments ls hcomments hne hbreak hhex h ih =>
    -- the comments are left out: what follows them must not join what is in front of them
    obtain ⟨⟨l, w⟩, comments, rfl⟩ := List.exists_cons_of_ne_nil hne
    obtain rfl : l = .comment := hcomments _ List.mem_cons_self
    obtain ⟨r, rfl⟩ := raw_of_comment_mem (hmem (.comment, w) (by simp))
    -- the blank behind a comment could be taken for the end of an escape
    refine ofText_exchange htext ⟨by simp, by simp [isLone], hbreak, ?_⟩ ?_ hfront hblank hslash
    · intro c hc hspace
      obtain rfl := h.head? (fun l hl => hmem l (List.mem_append_right _ hl)) c hc hspace
      refine ⟨rfl, .inr fun hends => hhex hc ?_⟩
      obtain ⟨u, rfl⟩ := hx
      exact endsHex_append hends u
    · exact fun ha => absurd ha (address?_cons_ne_none (by decide) (by decide) (by decide))

/-- White space and comments start with no backslash. -/
lemma raw_of_gap_mem {l : Lexeme × List Char} (h : l ∈ ofText text) (hl : l.1 = .blank ∨ l.1 = .comment) :
    ∃ c r, l.2 = c :: r ∧ c ≠ '\\' := by
  obtain ⟨l, w⟩ := l
  obtain rfl | rfl := hl
  · obtain ⟨hne, hw⟩ := raw_of_blank_mem h
    obtain ⟨c, r, rfl⟩ := List.exists_cons_of_ne_nil hne
    refine ⟨c, r, rfl, ?_⟩
    rintro rfl
    exact absurd (hw _ List.mem_cons_self) (by decide)
  · obtain ⟨r, rfl⟩ := raw_of_comment_mem h
    exact ⟨'/', r, rfl, by decide⟩

lemma raw_ne_backslash {l : Lexeme × List Char} (h : l ∈ ofText text) (hl : l.1 = .blank ∨ l.1 = .comment) :
    l.2 ≠ ['\\'] := by
  obtain ⟨c, r, hr, hc⟩ := raw_of_gap_mem h hl
  rw [hr]
  exact fun heq => hc (List.cons.inj heq).1

lemma Respaced.ne_backslash (h : Respaced x ls q) (hls : ∀ l ∈ ls, l ∈ ofText text) :
    ∀ l ∈ ls, l.2 ≠ ['\\'] := by
  induction h with
  | nil => nofun
  | keep hblank hslash h ih =>
    exact List.forall_mem_cons.mpr ⟨hslash, ih fun l hl => hls l (List.mem_cons_of_mem _ hl)⟩
  | blank h ih =>
    exact List.forall_mem_cons.mpr ⟨raw_ne_backslash (hls _ List.mem_cons_self) (.inl rfl),
      ih fun l hl => hls l (List.mem_cons_of_mem _ hl)⟩
  | drop hcomments hne hbreak hhex h ih =>
    refine List.forall_mem_append.mpr ⟨fun l hl => ?_, ih fun l hl => hls l (List.mem_append_right _ hl)⟩
    exact raw_ne_backslash (hls l (List.mem_append_left _ hl)) (.inr (hcomments l hl))

/-- White space and comments may stand in front of what may stand behind. -/
lemma IsTail.behind_gap (htail : IsTail tail) (hgap : ∀ l ∈ gap, l.1 = .blank ∨ l.1 = .comment)
    (hmem : ∀ l ∈ gap, l ∈ ofText text) : IsTail (gap.flatMap (·.2) ++ tail) := by
  induction gap with
  | nil => exact htail
  | cons l gap ih =>
    have htail' := ih (fun l hl => hgap l (List.mem_cons_of_mem _ hl))
      fun l hl => hmem l (List.mem_cons_of_mem _ hl)
    obtain ⟨c, r, hr, hc⟩ := raw_of_gap_mem (hmem l List.mem_cons_self) (hgap l List.mem_cons_self)
    obtain ⟨l, w⟩ := l
    obtain rfl : w = c :: r := hr
    refine ⟨by simp, by simp [isLone, hc], ?_⟩
    obtain rfl | rfl : l = .blank ∨ l = .comment := hgap _ List.mem_cons_self
    · rw [List.flatMap_cons, List.append_assoc, Ne,
        address?_blanks (raw_of_blank_mem (hmem _ List.mem_cons_self)).2]
      exact htail'.address
    · obtain ⟨r, heq⟩ := raw_of_comment_mem (hmem _ List.mem_cons_self)
      obtain ⟨rfl, rfl⟩ := List.cons.inj heq
      exact address?_cons_ne_none (by decide) (by decide) (by decide)

end Lexeme

namespace Cql

open Lexeme (Respaced IsTail isSpace isSound)

variable {x q tail : List Char} {ls rest : List (Lexeme × List Char)} {b : Bool}

/-! ### Lexemes that carry meaning -/

lemma Mark.ofLexemes_of_ne {l : Lexeme × List Char} (hblank : l.1 ≠ .blank) (hcomment : l.1 ≠ .comment)
    (b : Bool) (ls : List (Lexeme × List Char)) :
    Mark.ofLexemes b (l :: ls) = ⟨l.1, l.2, b⟩ :: Mark.ofLexemes false ls := by
  obtain ⟨l, w⟩ := l
  cases l with
  | blank => exact absurd rfl hblank
  | comment => exact absurd rfl hcomment
  | _ => rfl

lemma Mark.ofLexemes_comments {comments : List (Lexeme × List Char)} (h : ∀ c ∈ comments, c.1 = .comment)
    (b : Bool) (ls : List (Lexeme × List Char)) :
    Mark.ofLexemes b (comments ++ ls) = Mark.ofLexemes b ls := by
  induction comments with
  | nil => rfl
  | cons c comments ih =>
    obtain ⟨l, w⟩ := c
    obtain rfl : l = .comment := h _ List.mem_cons_self
    exact ih fun c hc => h c (List.mem_cons_of_mem _ hc)

/-- White space in front only makes the first lexeme stand apart. -/
lemma Mark.ofLexemes_dropWhile (cs : List Char) :
    Mark.ofLexemes true (Lexeme.ofText (cs.dropWhile isSpace)) =
      Mark.ofLexemes true (Lexeme.ofText cs) := by
  cases cs with
  | nil => rfl
  | cons c cs =>
    by_cases hc : isSpace c
    · rw [List.dropWhile_cons_of_pos hc, Lexeme.ofText_cons, Lexeme.next_blank hc]
      rfl
    · rw [List.dropWhile_cons_of_neg hc]

/-- Lexemes that are written anew carry the same meaning. -/
theorem Mark.ofLexemes_respaced (h : Respaced x ls q)
    (htext : Lexeme.ofText (ls.flatMap (·.2) ++ tail) = ls ++ rest) (htail : IsTail tail)
    (hsound : ∀ l ∈ ls, isSound l.1) (b : Bool) :
    Mark.ofLexemes b (Lexeme.ofText q) = Mark.ofLexemes b ls := by
  have hbehind (before : List (Lexeme × List Char)) {ls : List (Lexeme × List Char)}
      (h : Lexeme.ofText ((before ++ ls).flatMap (·.2) ++ tail) = before ++ ls ++ rest) :
      Lexeme.ofText (ls.flatMap (·.2) ++ tail) = ls ++ rest := by
    rw [List.flatMap_append, List.append_assoc, List.append_assoc] at h
    exact Lexeme.ofText_behind h rfl
  induction h generalizing b with
  | nil => rw [Lexeme.ofText]
  | @keep x q l ls hblank hslash h ih =>
    have hq : Lexeme.ofText (l.2 ++ q) = l :: Lexeme.ofText q := by
      have hfront : Lexeme.ofText ([l].flatMap (·.2) ++ (ls.flatMap (·.2) ++ tail)) =
          [l] ++ (ls ++ rest) := by
        simpa using htext
      have hall := h.ofText_append (by simp) hfront htail (by simpa using hsound)
        (List.forall_mem_singleton.mpr hblank) (List.forall_mem_singleton.mpr hslash)
      simpa using hall
    have htext' : Lexeme.ofText (ls.flatMap (·.2) ++ tail) = ls ++ rest := hbehind [l] htext
    have htail' := ih htext' fun m hm => hsound m (List.mem_cons_of_mem l hm)
    rw [hq]
    by_cases hcomment : l.1 = .comment
    · obtain ⟨l, w⟩ := l
      obtain rfl : l = .comment := hcomment
      exact htail' b
    · rw [ofLexemes_of_ne hblank hcomment, ofLexemes_of_ne hblank hcomment, htail']
  | @blank x w q ls h ih =>
    have htext' : Lexeme.ofText (ls.flatMap (·.2) ++ tail) = ls ++ rest := hbehind [_] htext
    rw [Lexeme.ofText_cons, Lexeme.next_blank rfl]
    refine (ofLexemes_dropWhile q).trans ?_
    exact ih htext' (fun m hm => hsound m (List.mem_cons_of_mem _ hm)) true
  | @drop x q comments ls hcomments hne hbreak hhex h ih =>
    have htext' : Lexeme.ofText (ls.flatMap (·.2) ++ tail) = ls ++ rest := hbehind comments htext
    rw [ofLexemes_comments hcomments]
    exact ih htext' (fun m hm => hsound m (List.mem_append_right _ hm)) b

/-- White space and comments behind carry no meaning. -/
lemma Mark.ofLexemes_append_gap {gap : List (Lexeme × List Char)}
    (hgap : ∀ l ∈ gap, l.1 = .blank ∨ l.1 = .comment) (b : Bool) :
    Mark.ofLexemes b (ls ++ gap) = Mark.ofLexemes b ls := by
  induction ls generalizing b with
  | nil =>
    induction gap generalizing b with
    | nil => rfl
    | cons l gap ih =>
      obtain ⟨l, w⟩ := l
      have htail := ih fun l hl => hgap l (List.mem_cons_of_mem _ hl)
      obtain rfl | rfl : l = .blank ∨ l = .comment := hgap _ List.mem_cons_self
      · exact htail true
      · exact htail b
  | cons l ls ih =>
    obtain ⟨l, w⟩ := l
    by_cases hblank : l = .blank
    · subst hblank
      exact ih true
    by_cases hcomment : l = .comment
    · subst hcomment
      exact ih b
    rw [List.cons_append, ofLexemes_of_ne hblank hcomment, ofLexemes_of_ne hblank hcomment, ih]

/-! ### Predicates -/

namespace Reading

/-- Whether the first lexeme stands apart makes no difference. -/
lemma run_build_cons (l : Lexeme) (w : List Char) (b b' : Bool) (ms : List Mark) :
    run {} (Tree.build [] [] (⟨l, w, b⟩ :: ms)) = run {} (Tree.build [] [] (⟨l, w, b'⟩ :: ms)) := by
  obtain ⟨ts, hts⟩ := Tree.exists_forms (⟨l, w, b⟩ :: ms)
  rw [hts.build]
  cases hts with
  | leaf hopen hclose h =>
    have h' : Tree.Forms false (⟨l, w, b'⟩ :: ms) (.leaf ⟨l, w, b'⟩ :: _) := .leaf hopen hclose h
    rw [h'.build]
    rfl
  | group hopen hinner hclose h =>
    have h' : Tree.Forms false (⟨l, w, b'⟩ :: (_ ++ _ :: _)) _ := .group hopen hinner hclose h
    rw [h'.build]
  | unfinished hopen h =>
    have h' : Tree.Forms false (⟨l, w, b'⟩ :: ms) _ := .unfinished hopen h
    rw [h'.build]

lemma run_build_ofLexemes (b b' : Bool) (ls : List (Lexeme × List Char)) :
    run {} (Tree.build [] [] (Mark.ofLexemes b ls)) = run {} (Tree.build [] [] (Mark.ofLexemes b' ls)) := by
  induction ls with
  | nil => rfl
  | cons l ls ih =>
    obtain ⟨l, w⟩ := l
    by_cases hblank : l = .blank
    · subst hblank
      rfl
    by_cases hcomment : l = .comment
    · subst hcomment
      exact ih
    rw [Mark.ofLexemes_of_ne hblank hcomment, Mark.ofLexemes_of_ne hblank hcomment]
    exact run_build_cons l w b b' _

end Reading

lemma Expr.toOption_parse (cs : List Char) : (Expr.parse (String.ofList cs)).toOption =
    (Reading.run {} (Tree.build [] [] (Mark.ofLexemes true (Lexeme.ofText cs)))).toOption := by
  have hrun : Reading.run {} (Tree.ofText cs) =
      Reading.run {} (Tree.build [] [] (Mark.ofLexemes true (Lexeme.ofText cs))) :=
    Reading.run_build_ofLexemes false true (Lexeme.ofText cs)
  rw [Expr.parse, String.toList_ofList, hrun]
  cases Reading.run {} (Tree.build [] [] (Mark.ofLexemes true (Lexeme.ofText cs))) <;> rfl

/-- A predicate of which the lexemes are written anew is the same as the one that was there, with white
space and comments behind it. -/
theorem Expr.toOption_parse_respaced {gap : List (Lexeme × List Char)} (h : Respaced [] ls q)
    (hgap : ∀ l ∈ gap, l.1 = .blank ∨ l.1 = .comment)
    (htext : Lexeme.ofText ((ls ++ gap).flatMap (·.2) ++ tail) = ls ++ gap ++ rest) (htail : IsTail tail)
    (hsound : ∀ l ∈ ls ++ gap, isSound l.1) :
    (Expr.parse (String.ofList (q.dropWhile isSpace))).toOption =
      (Expr.parse (String.ofList ((ls ++ gap).flatMap (·.2)))).toOption := by
  have hmem : ∀ l ∈ ls ++ gap, l ∈ Lexeme.ofText ((ls ++ gap).flatMap (·.2) ++ tail) := fun l hl =>
    htext ▸ List.mem_append_left rest hl
  obtain ⟨hmem_ls, hmem_gap⟩ := List.forall_mem_append.mp hmem
  have hmarks : Mark.ofLexemes true (Lexeme.ofText (q.dropWhile isSpace)) =
      Mark.ofLexemes true (ls ++ gap) := by
    have htext' : Lexeme.ofText (ls.flatMap (·.2) ++ (gap.flatMap (·.2) ++ tail)) =
        ls ++ (gap ++ rest) := by
      simpa using htext
    rw [Mark.ofLexemes_dropWhile, Mark.ofLexemes_append_gap hgap]
    exact Mark.ofLexemes_respaced h htext' (htail.behind_gap hgap hmem_gap)
      (List.forall_mem_append.mp hsound).1 true
  have hslice : Lexeme.ofText ((ls ++ gap).flatMap (·.2)) = ls ++ gap := by
    have hslash : ∀ l ∈ ls ++ gap, l.2 ≠ ['\\'] := List.forall_mem_append.mpr
      ⟨h.ne_backslash hmem_ls, fun l hl => Lexeme.raw_ne_backslash (hmem_gap l hl) (hgap l hl)⟩
    have hcut := Lexeme.ofText_swap (q := []) htext rfl
      ⟨htail.ne_nil, htail.not_isLone, rfl, nofun⟩ (.inr rfl) hsound
      (fun l hl => hslash l (List.mem_of_getLast? hl)) fun _ _ _ ha => absurd ha htail.address
    rwa [Lexeme.ofText, List.append_nil, List.append_nil] at hcut
  rw [toOption_parse, toOption_parse, hmarks, hslice]

end Cql

end MapStyle
