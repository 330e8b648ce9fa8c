import MapStyle.Proofs.Balance.Sheets
import MapStyle.Proofs.Coverage.Blocks
import MapStyle.Proofs.Coverage.Places
import MapStyle.Proofs.Nesting.Braces

/-!
# Tokens cover their text

The tokens of a text, in their order, and some comments between them are the text. Such comments stand
only in front of what closes a block, or at the end; any other comment belongs to the token behind it. A
token knows its place, and the tokens of a block close it if the text does.
-/

namespace MapStyle.Token

open Lexeme (ofComment isSound)

/-- The bracket that a lexeme closes. -/
def closed? : Lexeme → Option Bracket
  | .closer b => some b
  | _ => none

/-- Comments in a row. -/
def Comments (cs : List Char) : Prop :=
  ∃ bodies : List (List Char), (∀ s ∈ bodies, ¬ ['*', '/'] <:+: s) ∧ cs = bodies.flatMap ofComment

/-- Comments in a row, of which the last one may have no end. -/
def OpenComments (cs : List Char) : Prop :=
  Comments cs ∨ ∃ ds s, Comments ds ∧ ¬ ['*', '/'] <:+: s ∧ cs = ds ++ '/' :: '*' :: s

/-- What is written in tokens, each with a gap in front of it. -/
def written (ps : List (List Char × Token)) : List Char :=
  ps.flatMap fun p => p.1 ++ p.2.raw.toList

/-- The tokens behind others and behind what is written in front of them, each with the gap before it,
and what is left at the end of the text. -/
inductive Cover : List Token → List Char → List (List Char × Token) → List Char → Prop
  | done {us : List Token} {pre last : List Char} (h : OpenComments last) : Cover us pre [] last
  | token {us : List Token} {pre gap last : List Char} {t : Token} {ps : List (List Char × Token)}
      (hgap : gap = [] ∨ (Comments gap ∧ EndsBlock opens? closes? us t))
      (hraw : t.raw.toList ≠ []) (hlocation : t.location = Location.behind (pre ++ gap))
      (hclosed : ∀ b ∈ t.opens?, ClosesBlock opens? closes? b (ps.map (·.2)) ↔
        ClosesBlock (fun l => opened? l.1) (fun l => closed? l.1) b
          (Lexeme.ofText (written ps ++ last)))
      (h : Cover (us ++ [t]) (pre ++ gap ++ t.raw.toList) ps last) :
      Cover us pre ((gap, t) :: ps) last

section

variable {limit : Nat} {opened outer : List Bracket} {pending pre cs ds : List Char} {b : Bracket}
  {start here : Location} {l : Lexeme} {w : List Char} {ls : List (Lexeme × List Char)}
  {t : Token} {us ts : List Token}

/-! ### Comments -/

lemma comments_nil : Comments [] :=
  ⟨[], nofun, rfl⟩

lemma Comments.comment (h : Comments cs) {s : List Char} (hs : ¬ ['*', '/'] <:+: s) :
    Comments (cs ++ ofComment s) := by
  obtain ⟨bodies, hbodies, rfl⟩ := h
  exact ⟨bodies ++ [s], by simpa [or_imp, forall_and] using ⟨hbodies, hs⟩, by simp⟩

/-- A comment goes on a row of comments, and only at the end of the text it may have no end. -/
lemma Comments.next (h : Comments pending) (hcomment : (Lexeme.next c cs).value = .comment) :
    Comments (pending ++ (Lexeme.next c cs).raw) ∨
      ((Lexeme.next c cs).rest = [] ∧ OpenComments (pending ++ (Lexeme.next c cs).raw)) := by
  obtain ⟨body, rfl, rfl, hnext⟩ := Lexeme.next_comment hcomment
  rw [hnext]
  obtain ⟨s, hs, hraw⟩ | ⟨hrest, hraw⟩ := Lexeme.commentBody_cases body
  · have hwritten : ['/', '*'] ++ (Lexeme.commentBody body).raw = ofComment s := by
      rw [hraw]
      rfl
    rw [Piece.raw_after, Piece.raw_map, hwritten]
    exact .inl (h.comment hs)
  · exact .inr ⟨hrest, .inr ⟨pending, _, h, hraw, rfl⟩⟩

/-! ### Places -/

/-- Tokens stand behind each other, and none of them before the place where the first may start. -/
lemma before_of_ofLexemes (hls : ∀ l ∈ ls, l.2 ≠ []) (hstart : start = here ∨ start.Before here)
    (h : ofLexemes limit opened pending start here ls = .ok ts) :
    (∀ t ∈ ts, start = t.location ∨ start.Before t.location) ∧
      ts.Pairwise fun t u => t.location.Before u.location := by
  induction ls generalizing opened pending start here ts with
  | nil =>
    rw [ofLexemes] at h
    cases h
    exact ⟨List.forall_mem_nil _, .nil⟩
  | cons l ls ih =>
    obtain ⟨l, w⟩ := l
    obtain ⟨hw, hls'⟩ := List.forall_mem_cons.mp hls
    have hafter : here.Before (here.advance w) := Location.before_advance here hw
    have hbehind : start.Before (here.advance w) := by
      obtain rfl | hstart := hstart
      · exact hafter
      · exact hstart.trans hafter
    -- a token at a place in front of where the rest starts stands in front of the rest
    have hcons {t : Token} {us : List Token} {opened : List Bracket}
        (ht : start = t.location ∨ start.Before t.location) (ht' : t.location.Before (here.advance w))
        (hus : ofLexemes limit opened [] (here.advance w) (here.advance w) ls = .ok us) :
        (∀ u ∈ t :: us, start = u.location ∨ start.Before u.location) ∧
          (t :: us).Pairwise fun t u => t.location.Before u.location := by
      obtain ⟨hfirst, hpairwise⟩ := ih hls' (.inl rfl) hus
      have hlater (u : Token) (hu : u ∈ us) : t.location.Before u.location := by
        obtain heq | hbefore := hfirst u hu
        · exact heq ▸ ht'
        · exact ht'.trans hbefore
      refine ⟨List.forall_mem_cons.mpr ⟨ht, fun u hu => .inr ?_⟩, .cons hlater hpairwise⟩
      obtain heq | hbefore := hfirst u hu
      · exact heq ▸ hbehind
      · exact hbehind.trans hbefore
    by_cases hcomment : l = .comment
    · subst hcomment
      rw [ofLexemes_comment] at h
      exact ih hls' (.inr hbehind) h
    by_cases hcloses : Closes opened l
    · rw [ofLexemes_closes hcloses, map_eq_ok_iff] at h
      obtain ⟨us, hus, rfl⟩ := h
      exact hcons hstart hafter hus
    · obtain ⟨-, kind, text, us, -, hus, rfl⟩ := (ofLexemes_lexeme_eq_ok_iff hcomment hcloses).mp h
      exact hcons (.inl rfl) hbehind hus

/-! ### Blocks -/

lemma closed?_eq_some_iff : closed? l = some b ↔ l = .closer b := by
  cases l <;> simp [closed?]

lemma opened?_of_closed? (h : closed? l = some b) : opened? l = none := by
  obtain rfl := closed?_eq_some_iff.mp h
  rfl

lemma closes?_closer (location : Location) (b : Bracket) :
    closes? ⟨.delimiter, String.ofList [b.closer], String.ofList [b.closer], location⟩ = some b :=
  closes?_eq_some_iff.mpr (by simp [isDelimiter])

/-- The tokens behind some open brackets close them if their lexemes do. -/
lemma closesAll_of_ofLexemes (hls : ∀ b w, (Lexeme.closer b, w) ∈ ls → w = [b.closer])
    (h : ofLexemes limit (opened ++ outer) pending start here ls = .ok ts) :
    ClosesAll opens? closes? opened ts ↔
      ClosesAll (fun l => opened? l.1) (fun l => closed? l.1) opened ls := by
  induction ls generalizing opened pending start here ts with
  | nil =>
    rw [ofLexemes] at h
    cases h
    cases opened <;> exact Iff.rfl
  | cons l ls ih =>
    obtain ⟨l, w⟩ := l
    have hls' := fun b w hw => hls b w (List.mem_cons_of_mem _ hw)
    cases opened with
    | nil => simp only [ClosesAll]
    | cons b opened =>
      by_cases hcomment : l = .comment
      · subst hcomment
        rw [ofLexemes_comment] at h
        rw [ClosesAll.eq_3, if_neg (by simp [closed?])]
        exact ih hls' h
      by_cases hcloses : Closes (b :: opened ++ outer) l
      · -- the innermost bracket is closed on both sides
        rw [ofLexemes_closes hcloses, map_eq_ok_iff] at h
        obtain ⟨us, hus, rfl⟩ := h
        obtain rfl : Lexeme.closer b = l := Option.some_inj.mp hcloses
        obtain rfl := hls b w List.mem_cons_self
        rw [ClosesAll, if_pos (closes?_closer _ _), ClosesAll.eq_3, if_pos (closed?_eq_some_iff.mpr rfl)]
        exact ih hls' hus
      · -- a lexeme that is no closer of the innermost bracket opens the same bracket as its token
        obtain ⟨-, kind, text, us, hdescribe, hus, rfl⟩ :=
          (ofLexemes_lexeme_eq_ok_iff hcomment hcloses).mp h
        have hraw (b : Bracket) (hb : l = .closer b) : (pending ++ w).getLast? = some b.closer := by
          rw [hls b w (hb ▸ List.mem_cons_self), List.getLast?_append]
          rfl
        have hother : l ≠ .closer b := fun hl => hcloses (hl ▸ rfl)
        rw [ClosesAll, if_neg fun ht => hother (eq_closer_of_describe hdescribe hraw ht), ClosesAll.eq_3,
          if_neg fun hl => hother (closed?_eq_some_iff.mp hl), opens?_of_describe hdescribe hraw]
        exact ih hls' (List.append_assoc .. ▸ hus)

lemma closesBlock_of_ofLexemes
    (h : ofLexemes limit (b :: outer) pending start here (Lexeme.ofText cs) = .ok ts) :
    ClosesBlock opens? closes? b ts ↔
      ClosesBlock (fun l => opened? l.1) (fun l => closed? l.1) b (Lexeme.ofText cs) := by
  rw [closesBlock_iff fun _ _ => opens?_eq_none, closesBlock_iff fun _ _ => opened?_of_closed?]
  have hcloser (c : Bracket) (w : List Char) (hw : (Lexeme.closer c, w) ∈ Lexeme.ofText cs) :
      w = [c.closer] :=
    Lexeme.raw_of_closer_mem hw
  exact closesAll_of_ofLexemes hcloser h

/-! ### The first token -/

/-- What is left of a text, and the tokens that it becomes while some brackets are open. -/
structure Rest (limit : Nat) (opened : List Bracket) (pre cs : List Char) (ts : List Token) : Prop where
  tokens : ofLexemes limit opened [] (Location.behind pre) (Location.behind pre) (Lexeme.ofText cs) =
    .ok ts
  whole : pre.getLast? = some '\r' → cs.head? ≠ some '\n'

/-- The token that a gap and a lexeme behind it become, and the brackets that are open behind it. A
closer that fits leaves the gap out. -/
inductive First (opened : List Bracket) (pre gap : List Char) (l : Lexeme) (w : List Char) :
    Token → List Bracket → Prop
  | closer (hcloses : Closes opened l) : First opened pre gap l w
      ⟨.delimiter, String.ofList w, String.ofList w, Location.behind (pre ++ gap)⟩ opened.tail
  | other {kind : TokenKind} {text : List Char} (hcloses : ¬ Closes opened l)
      (hdescribe : describe (gap ++ w) l = .ok (kind, text)) : First opened pre gap l w
      ⟨kind, String.ofList (gap ++ w), String.ofList text, Location.behind pre⟩
      ((opened? l).toList ++ opened)

/-- The first token behind comments, of which some may have been read. -/
lemma exists_first_of_ofLexemes (hpending : Comments pending)
    (hwhole : (pre ++ pending).getLast? = some '\r' → cs.head? ≠ some '\n')
    (h : ofLexemes limit opened pending (Location.behind pre) (Location.behind (pre ++ pending))
      (Lexeme.ofText cs) = .ok ts) :
    (ts = [] ∧ OpenComments (pending ++ cs)) ∨
      ∃ t us comments l w cs' opened', ts = t :: us ∧ (∀ c ∈ comments, c.1 = .comment) ∧
        Comments (pending ++ comments.flatMap (·.2)) ∧ l ≠ .comment ∧
        Lexeme.ofText cs = comments ++ (l, w) :: Lexeme.ofText cs' ∧
        First opened pre (pending ++ comments.flatMap (·.2)) l w t opened' ∧
        Rest limit opened' (pre ++ (pending ++ comments.flatMap (·.2)) ++ w) cs' us := by
  induction cs using Lexeme.ofText.induct generalizing pending with
  | case1 =>
    rw [Lexeme.ofText, ofLexemes] at h
    cases h
    exact .inl ⟨rfl, .inl (by simpa using hpending)⟩
  | case2 c cs p =>
    rename_i ih
    have hp : Lexeme.next c cs = p := rfl
    clear_value p
    rw [Lexeme.ofText_cons, hp] at h ⊢
    have hsource : p.raw ++ p.rest = c :: cs := hp ▸ Lexeme.source_next c cs
    -- what the first lexeme leaves behind: its text is whole and ends where the next one starts
    have hsound : isSound p.value := isSound_of_ofLexemes h _ List.mem_cons_self
    have hwhole' : (pre ++ pending ++ p.raw).getLast? = some '\r' → p.rest.head? ≠ some '\n' := by
      subst hp
      exact (Lexeme.isWhole_next c cs hsound).after (Lexeme.source_next c cs ▸ hwhole)
    have hplace : (Location.behind (pre ++ pending)).advance p.raw =
        Location.behind (pre ++ pending ++ p.raw) := by
      refine Location.advance_behind fun hlast hhead => hwhole hlast ?_
      rw [← hsource, List.head?_append, hhead]
      rfl
    by_cases hcomment : p.value = .comment
    · rw [hcomment, ofLexemes_comment, hplace, List.append_assoc] at h
      -- a comment only makes the gap longer, unless nothing closes it and it takes the rest
      obtain hcomments | ⟨hrest, hlast⟩ := hpending.next (hp ▸ hcomment)
      · rw [hp] at hcomments
        obtain ⟨hts, hlast⟩ | ⟨t, us, comments, l, w, cs', opened', hts, hall, hgap, hl, htext, hfirst⟩ :=
          ih hcomments (List.append_assoc .. ▸ hwhole') h
        · exact .inl ⟨hts, by rwa [List.append_assoc, hsource] at hlast⟩
        · rw [List.append_assoc] at hgap hfirst
          refine .inr ⟨t, us, (.comment, p.raw) :: comments, l, w, cs', opened', hts, ?_, hgap, hl, ?_,
            hfirst⟩
          · exact List.forall_mem_cons.mpr ⟨rfl, hall⟩
          · rw [hcomment, htext]
            rfl
      · rw [hp] at hrest hlast
        rw [hrest, Lexeme.ofText, ofLexemes] at h
        cases h
        rw [← hsource, hrest, List.append_nil]
        exact .inl ⟨rfl, hlast⟩
    refine .inr ?_
    -- any other lexeme is the token looked for, with nothing but the comments read so far before it
    by_cases hcloses : Closes opened p.value
    · rw [ofLexemes_closes hcloses, map_eq_ok_iff, hplace] at h
      obtain ⟨us, hus, rfl⟩ := h
      refine ⟨_, us, [], p.value, p.raw, p.rest, opened.tail, rfl, List.forall_mem_nil _,
        by simpa using hpending, hcomment, rfl, ?_⟩
      rw [List.flatMap_nil, List.append_nil]
      exact ⟨.closer hcloses, hus, hwhole'⟩
    · -- a lexeme that closes nothing may open a block
      obtain ⟨-, kind, text, us, hdescribe, hus, rfl⟩ :=
        (ofLexemes_lexeme_eq_ok_iff hcomment hcloses).mp h
      rw [hplace] at hus
      refine ⟨_, us, [], p.value, p.raw, p.rest, (opened? p.value).toList ++ opened, rfl,
        List.forall_mem_nil _, by simpa using hpending, hcomment, rfl, ?_⟩
      rw [List.flatMap_nil, List.append_nil]
      exact ⟨.other hcloses hdescribe, hus, hwhole'⟩

lemma Rest.openComments (h : Rest limit opened pre cs []) : OpenComments cs := by
  have htokens := h.tokens
  have hwhole := h.whole
  rw [← List.append_nil pre] at hwhole
  obtain ⟨-, hlast⟩ | ⟨t, us, _, _, _, _, _, hts, -⟩ :=
    exists_first_of_ofLexemes comments_nil hwhole (by simpa using htokens)
  · exact hlast
  · cases hts

/-- The first token is read from a lexeme and the comments in front of it. -/
lemma Rest.exists_first (h : Rest limit opened pre cs (t :: ts)) :
    ∃ comments l w cs' opened', (∀ c ∈ comments, c.1 = .comment) ∧ Comments (comments.flatMap (·.2)) ∧
      l ≠ .comment ∧ Lexeme.ofText cs = comments ++ (l, w) :: Lexeme.ofText cs' ∧
      First opened pre (comments.flatMap (·.2)) l w t opened' ∧
      Rest limit opened' (pre ++ comments.flatMap (·.2) ++ w) cs' ts := by
  have htokens := h.tokens
  have hwhole := h.whole
  rw [← List.append_nil pre] at hwhole
  obtain ⟨hts, -⟩ | ⟨t, us, comments, l, w, cs', opened', hts, hall, hgap, hl, htext, hfirst, hrest⟩ :=
    exists_first_of_ofLexemes comments_nil hwhole (by simpa using htokens)
  · cases hts
  · cases hts
    exact ⟨comments, l, w, cs', opened', hall, hgap, hl, htext, hfirst, hrest⟩

/-! ### The whole text -/

/-- What is left of a text becomes tokens that cover it. -/
lemma Rest.exists_cover (h : Rest limit opened pre cs ts) (hopened : OpenBlocks opens? closes? opened us) :
    ∃ ps last, ps.map (·.2) = ts ∧ cs = written ps ++ last ∧ Cover us pre ps last := by
  induction ts generalizing opened pre cs us with
  | nil => exact ⟨[], cs, rfl, rfl, .done h.openComments⟩
  | cons t ts ih =>
    -- the comments in front of the first token are its gap, and the induction covers what is behind
    obtain ⟨comments, l, w, cs', opened', hall, hgap, hl, htext, hfirst, hrest⟩ := h.exists_first
    have hcs : cs = comments.flatMap (·.2) ++ w ++ cs' := Lexeme.eq_of_ofText htext
    have hmem : (l, w) ∈ Lexeme.ofText cs := by simp [htext]
    have hw : w ≠ [] := Lexeme.raw_ne_nil_of_mem hmem
    have hcloser (b : Bracket) (hb : l = .closer b) : w = [b.closer] :=
      Lexeme.raw_of_closer_mem (hb ▸ hmem)
    generalize comments.flatMap (·.2) = gap at hgap hfirst hrest hcs
    subst hcs
    cases hfirst with
    | closer hcloses =>
      cases opened with
      | nil => cases hcloses
      | cons b opened =>  -- the closer is written behind the gap, which its own text does not hold
        obtain rfl : Lexeme.closer b = l := Option.some_inj.mp hcloses
        obtain rfl := hcloser b rfl
        have ht := closes?_closer (Location.behind (pre ++ gap)) b
        obtain ⟨ps, last, rfl, rfl, hcover⟩ := ih hrest (hopened.closer ht)
        refine ⟨(gap, _) :: ps, last, rfl, by simp [written], ?_⟩
        refine .token (.inr ⟨hgap, hopened.endsBlock ht⟩) (by simp) rfl (fun b' hb' => ?_)
          (by simpa using hcover)
        rw [opens?_eq_none ht] at hb'
        cases hb'
    | @other kind text hcloses hdescribe =>
      -- any other token has the gap in its text, so the gap of its piece is empty
      have hlast (b : Bracket) (hb : l = .closer b) : (gap ++ w).getLast? = some b.closer := by
        rw [hcloser b hb, List.getLast?_append]
        rfl
      have hopens : opens? ⟨kind, String.ofList (gap ++ w), String.ofList text, Location.behind pre⟩ =
          opened? l :=
        opens?_of_describe hdescribe hlast
      have hopened' : OpenBlocks opens? closes? ((opened? l).toList ++ opened)
          (us ++ [⟨kind, String.ofList (gap ++ w), String.ofList text, Location.behind pre⟩]) := by
        cases hb : opened? l with
        | none =>
          refine hopened.plain (hopens.trans hb) fun b hhead hclosed => hcloses ?_
          rw [eq_closer_of_describe hdescribe hlast hclosed, Closes, hhead]
          rfl
        | some b => exact hopened.opener (hopens.trans hb)
      obtain ⟨ps, last, rfl, rfl, hcover⟩ := ih hrest hopened'
      refine ⟨([], _) :: ps, last, rfl, by simp [written], ?_⟩
      refine .token (.inl rfl) (by simp [hw]) (by simp) (fun b hb => ?_) (by simpa using hcover)
      rw [hopens] at hb
      have htokens := hrest.tokens
      rw [Option.mem_def.mp hb] at htokens
      exact closesBlock_of_ofLexemes htokens

/-- The tokens of a text cover it: with comments in front of what closes a block and at the end they are
the text, and each one stands where it says, behind the ones before it. A block is closed in the tokens
if it is in the text. -/
theorem exists_cover_of_ofText {text : String} (h : ofText limit text = .ok ts) :
    ∃ ps last, ps.map (·.2) = ts ∧ text.toList = written ps ++ last ∧ Cover [] [] ps last ∧
      ts.Pairwise fun t u => t.location.Before u.location := by
  have hrest : Rest limit [] [] text.toList ts := ⟨h, fun hlast => by cases hlast⟩
  obtain ⟨ps, last, hps, hwritten, hcover⟩ := hrest.exists_cover (.top [])
  exact ⟨ps, last, hps, hwritten, hcover,
    (before_of_ofLexemes (fun _ hl => Lexeme.raw_ne_nil_of_mem hl) (.inl rfl) h).2⟩

/-- A text with a comment in front of each kind of token, with a block that is not closed and a closer
of another in it, and with a comment that has no end. -/
def openBlockText : String := "#a/*1*/[b/*2*/]\r\n\x7bw/*3*/: /*4*/f(1 ] /*5"

/-- Its tokens cover the text all the same, with the end of the last comment left over. -/
theorem exists_cover_openBlockText : ∃ ts, ofText 2 openBlockText = .ok ts ∧
    ∃ ps last, ps.map (·.2) = ts ∧ openBlockText.toList = written ps ++ last ∧ Cover [] [] ps last ∧
      ts.Pairwise fun t u => t.location.Before u.location := by
  have htokens : (ofText 2 openBlockText).isOk := by decide +kernel
  obtain ⟨ts, hts⟩ := Dialect.exists_eq_ok_of_isOk htokens
  exact ⟨ts, hts, exists_cover_of_ofText hts⟩

end

end MapStyle.Token
