import MapStyle.Proofs.FilterTexts.Slices
import MapStyle.Proofs.Reading.Steps

/-!
# Filters that are closed

A reader is followed up to the bracket that closes a filter. The predicate engine is handed the text that
has been put together until then, and the tokens of that text are those behind the bracket that opened
the filter.
-/

namespace MapStyle

open Grammar (bounds extendText filterText)

variable {P : Type}

namespace Machine

/-- The filter that the next token closes: the bracket that opened it, and its text. -/
def closedFilter? (m : Machine P) : List Token → Option (Token × String)
  | [] => none
  | t :: _ =>
    match m.context with
    | .filterText text opening :: _ =>
      if t.isDelimiter "]" then some (opening, Text.trim text) else none
    | _ => none

variable {d : Dialect P} {m m' : Machine P} {n : Nat} {mode : Mode} {below : List Mode}
  {context : List (Frame P)} {fragments : List (Fragment P)} {t o u : Token}
  {ts ts' read rest : List Token} {text s : String}

lemma closedFilter?_eq_some_iff : m.closedFilter? (u :: ts) = some (o, s) ↔
    ∃ text below, m.context = .filterText text o :: below ∧ u.isDelimiter "]" ∧ s = Text.trim text := by
  constructor
  · intro h
    simp only [closedFilter?] at h
    split at h
    · next text opening below hcontext =>
      split at h
      · next hclose =>
        cases h
        exact ⟨text, below, hcontext, hclose, rfl⟩
      · cases h
    · cases h
  · rintro ⟨text, below, hcontext, hclose, rfl⟩
    simp only [closedFilter?, hcontext, if_pos hclose]

lemma step_engine {engine : PredicateEngine P}
    (h : ∀ text o below, m.context = .filterText text o :: below → t.isDelimiter "]" →
      engine (Text.trim text) = d.engine (Text.trim text)) :
    step { d with engine } mode m t = step d mode m t := by
  cases mode with
  | filter =>
    rw [step, step, stepFilter, stepFilter]
    split
    · next text opening below hcontext =>
      rw [stepFilterText, stepFilterText]
      split
      · next hclose =>
        simp only [closeFilter, hcontext, h text opening below hcontext hclose]
      · rfl
    · rfl
  | _ => rfl

/-- The predicate engine is asked for nothing but the text of a filter that the next token closes. -/
theorem advance_engine {engine : PredicateEngine P}
    (h : ∀ o s, m.closedFilter? ts = some (o, s) → engine s = d.engine s) :
    advance { d with engine } m ts = advance d m ts := by
  unfold advance
  split
  · rfl
  · split
    · rfl
    · cases ts with
      | nil => rfl
      | cons t ts =>
        refine congrArg (Except.map _) (step_engine fun text o below hcontext hclose => ?_)
        exact h o _ (closedFilter?_eq_some_iff.mpr ⟨text, below, hcontext, hclose, rfl⟩)

/-! ### The tokens of a filter -/

/-- Only the filters behind a selector hold the text of one. -/
lemma eq_filter_of_aligned (h : Aligned (mode :: below) (.filterText text o :: context) fragments ts) :
    mode = .filter := by
  generalize hcontext : Frame.filterText text o :: context = frames at h
  cases h with
  | filter => rfl
  | nest h => cases h <;> cases hcontext
  | selectors h hmarkers => cases hmarkers <;> cases hcontext
  | _ => cases hcontext

/-- Nothing is read within a filter. -/
lemma not_aligned_above_filter (h : Aligned (mode :: .filter :: below) context fragments ts) : False := by
  generalize hcontrol : mode :: .filter :: below = control at h
  cases h with
  | nest h =>
    cases h with
    | top => cases hcontrol
    | rule h =>
      cases hcontrol
      cases h
  | selectors h | selectorsComma h | declaration h | declarationKey h =>
    cases hcontrol
    cases h
  | _ => cases hcontrol

/-- Where the filters behind a selector start, nothing has changed. -/
lemma eq_of_enter_filter (h : step d mode m t = .ok (.enter .filter m')) : m' = m := by
  cases mode with
  | root =>
    simp only [step, stepRoot] at h
    grind [Token.map_eq_ok_iff]
  | rule =>
    simp only [step, stepRule, stepBody, stepSelector, stepSelectorPart] at h
    grind [Token.map_eq_ok_iff]
  | declaration =>
    simp only [step, stepDeclaration] at h
    grind [Token.map_eq_ok_iff]
  | filter =>
    simp only [step, stepFilter, stepFilterText] at h
    grind [Token.map_eq_ok_iff]
  | call =>
    simp only [step, stepCall, stepArguments] at h
    grind [Token.map_eq_ok_iff]
  | reference =>
    simp only [step, stepReference] at h
    grind [Token.map_eq_ok_iff]
  | map =>
    simp only [step, stepMap] at h
    grind

/-- What has been read ends with the tokens of the filter that is being read, if one is. -/
def Collected (read : List Token) (context : List (Frame P)) : Prop :=
  ∀ text o below, context = .filterText text o :: below → ∃ front inner, read = front ++ o :: inner ∧
    o.isDelimiter "[" ∧ (∀ t ∈ inner, ¬ bounds t) ∧ text = inner.foldl extendText ""

lemma collected_of_aligned (h : Aligned m.control m.context fragments ts)
    (hcontrol : m.control.head? ≠ some .filter) : Collected read m.context := by
  intro text o below hcontext
  rw [hcontext] at h
  match heq : m.control with
  | [] =>
    rw [heq] at h
    cases h with
    | nest h => cases h
  | mode :: modes =>
    rw [heq] at h hcontrol
    exact absurd (congrArg some (eq_filter_of_aligned h)) hcontrol

lemma stepFilter_stay_cases (hcontext : ∀ text o below, m.context ≠ .filterText text o :: below)
    (h : stepFilter d m t = .ok (.stay m')) :
    m' = m ∨ (t.isDelimiter "[" ∧ m' = m.pushFrame (.filterText "" t)) ∨
      m' = m.pushFrame .commaMarker := by
  unfold stepFilter at h
  split at h
  · next heq => exact absurd heq (hcontext _ _ _)
  · grind

lemma stepFilterText_stay_cases (hcontext : m.context = .filterText text o :: context)
    (h : stepFilterText d m t = .ok (.stay m')) : m.closeFilter d.engine = .ok m' ∨
      (¬ bounds t ∧ m' = { m with context := .filterText (extendText text t) o :: context }) := by
  unfold stepFilterText at h
  split at h
  · rw [Token.map_eq_ok_iff] at h
    obtain ⟨m', hclose, heq⟩ := h
    cases heq
    exact .inl hclose
  · next hclose =>
    split at h
    · cases h
    · next hbounds =>
      rw [extendFilter, hcontext, Token.map_eq_ok_iff] at h
      obtain ⟨m', hm', heq⟩ := h
      cases hm'
      cases heq
      exact .inr ⟨fun hb => (bounds_iff.mp hb).elim hclose hbounds, rfl⟩

/-- A filter that is closed goes into the selector that it stands behind. -/
lemma exists_context_of_closeFilter {engine : PredicateEngine P} {frames : List (Frame P)}
    {earlier : List (Selector P)} {current : Selector P} (hframes : FilterFrames frames)
    (hcontext : m.context = frames ++ .selectors earlier current :: context)
    (h : m.closeFilter engine = .ok m') :
    ∃ current', m'.context = .selectors earlier current' :: context := by
  obtain ⟨control, _, fragments, rules, map, warnings, last⟩ := m
  subst hcontext
  cases hframes with
  | none | comma => cases h
  | text text opening | commaText text opening =>
    simp only [closeFilter, List.cons_append, List.nil_append, updateSelector, updateInContext] at h
    split at h
    · cases h
    split at h
    · cases h
    · cases h
      exact ⟨_, rfl⟩

/-- The text of a filter is started at its bracket, and each token goes on with it. -/
lemma collected_stepFilter (h : Aligned (.filter :: below) m.context fragments (t :: ts))
    (hcollected : Collected read m.context) (hstep : stepFilter d m t = .ok (.stay m')) :
    Collected (read ++ [t]) m'.context := by
  by_cases htext : ∃ text o below, m.context = .filterText text o :: below
  · obtain ⟨text, o, frames, hcontext⟩ := htext
    have hstep : stepFilterText d m t = .ok (.stay m') := by
      rwa [stepFilter, hcontext] at hstep
    obtain hclose | ⟨ht, rfl⟩ := stepFilterText_stay_cases hcontext hstep
    · generalize hframes : m.context = context at h
      cases h with
      | nest h => cases h
      | filter h hfilter =>
        obtain ⟨current', hcurrent⟩ := exists_context_of_closeFilter hfilter hframes hclose
        rw [hcurrent]
        rintro _ _ _ ⟨⟩
    · rintro _ _ _ ⟨⟩
      obtain ⟨front, inner, rfl, ho, hinner, rfl⟩ := hcollected _ _ _ hcontext
      refine ⟨front, inner ++ [t], by simp, ho, ?_, by simp⟩
      exact List.forall_mem_append.mpr ⟨hinner, List.forall_mem_singleton.mpr ht⟩
  · simp only [not_exists] at htext
    obtain rfl | ⟨ht, rfl⟩ | rfl := stepFilter_stay_cases htext hstep
    · exact fun text o below heq => absurd heq (htext text o below)
    · rintro _ _ _ ⟨⟩
      exact ⟨read, [], rfl, ht, List.forall_mem_nil _, rfl⟩
    · rintro _ _ _ ⟨⟩

/-- A step keeps what is known of the text of a filter. -/
lemma collected_advance (h : Aligned m.control m.context m.fragments ts)
    (hcollected : Collected read m.context) (hadvance : advance d m ts = .ok (m', ts')) :
    ∃ more, ts = more ++ ts' ∧ Collected (read ++ more) m'.context := by
  have hnext := aligned_advance h hadvance
  cases moves_of_advance hadvance with
  | done | ends => exact ⟨[], rfl, by simpa using hcollected⟩
  | @opens below n ts us hcontrol hunopened hmap =>
    obtain ⟨more, hmore⟩ := openMap_suffix hmap
    refine ⟨more, hmore.symm, collected_of_aligned hnext ?_⟩
    rw [(openMap_eq_ok hmap below).2.1, hcontrol]
    nofun
  | @steps mode below t ts o hcontrol hopened hstep =>
    rw [hcontrol] at h
    have hbelow : below.head? ≠ some .filter := by
      intro hhead
      obtain ⟨modes, rfl⟩ := List.head?_eq_some_iff.mp hhead
      exact not_aligned_above_filter h
    -- where the filters behind a selector go on, they have been entered here or go on from here
    cases o with
    | stay n =>
      refine ⟨[t], rfl, ?_⟩
      by_cases hmode : mode = .filter
      · subst hmode
        have hn : Collected (read ++ [t]) n.context :=
          collected_stepFilter (m := { m with last := t.location }) h hcollected hstep
        exact hn
      · exact collected_of_aligned hnext (by simpa [Outcome.next] using hmode)
    | enter child n =>
      refine ⟨[], rfl, ?_⟩
      by_cases hchild : child = .filter
      · subst hchild
        obtain rfl := eq_of_enter_filter hstep
        rw [List.append_nil]
        exact hcollected
      · exact collected_of_aligned hnext (by simpa [Outcome.next] using hchild)
    | leave n => exact ⟨[], rfl, collected_of_aligned hnext hbelow⟩
    | close n => exact ⟨[t], rfl, collected_of_aligned hnext hbelow⟩

/-- A filter that a reader closes consists of the tokens between its brackets. -/
theorem exists_inner_of_closedFilter? (hadvances : advances d n {} ts = .ok (m, u :: rest))
    (hclosed : m.closedFilter? (u :: rest) = some (o, s)) :
    u.isDelimiter "]" ∧ o.isDelimiter "[" ∧ ∃ front inner, ts = front ++ o :: (inner ++ u :: rest) ∧
      (∀ t ∈ inner, ¬ bounds t) ∧ s = filterText inner := by
  have hreads : Aligned m.control m.context m.fragments (u :: rest) ∧
      ∃ read, ts = read ++ u :: rest ∧ Collected read m.context := by
    refine advances_induction (motive := fun m us => Aligned m.control m.context m.fragments us ∧
      ∃ read, ts = read ++ us ∧ Collected read m.context) ?_ ?_ hadvances
    · rintro m ts m' ts' ⟨halign, read, hts, hcollected⟩ hadvance
      obtain ⟨more, rfl, hnext⟩ := collected_advance halign hcollected hadvance
      exact ⟨aligned_advance halign hadvance, read ++ more, by simpa using hts, hnext⟩
    · exact ⟨.nest .top, [], rfl, fun _ _ _ heq => by cases heq⟩
  obtain ⟨-, read, hts, hcollected⟩ := hreads
  obtain ⟨text, below, hcontext, hclose, rfl⟩ := closedFilter?_eq_some_iff.mp hclosed
  obtain ⟨front, inner, rfl, ho, hinner, rfl⟩ := hcollected text o below hcontext
  exact ⟨hclose, ho, front, inner, by simpa using hts, hinner, Grammar.trim_foldl_extendText inner⟩

end Machine

namespace Token

/-- What stands behind the last token of a kind in a list does not depend on how the list is split. -/
lemma eq_of_append_cons {p : Token → Prop} {front front' inner inner' : List Token} {o o' : Token}
    (h : front ++ o :: inner = front' ++ o' :: inner') (ho : p o) (ho' : p o')
    (hinner : ∀ t ∈ inner, ¬ p t) (hinner' : ∀ t ∈ inner', ¬ p t) : inner = inner' := by
  obtain ⟨as, -, has⟩ | ⟨as, -, has⟩ := List.append_eq_append_iff.mp h
  · cases as with
    | nil => exact (List.cons.inj has).2
    | cons a as =>
      obtain rfl := (List.cons.inj has).2
      exact absurd ho' (hinner o' (by simp))
  · cases as with
    | nil => exact (List.cons.inj has).2.symm
    | cons a as =>
      obtain rfl := (List.cons.inj has).2
      exact absurd ho (hinner' o (by simp))

end Token

namespace Dialect

open Machine Token

/-- The text that is handed to the predicate engine when a filter is closed says the same as the text
between the brackets, if white space in it may be collapsed. -/
theorem toOption_parse_closedFilter {d : Dialect P} {text s : String} {n : Nat} {m : Machine P}
    {o u : Token} {ts front inner rest : List Token} (hts : Token.ofText d.maxDepth text = .ok ts)
    (hspace : ∀ c ∈ text.toList, Text.isBlank c → Lexeme.isSpace c)
    (hadvances : Machine.advances d n {} ts = .ok (m, u :: rest))
    (hclosed : m.closedFilter? (u :: rest) = some (o, s))
    (hinner : ts = front ++ o :: (inner ++ u :: rest)) (hbounds : ∀ t ∈ inner, ¬ bounds t)
    (hcollapses : Token.Collapses inner) :
    ∃ pre slice post, text.toList = pre ++ o.raw.toList ++ slice ++ u.raw.toList ++ post ∧
      o.location = Location.behind pre ∧ u.location = Location.behind (pre ++ o.raw.toList ++ slice) ∧
      (Cql.Expr.parse s).toOption = (Cql.Expr.parse (String.ofList slice)).toOption := by
  obtain ⟨hclose, hopen, front', inner', hinner', hbounds', rfl⟩ :=
    exists_inner_of_closedFilter? hadvances hclosed
  have hbracket : bounds o := List.any_eq_true.mpr ⟨"[", by simp, hopen⟩
  have hsplit : front ++ o :: inner = front' ++ o :: inner' := by
    rw [hinner, ← List.cons_append, ← List.append_assoc, ← List.cons_append, ← List.append_assoc] at hinner'
    exact List.append_cancel_right hinner'
  obtain rfl := Token.eq_of_append_cons (p := (bounds ·)) hsplit hbracket hbracket hbounds hbounds'
  subst hinner
  exact Token.toOption_parse_filterText hts hspace hopen hclose hbounds hcollapses

lemma exists_eq_ok_of_any {ε α : Type} {x : Except ε α} {p : α → Bool} (h : x.toOption.any p) :
    ∃ a, x = .ok a ∧ p a := by
  cases x with
  | error => cases h
  | ok a => exact ⟨a, rfl, h⟩

lemma isSpace_of_all {cs : List Char} (h : cs.all fun c => !Text.isBlank c || Lexeme.isSpace c) :
    ∀ c ∈ cs, Text.isBlank c → Lexeme.isSpace c := by
  simpa [imp_iff_not_or] using List.all_eq_true.mp h

/-- A stylesheet with comments and white space in a filter. -/
def laneText : String := "#road[/*1*/lanes/*2*/\t= 1/*3*/]\x7b\x7d"

/-- The tokens of that filter. -/
def laneTokens : List Token :=
  [⟨.identifier, "/*1*/lanes", "lanes", ⟨1, 7⟩⟩, ⟨.whitespace, "/*2*/\t", " ", ⟨1, 17⟩⟩,
    ⟨.operator, "=", "=", ⟨1, 23⟩⟩, ⟨.whitespace, " ", " ", ⟨1, 24⟩⟩, ⟨.number, "1", "1", ⟨1, 25⟩⟩]

/-- What the parser hands on for that filter says the same as its text between the brackets. -/
theorem toOption_parse_closedFilter_laneText :
    ∃ (m : Machine Cql.Expr) (ts front rest : List Token) (o u : Token) (s : String),
      Token.ofText 64 laneText = .ok ts ∧ (∀ c ∈ laneText.toList, Text.isBlank c → Lexeme.isSpace c) ∧
      Machine.advances { engine := Cql.Expr.parse } 9 {} ts = .ok (m, u :: rest) ∧
      m.closedFilter? (u :: rest) = some (o, s) ∧ ts = front ++ o :: (laneTokens ++ u :: rest) ∧
      (∀ t ∈ laneTokens, ¬ bounds t) ∧ Token.Collapses laneTokens ∧
      ∃ pre slice post, laneText.toList = pre ++ o.raw.toList ++ slice ++ u.raw.toList ++ post ∧
        o.location = Location.behind pre ∧
        u.location = Location.behind (pre ++ o.raw.toList ++ slice) ∧
        (Cql.Expr.parse s).toOption = (Cql.Expr.parse (String.ofList slice)).toOption := by
  let o : Token := ⟨.delimiter, "[", "[", ⟨1, 6⟩⟩
  let u : Token := ⟨.delimiter, "]", "]", ⟨1, 31⟩⟩
  let front : List Token := [⟨.colorLiteral, "#road", "#road", ⟨1, 1⟩⟩]
  let rest : List Token := [⟨.delimiter, "\x7b", "\x7b", ⟨1, 32⟩⟩, ⟨.delimiter, "\x7d", "\x7d", ⟨1, 33⟩⟩]
  have htokens : (Token.ofText 64 laneText).toOption.any
      (decide <| · = front ++ o :: (laneTokens ++ u :: rest)) := by decide +kernel
  obtain ⟨ts, hts, heq⟩ := exists_eq_ok_of_any htokens
  obtain rfl := of_decide_eq_true heq
  have hstate : (Machine.advances { engine := Cql.Expr.parse } 9 {}
      (front ++ o :: (laneTokens ++ u :: rest))).toOption.any fun (m, us) =>
        us = u :: rest ∧ m.closedFilter? us = some (o, "/*1*/lanes = 1") := by decide +kernel
  obtain ⟨⟨m, us⟩, hadvances, heq⟩ := exists_eq_ok_of_any hstate
  obtain ⟨rfl, hclosed⟩ := of_decide_eq_true heq
  have hspace : ∀ c ∈ laneText.toList, Text.isBlank c → Lexeme.isSpace c :=
    isSpace_of_all (by decide +kernel)
  have hbounds : ∀ t ∈ laneTokens, ¬ bounds t := by decide +kernel
  have hcollapses : Token.Collapses laneTokens := by decide +kernel
  exact ⟨m, _, front, rest, o, u, _, hts, hspace, hadvances, hclosed, rfl, hbounds, hcollapses,
    toOption_parse_closedFilter hts hspace hadvances hclosed rfl hbounds hcollapses⟩

/-- A stylesheet with a blank behind a backslash at the end of a filter. -/
def escapedBlankText : String := "#r[x = a\\ ] \x7b w: 1; \x7d"

/-- The blank of an escape at the end of a filter is trimmed. -/
theorem exists_closedFilter_ne : ∃ (text s : String) (n : Nat) (m : Machine Cql.Expr) (ts rest : List Token)
    (o u : Token) (pre slice post : List Char), Token.ofText 64 text = .ok ts ∧
      (∀ c ∈ text.toList, Text.isBlank c → Lexeme.isSpace c) ∧
      Machine.advances { engine := Cql.Expr.parse } n {} ts = .ok (m, u :: rest) ∧
      m.closedFilter? (u :: rest) = some (o, s) ∧
      text.toList = pre ++ o.raw.toList ++ slice ++ u.raw.toList ++ post ∧
      o.location = Location.behind pre ∧ u.location = Location.behind (pre ++ o.raw.toList ++ slice) ∧
      (Cql.Expr.parse s).toOption ≠ (Cql.Expr.parse (String.ofList slice)).toOption := by
  let o : Token := ⟨.delimiter, "[", "[", ⟨1, 3⟩⟩
  let u : Token := ⟨.delimiter, "]", "]", ⟨1, 11⟩⟩
  have htokens : (Token.ofText 64 escapedBlankText).isOk := by decide +kernel
  have hstate : ((Token.ofText 64 escapedBlankText).bind fun ts =>
      Machine.advances { engine := Cql.Expr.parse } 9 {} ts).toOption.any fun (m, us) =>
        us.head? = some u ∧ m.closedFilter? us = some (o, "x = a\\") := by decide +kernel
  obtain ⟨ts, hts⟩ := exists_eq_ok_of_isOk htokens
  rw [hts] at hstate
  obtain ⟨⟨m, us⟩, hadvances, heq⟩ := exists_eq_ok_of_any hstate
  obtain ⟨hhead, hclosed⟩ := of_decide_eq_true heq
  obtain ⟨rest, rfl⟩ := List.head?_eq_some_iff.mp hhead
  have hdisplay : (Cql.Expr.parse "x = a\\").toOption.map Cql.Expr.display ≠
      (Cql.Expr.parse (String.ofList "x = a\\ ".toList)).toOption.map Cql.Expr.display := by decide +kernel
  exact ⟨escapedBlankText, _, 9, m, ts, rest, o, u, "#r".toList, "x = a\\ ".toList,
    " \x7b w: 1; \x7d".toList, hts, isSpace_of_all (by decide +kernel), hadvances, hclosed, by decide +kernel,
    by decide +kernel, by decide +kernel, fun heq => hdisplay (congrArg _ heq)⟩

end Dialect

end MapStyle
