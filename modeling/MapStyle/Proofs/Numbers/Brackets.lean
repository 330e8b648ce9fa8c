import MapStyle.Proofs.FilterTexts.Groups
import MapStyle.Proofs.Numbers.Warnings
import MapStyle.Proofs.Reading.Progress

/-!
# Square brackets and the state of a reader

A reader is inside square brackets exactly while it reads the text of a filter or the name of a
reference. Each step keeps this in line with the tokens that it takes.
-/

namespace MapStyle

variable {P : Type}

/-- Whether a frame stands for something between square brackets. -/
def Frame.isBracketed : Frame P → Bool
  | filterText _ _ | reference _ _ => true
  | _ => false

namespace Machine

open Token (bracketBehind)

/-- Whether the innermost construct that is being read stands between square brackets. -/
def inBrackets (m : Machine P) : Bool :=
  m.context.head?.any Frame.isBracketed

variable {d : Dialect P} {m n m' : Machine P} {mode child : Mode} {below : List Mode}
  {context : List (Frame P)} {fragments : List (Fragment P)} {t : Token} {ts ts' : List Token}
  {o : Outcome P}

/-! ### One step -/

/-- Only filters and references are read between brackets. -/
lemma not_inBrackets_of_aligned {control : List Mode}
    (h : Aligned control m.context m.fragments ts) (hfilter : control.head? ≠ some .filter)
    (hreference : control.head? ≠ some .reference) : m.inBrackets = false := by
  rw [inBrackets]
  generalize m.context = context at h
  generalize m.fragments = fragments at h
  cases h with
  | nest h => cases h <;> rfl
  | selectors h hmarkers => cases hmarkers <;> rfl
  | filter => exact absurd rfl hfilter
  | referenceBracket | argumentBracket => rfl
  | reference | argument => exact absurd rfl hreference
  | _ => rfl

/-- Nothing is read within a reference. -/
lemma not_aligned_above_reference (h : Aligned (mode :: .reference :: below) context fragments ts) :
    False := by
  generalize hcontrol : mode :: .reference :: below = control at h
  cases h with
  | nest h =>
    cases h with
    | top => cases hcontrol
    | rule h =>
      cases hcontrol
      cases h
  | selectors h | selectorsComma h | declaration h | declarationKey h =>
    cases hcontrol
    cases h
  | _ => cases hcontrol

/-- Behind a construct a reader is outside brackets, whichever construct it was. -/
lemma not_inBrackets_below (h : Aligned (mode :: below) context fragments ts)
    (hnext : Aligned below n.context n.fragments ts') : n.inBrackets = false := by
  apply not_inBrackets_of_aligned hnext
  · intro hhead
    obtain ⟨modes, rfl⟩ := List.head?_eq_some_iff.mp hhead
    exact not_aligned_above_filter h
  · intro hhead
    obtain ⟨modes, rfl⟩ := List.head?_eq_some_iff.mp hhead
    exact not_aligned_above_reference h

lemma exists_enter_of_opens (ht : t.isDelimiter "[") (hfilter : mode ≠ .filter)
    (hreference : mode ≠ .reference) (h : step d mode m t = .ok o) : ∃ child n, o = .enter child n := by
  obtain ⟨raw, location, rfl⟩ := Token.eq_of_isDelimiter ht
  cases mode with
  | root =>
    simp [step, stepRoot, Token.isDelimiter, Token.startsSelector] at h
    exact ⟨_, _, h.symm⟩
  | rule =>
    simp only [step, stepRule, stepBody, stepSelector, stepSelectorPart] at h
    grind [Token.isDelimiter, Token.startsSelector]
  | declaration =>
    simp only [step, stepDeclaration] at h
    grind [Token.map_eq_ok_iff]
  | filter => exact absurd rfl hfilter
  | call =>
    simp only [step, stepCall, stepArguments] at h
    grind [Token.map_eq_ok_iff]
  | reference => exact absurd rfl hreference
  | map => simp [step, stepMap, Token.isWhitespace, Token.isDelimiter] at h

lemma not_inBrackets_of_enter_reference (h : step d mode m t = .ok (.enter .reference n)) :
    n.inBrackets = false := by
  -- the frame below is a declaration or a call, and neither is bracketed
  have hdeclaration : ∀ f, m.updateDeclaration t f = .ok n → n.inBrackets = false := by
    intro f hf
    simp only [updateDeclaration] at hf
    grind [Token.map_eq_ok_iff, inBrackets, Frame.isBracketed]
  have hcall : ∀ f, m.updateCall t f = .ok n → n.inBrackets = false := by
    intro f hf
    simp only [updateCall] at hf
    grind [Token.map_eq_ok_iff, inBrackets, Frame.isBracketed]
  cases mode with
  | root =>
    simp only [step, stepRoot] at h
    grind [Token.map_eq_ok_iff]
  | rule =>
    simp only [step, stepRule, stepBody, stepSelector, stepSelectorPart] at h
    grind [Token.map_eq_ok_iff]
  | declaration =>
    simp only [step, stepDeclaration] at h
    grind [Token.map_eq_ok_iff]
  | filter =>
    simp only [step, stepFilter, stepFilterText] at h
    grind [Token.map_eq_ok_iff]
  | call =>
    simp only [step, stepCall, stepArguments] at h
    grind [Token.map_eq_ok_iff]
  | reference =>
    simp only [step, stepReference] at h
    grind [Token.map_eq_ok_iff]
  | map =>
    simp only [step, stepMap] at h
    grind

/-- A reference is left with its closing bracket, and by nothing else. -/
lemma inBrackets_stepReference (h : stepReference m t = .ok o) :
    (∃ n, o = .stay n ∧ n.inBrackets = t.bracketBehind m.inBrackets) ∨
      ∃ n, o = .close n ∧ t.isDelimiter "]" := by
  simp only [stepReference] at h
  grind [Token.map_eq_ok_iff, bracketBehind, inBrackets, Frame.isBracketed, Token.isDelimiter,
    Token.isWhitespace, pushFrame]

/-- The text of a filter goes on up to the bracket that closes it. -/
lemma inBrackets_stepFilterText (h : Aligned (.filter :: below) m.context fragments (t :: ts))
    {text : String} {opening : Token} {frames : List (Frame P)}
    (hcontext : m.context = .filterText text opening :: frames)
    (hstep : stepFilterText d m t = .ok o) :
    ∃ n, o = .stay n ∧ n.inBrackets = t.bracketBehind m.inBrackets := by
  have hin : m.inBrackets = true := by
    rw [inBrackets, hcontext]
    rfl
  unfold stepFilterText at hstep
  split at hstep
  · -- the closing bracket: the filter goes into its selector
    next hclose =>
    rw [Token.map_eq_ok_iff] at hstep
    obtain ⟨n, hn, rfl⟩ := hstep
    generalize hframes : m.context = context at h
    cases h with
    | nest h => cases h
    | filter h hfilter =>
      obtain ⟨current, hcurrent⟩ := exists_context_of_closeFilter hfilter hframes hn
      refine ⟨n, rfl, ?_⟩
      rw [inBrackets, hcurrent, bracketBehind, if_neg (Token.not_isDelimiter hclose (by decide)),
        if_pos hclose]
      rfl
  · -- any other token extends the text, and an opening bracket is none
    next hclose =>
    split at hstep
    · cases hstep
    · next hbounds =>
      have hopen : ¬ t.isDelimiter "[" := fun hopen =>
        hbounds (List.any_eq_true.mpr ⟨"[", by simp, hopen⟩)
      rw [extendFilter, hcontext, Token.map_eq_ok_iff] at hstep
      obtain ⟨n, hn, rfl⟩ := hstep
      cases hn
      refine ⟨_, rfl, ?_⟩
      rw [hin, bracketBehind, if_neg hopen, if_neg hclose]
      rfl

/-- The filters behind a selector are left in front of the token that ends them. -/
lemma inBrackets_stepFilter (h : Aligned (.filter :: below) m.context fragments (t :: ts))
    (hstep : stepFilter d m t = .ok o) :
    (∃ n, o = .stay n ∧ n.inBrackets = t.bracketBehind m.inBrackets) ∨
      ∃ n, o = .leave n ∧ m.inBrackets = false := by
  by_cases htext : ∃ text opening frames, m.context = .filterText text opening :: frames
  · obtain ⟨text, opening, frames, hcontext⟩ := htext
    refine .inl (inBrackets_stepFilterText h hcontext (d := d) ?_)
    rwa [stepFilter, hcontext] at hstep
  · have hin : m.inBrackets = false := by
      generalize hcontext : m.context = context at h
      cases h with
      | nest h => cases h
      | filter h hframes =>
        rw [inBrackets, hcontext]
        cases hframes with
        | none | comma => rfl
        | text | commaText => exact absurd ⟨_, _, _, hcontext⟩ htext
    unfold stepFilter at hstep
    split at hstep
    · next hcontext => exact absurd ⟨_, _, _, hcontext⟩ htext
    · grind [bracketBehind, inBrackets, Frame.isBracketed, Token.isDelimiter, Token.isWhitespace,
        pushFrame]

/-! ### Steps -/

lemma exists_of_openMap (h : m.openMap ts = .ok (m', ts')) :
    m'.inBrackets = false ∧ ∃ blanks u, ts.tail = blanks ++ u :: ts' ∧ (∀ x ∈ blanks, x.isWhitespace) ∧
      u.isDelimiter "\x7b" := by
  unfold openMap at h
  split at h
  · cases h
  · next u rest hdrop =>
    split at h
    · next hbrace =>
      cases h
      have hblanks := Grammar.blanks_dropWhile ts.tail
      rw [hdrop] at hblanks
      obtain ⟨blanks, htail, hblank⟩ := hblanks.exists_append
      exact ⟨rfl, blanks, u, htail, hblank, hbrace⟩
    · cases h

/-- The keyword, the blanks and the brace that open a `Map` block have no brackets among them. -/
lemma inBrackets_openMap {m : Machine P} (h : Aligned m.control m.context m.fragments ts)
    (hcontrol : m.control = .map :: below) (hunopened : ¬ m.inMapBody)
    (hmap : m.openMap ts = .ok (m', ts')) :
    m.inBrackets = false ∧ m'.inBrackets = false ∧
      ∃ more, ts = more ++ ts' ∧ ∀ x ∈ more, x.IsQuiet := by
  have hin : m.inBrackets = false :=
    not_inBrackets_of_aligned h (by rw [hcontrol]; nofun) (by rw [hcontrol]; nofun)
  obtain ⟨hbody, blanks, u, htail, hblanks, hbrace⟩ := exists_of_openMap hmap
  refine ⟨hin, hbody, ?_⟩
  obtain ⟨control, context, fragments, rules, map, warnings, last⟩ := m
  subst hcontrol
  cases h with
  | nest h => cases h
  | map => exact absurd rfl hunopened
  | @mapKeyword t ts hkeyword =>
    have hkind : t.kind = .identifier := eq_of_beq (Bool.and_eq_true_iff.mp hkeyword).1
    obtain rfl : ts = blanks ++ u :: ts' := htail
    refine ⟨t :: (blanks ++ [u]), by simp, List.forall_mem_cons.mpr ⟨Token.IsWord.isQuiet (.inl hkind), ?_⟩⟩
    refine List.forall_mem_append.mpr ⟨fun x hx => Token.isQuiet_of_isWhitespace (hblanks x hx), ?_⟩
    rw [List.forall_mem_singleton]
    exact Token.isQuiet_of_isDelimiter hbrace (by decide) (by decide)

lemma bracketBehind_of_not_opens (h : ¬ t.isDelimiter "[") : t.bracketBehind false = false := by
  rw [bracketBehind, if_neg h, ite_self]

/-- Outside filters and references a reader is outside brackets, and takes no opening bracket. -/
lemma inBrackets_step (h : Aligned (mode :: below) m.context m.fragments (t :: ts))
    (hopened : mode = .map → m.inMapBody) (hfilter : mode ≠ .filter) (hreference : mode ≠ .reference)
    (hstep : step d mode m t = .ok o) : m.inBrackets = false ∧
      (o.next mode below t ts).1.inBrackets = false ∧
      ((o.next mode below t ts).2 = ts → ¬ t.isDelimiter "[") := by
  have hin : m.inBrackets = false :=
    not_inBrackets_of_aligned h (by simpa using hfilter) (by simpa using hreference)
  have hnext : o.IsAligned mode below t ts := by
    have hexplains := aligned_step (d := d) h hopened
    rwa [hstep] at hexplains
  have hopens : (∀ child n, o ≠ .enter child n) → ¬ t.isDelimiter "[" := by
    intro hne hopen
    obtain ⟨child, n, heq⟩ := exists_enter_of_opens hopen hfilter hreference hstep
    exact hne child n heq
  refine ⟨hin, ?_⟩
  cases o with
  | stay n =>  -- the mode stays, and it is none of the two that are inside brackets
    refine ⟨not_inBrackets_of_aligned hnext ?_ ?_, fun _ => hopens (by rintro _ _ ⟨⟩)⟩
    · simpa [Outcome.next] using hfilter
    · simpa [Outcome.next] using hreference
  | enter child n =>
    refine ⟨?_, fun heq => absurd heq (List.cons_ne_self t ts)⟩
    -- the construct that starts is in front of its bracket, not behind it
    by_cases hchild : child = .filter
    · subst hchild
      obtain rfl := eq_of_enter_filter hstep
      exact hin
    by_cases hchild' : child = .reference
    · subst hchild'
      have hn := not_inBrackets_of_enter_reference hstep
      exact hn
    · apply not_inBrackets_of_aligned hnext
      · simpa [Outcome.next] using hchild
      · simpa [Outcome.next] using hchild'
  | leave n =>
    exact ⟨not_inBrackets_below h hnext, fun heq => absurd heq (List.cons_ne_self t ts)⟩
  | close n => exact ⟨not_inBrackets_below h hnext, fun _ => hopens (by rintro _ _ ⟨⟩)⟩

/-- A reader is inside brackets in line with the tokens that a step takes. A number is taken alone. -/
lemma inBrackets_advance (h : Aligned m.control m.context m.fragments ts)
    (hadvance : advance d m ts = .ok (m', ts')) :
    ∃ more, ts = more ++ ts' ∧ m'.inBrackets = more.foldl bracketBehind m.inBrackets ∧
      ∀ x ∈ more, x.kind = .number → more = [x] := by
  have hnext := aligned_advance h hadvance
  cases moves_of_advance hadvance with
  | done | ends => exact ⟨[], rfl, rfl, List.forall_mem_nil _⟩
  | @opens below n ts us hcontrol hunopened hmap =>  -- the word `Map` and its brace hold no bracket
    obtain ⟨hin, hbody, more, rfl, hquiet⟩ := inBrackets_openMap h hcontrol hunopened hmap
    refine ⟨more, rfl, ?_, fun x hx hnumber => absurd hnumber (hquiet x hx).kind⟩
    rw [hin, hbody, Token.foldl_bracketBehind_of_isQuiet hquiet]
  | @steps mode below t ts o hcontrol hopened hstep =>
    rw [hcontrol] at h
    -- a step that takes a token takes that one alone
    have htaken : ∀ x ∈ [t], x.kind = .number → [t] = [x] := by
      intro x hx _
      rw [List.mem_singleton.mp hx]
    by_cases hfilter : mode = .filter
    · -- the filter reads its opening bracket itself, and its closing one
      subst hfilter
      obtain ⟨n, rfl, hn⟩ | ⟨n, rfl, hin⟩ :=
        inBrackets_stepFilter (m := { m with last := t.location }) h hstep
      · exact ⟨[t], rfl, hn, htaken⟩
      · have hn : n.inBrackets = m.inBrackets := (not_inBrackets_below h hnext).trans hin.symm
        exact ⟨[], rfl, hn, List.forall_mem_nil _⟩
    by_cases hreference : mode = .reference
    · subst hreference
      obtain ⟨n, rfl, hn⟩ | ⟨n, rfl, hclose⟩ :=
        inBrackets_stepReference (m := { m with last := t.location }) hstep
      · exact ⟨[t], rfl, hn, htaken⟩
      · have hn : n.inBrackets = false := not_inBrackets_below h hnext
        refine ⟨[t], rfl, hn.trans ?_, htaken⟩
        rw [List.foldl_cons, bracketBehind, if_neg (Token.not_isDelimiter hclose (by decide)),
          if_pos hclose]
        rfl
    -- in any other mode a bracket is left to the construct that it starts
    obtain ⟨hin, hbehind, hopen⟩ :=
      inBrackets_step (m := { m with last := t.location }) h hopened hfilter hreference hstep
    have hin : m.inBrackets = false := hin
    rw [hbehind, hin]
    cases o with
    | stay n | close n =>
      exact ⟨[t], rfl, (bracketBehind_of_not_opens (hopen rfl)).symm, htaken⟩
    | enter child n | leave n => exact ⟨[], rfl, rfl, List.forall_mem_nil _⟩

end Machine

end MapStyle
