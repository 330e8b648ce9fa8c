import MapStyle.Proofs.Numbers.Entries

/-!
# Places for white space

Where white space may come between two tokens. The places that are not for it are told from the tokens
alone: those between the brackets of a filter, and those within a class or an attachment. In an accepted
stylesheet a reader is inside the text of a filter exactly in the former.
-/

namespace MapStyle

variable {P : Type}

namespace Token

/-- Whether a token is a brace or a semicolon. -/
def endsHead (t : Token) : Bool :=
  [";", "\x7b", "\x7d"].any t.isDelimiter

/-- Whether a block is opened by the next brace or semicolon. This tells a selector from a declaration. -/
def opensBlock (ts : List Token) : Bool :=
  (ts.find? endsHead).any (·.isDelimiter "\x7b")

/-- The place between two runs of tokens is between the brackets of a filter: a square bracket is open
there, and it belongs to a selector. -/
def InFilter (front back : List Token) : Prop :=
  bracketed front ∧ opensBlock back

instance (front back : List Token) : Decidable (InFilter front back) :=
  inferInstanceAs (Decidable (_ ∧ _))

/-- The place between two runs of tokens is within a part of a selector that is written without blanks:
behind the full stop of a class, or behind one of the two colons of an attachment. -/
inductive InPart : List Token → List Token → Prop
  | fullStop {front back : List Token} {t : Token} (h : t.isOperator ".") : InPart (front ++ [t]) back
  | firstColon {front back : List Token} {t u : Token} (h : t.isDelimiter ":") (h' : u.isDelimiter ":") :
      InPart (front ++ [t]) (u :: back)
  | secondColon {front back : List Token} {t u : Token} (h : t.isDelimiter ":") (h' : u.isDelimiter ":") :
      InPart (front ++ [t, u]) back

variable {front back ts : List Token} {t u : Token}

lemma InPart.cons (h : InPart front back) (t : Token) : InPart (t :: front) back := by
  cases h with
  | fullStop h =>
    rw [← List.cons_append]
    exact .fullStop h
  | firstColon h h' =>
    rw [← List.cons_append]
    exact .firstColon h h'
  | secondColon h h' =>
    rw [← List.cons_append]
    exact .secondColon h h'

lemma InPart.getLast? (h : InPart front back) :
    ∃ t, front.getLast? = some t ∧ (t.isOperator "." ∨ t.isDelimiter ":") := by
  cases h with
  | fullStop h => exact ⟨_, List.getLast?_concat, .inl h⟩
  | firstColon h => exact ⟨_, List.getLast?_concat, .inr h⟩
  | @secondColon front _ t u _ h' =>
    rw [List.append_cons]
    exact ⟨_, List.getLast?_concat, .inr h'⟩

lemma opensBlock_cons_of_brace (h : t.isDelimiter "\x7b") : opensBlock (t :: ts) := by
  have hends : t.endsHead := List.any_eq_true.mpr ⟨"\x7b", by simp, h⟩
  rw [opensBlock, List.find?_cons_of_pos hends]
  exact h

lemma opensBlock_cons_of_not_endsHead (h : ¬ t.endsHead) : opensBlock (t :: ts) = opensBlock ts := by
  rw [opensBlock, List.find?_cons_of_neg h, opensBlock]

lemma not_opensBlock_cons (h : t.endsHead) (h' : ¬ t.isDelimiter "\x7b") : ¬ opensBlock (t :: ts) := by
  rw [opensBlock, List.find?_cons_of_pos h]
  exact h'

lemma endsHead_iff :
    t.endsHead ↔ t.kind = .delimiter ∧ (t.text = ";" ∨ t.text = "\x7b" ∨ t.text = "\x7d") := by
  simp only [endsHead, isDelimiter, List.any_cons, List.any_nil]
  grind

lemma not_endsHead_of_kind (h : t.kind ≠ .delimiter) : ¬ t.endsHead := by
  simp [endsHead, isDelimiter, h]

lemma not_endsHead_of_isDelimiter {text : String} (h : t.isDelimiter text)
    (htext : text ∉ [";", "\x7b", "\x7d"]) : ¬ t.endsHead := by
  intro hends
  obtain ⟨u, hu, ht⟩ := List.any_eq_true.mp hends
  exact not_isDelimiter h (by grind) ht

end Token

/-- Whether a mode reads a declaration or one of its values. -/
def Mode.readsValues : Mode → Bool
  | declaration | call | reference => true
  | _ => false

namespace Machine

open Token

variable {d : Dialect P} {p : Parsed P} {m n : Machine P} {mode : Mode} {below : List Mode}
  {markers frames context : List (Frame P)} {fragments : List (Fragment P)}
  {earlier : List (Selector P)} {current : Selector P} {t : Token} {ts : List Token} {o : Outcome P}

/-! ### In a selector -/

/-- What a token in a list of selectors leads to. Given is the context below the selectors. -/
inductive SelectorStep (m : Machine P) (t : Token) (frames : List (Frame P)) : Outcome P → Prop
  | part {n : Machine P} {earlier : List (Selector P)} {current : Selector P} (ht : ¬ t.endsHead)
      (hn : n.context = .selectors earlier current :: frames) : SelectorStep m t frames (.stay n)
  | fullStop {n : Machine P} (ht : t.isOperator ".") (hn : n.context = .classMarker :: m.context) :
      SelectorStep m t frames (.stay n)
  | firstColon {n : Machine P} (ht : t.isDelimiter ":") (hn : n.context = .colonMarker :: m.context) :
      SelectorStep m t frames (.stay n)
  | secondColon {n : Machine P} {context : List (Frame P)} (ht : t.isDelimiter ":")
      (hm : m.context = .colonMarker :: context) (hn : n.context = .attachmentMarker :: context) :
      SelectorStep m t frames (.stay n)
  | filter : SelectorStep m t frames (.enter .filter m)
  | brace {n : Machine P} (ht : t.isDelimiter "\x7b") (hn : n.context = .ruleBody :: frames) :
      SelectorStep m t frames (.stay n)

lemma exists_selectors_of_updateSelector {f : Selector P → Except Error (Selector P)}
    (hcontext : m.context = .selectors earlier current :: frames)
    (h : m.updateSelector t f = .ok n) : ∃ s, n.context = .selectors earlier s :: frames := by
  rw [updateSelector, hcontext, updateInContext, Token.map_eq_ok_iff] at h
  obtain ⟨context, hs, rfl⟩ := h
  obtain ⟨s, -, rfl⟩ := Token.map_eq_ok_iff.mp hs
  exact ⟨s, rfl⟩

lemma selectorStep_of_updateSelector {f : Selector P → Except Error (Selector P)} (ht : ¬ t.endsHead)
    (hcontext : n.context = .selectors earlier current :: frames)
    (h : (n.updateSelector t f).map .stay = .ok o) : SelectorStep m t frames o := by
  obtain ⟨n', hn', rfl⟩ := Token.map_eq_ok_iff.mp h
  obtain ⟨s, hs⟩ := exists_selectors_of_updateSelector hcontext hn'
  exact .part ht hs

lemma selectorStep_stepSelectorPart (hcontext : m.context = .selectors earlier current :: frames)
    (h : stepSelectorPart d m t = .ok o) : SelectorStep m t frames o := by
  unfold stepSelectorPart at h
  split at h
  · -- white space, a name and an id are parts of the selector
    next hkind =>
    cases h
    exact .part (not_endsHead_of_kind (by simp [hkind])) hcontext
  · next hkind => exact selectorStep_of_updateSelector (not_endsHead_of_kind (by simp [hkind])) hcontext h
  · next hkind => exact selectorStep_of_updateSelector (not_endsHead_of_kind (by simp [hkind])) hcontext h
  · -- of the operators, a full stop waits for its name and `*` is a part
    next hkind =>
    split at h
    · next htext =>
      cases h
      exact .fullStop (by simp [isOperator, hkind, htext]) rfl
    split at h
    · exact selectorStep_of_updateSelector (not_endsHead_of_kind (by simp [hkind])) hcontext h
    · cases h
  · -- of the delimiters: `:`, `,`, `[` and the brace of the rule
    next hkind =>
    have hdelimiter : ∀ text, t.text = text → t.isDelimiter text := by
      intro text htext
      simp [isDelimiter, hkind, htext]
    split at h
    · next htext =>
      cases h
      exact .firstColon (hdelimiter _ htext) rfl
    split at h
    · next htext =>
      obtain ⟨n, hn, rfl⟩ := Token.map_eq_ok_iff.mp h
      obtain ⟨s, hs⟩ := exists_selectors_of_updateSelector hcontext hn
      have hnext : n.nextSelector.context = .selectors (earlier ++ [s]) {} :: frames := by
        rw [nextSelector, hs]
      exact .part (not_endsHead_of_isDelimiter (hdelimiter _ htext) (by decide)) hnext
    split at h
    · cases h
      exact .filter
    split at h
    · next htext =>
      obtain ⟨n, hn, rfl⟩ := Token.map_eq_ok_iff.mp h
      apply SelectorStep.brace (hdelimiter _ htext)
      rw [openRule, hcontext] at hn
      dsimp only at hn
      split at hn
      · cases hn
      split at hn <;> cases hn
      rfl
    · cases h
  · cases h

/-- A step in a list of selectors, by the marker of a part at hand. -/
lemma selectorStep_stepSelector (hmarkers : PartMarkers markers)
    (hcontext : m.context = markers ++ .selectors earlier current :: frames)
    (h : stepSelector d m t = .ok o) : SelectorStep m t frames o := by
  unfold stepSelector at h
  rw [hcontext] at h
  cases hmarkers with
  | none => exact selectorStep_stepSelectorPart hcontext h
  | classMarker | attachmentMarker =>
    dsimp only [List.cons_append, List.nil_append] at h
    split at h
    · next hkind => exact selectorStep_of_updateSelector (not_endsHead_of_kind (by simp [hkind])) rfl h
    · cases h
  | colonMarker =>
    dsimp only [List.cons_append, List.nil_append] at h
    split at h
    · next ht =>
      cases h
      exact .secondColon ht hcontext rfl
    · cases h

/-- What a token in the filters behind a selector leads to. Given is the context below the selectors. -/
inductive FilterStep (t : Token) (frames : List (Frame P)) : Outcome P → Prop
  | part {n : Machine P} (ht : ¬ t.endsHead) : FilterStep t frames (.stay n)
  | behind {n : Machine P} {earlier : List (Selector P)} {current : Selector P}
      (hn : n.context = .selectors earlier current :: frames) : FilterStep t frames (.leave n)

lemma filterStep_stepFilter (hmarkers : FilterFrames markers)
    (hcontext : m.context = markers ++ .selectors earlier current :: frames)
    (h : stepFilter d m t = .ok o) : FilterStep t frames o := by
  unfold stepFilter at h
  -- inside the filter: the closing bracket, a token that bounds the filter, any other token
  split at h
  · next text opening above htext =>
    unfold stepFilterText at h
    split at h
    · next hclose =>
      obtain ⟨n, -, rfl⟩ := Token.map_eq_ok_iff.mp h
      exact .part (not_endsHead_of_isDelimiter hclose (by decide))
    split at h
    · cases h
    · next hbounds =>
      obtain ⟨n, -, rfl⟩ := Token.map_eq_ok_iff.mp h
      apply FilterStep.part
      intro hends
      obtain ⟨text, hmem, ht⟩ := List.any_eq_true.mp hends
      apply hbounds
      exact List.any_eq_true.mpr ⟨text, by grind, ht⟩
  · -- around filters: a blank, `[` and `,` stay there, anything else is read by the selector
    next hne =>
    split at h
    · next hblank =>
      cases h
      exact .part (not_endsHead_of_kind (by simp_all [isWhitespace]))
    split at h
    · next hopen =>
      cases h
      exact .part (not_endsHead_of_isDelimiter hopen (by decide))
    split at h
    · next hcomma =>
      split at h <;> cases h
      exact .part (not_endsHead_of_isDelimiter hcomma (by decide))
    cases hmarkers with
    | none =>
      rw [if_neg (by simp [atComma, hcontext])] at h
      cases h
      exact .behind hcontext
    | comma =>
      rw [if_pos (by simp [atComma, hcontext])] at h
      cases h
      have hnext : m.dropFrame.nextSelector.context = .selectors (earlier ++ [current]) {} :: frames := by
        simp [nextSelector, dropFrame, hcontext]
      exact .behind hnext
    | text | commaText => exact absurd hcontext (hne _ _ _)

/-! ### Up to a brace -/

/-- A reader is in front of the brace of a rule: in the selectors, or in the filters behind one. -/
def InHead (m : Machine P) : Prop :=
  m.control.head? = some .filter ∨ m.control.head? = some .rule ∧ ¬ m.inRuleBody

lemma inHead_of_filter (hcontrol : m.control = .filter :: below) : m.InHead :=
  .inl (by rw [hcontrol, List.head?_cons])

lemma inHead_of_selectors (hcontrol : m.control = .rule :: below)
    (hcontext : m.context = .selectors earlier current :: frames) : m.InHead :=
  .inr ⟨by rw [hcontrol, List.head?_cons], by simp [inRuleBody, hcontext]⟩

/-- The head of a rule is read up to its brace, and holds no other brace and no semicolon. -/
lemma inHead_step (h : Aligned (mode :: below) m.context m.fragments (t :: ts))
    (hhead : mode = .filter ∨ mode = .rule ∧ ¬ m.inRuleBody) (hstep : step d mode m t = .ok o) :
    t.isDelimiter "\x7b" ∨ (o.next mode below t ts).1.InHead ∧
      ((o.next mode below t ts).2 = t :: ts ∨ (o.next mode below t ts).2 = ts ∧ ¬ t.endsHead) := by
  obtain rfl | ⟨rfl, hbody⟩ := hhead
  · generalize hcontext : m.context = context at h
    cases h with
    | nest h => cases h
    | filter h hframes =>
      cases filterStep_stepFilter hframes hcontext hstep with
      | part ht => exact .inr ⟨inHead_of_filter rfl, .inr ⟨rfl, ht⟩⟩
      | behind hn => exact .inr ⟨inHead_of_selectors rfl hn, .inl rfl⟩
  · -- in a selector, where the body of the rule is not open yet
    rw [step, stepRule, if_neg hbody] at hstep
    generalize hcontext : m.context = context at h
    generalize m.fragments = fragments at h
    cases h with
    | nest h =>
      cases h
      exact absurd (by simp [inRuleBody, hcontext]) hbody
    | selectors h hmarkers =>
      cases selectorStep_stepSelector hmarkers hcontext hstep with
      | part ht hn => exact .inr ⟨inHead_of_selectors rfl hn, .inr ⟨rfl, ht⟩⟩
      | fullStop ht hn =>
        refine .inr ⟨.inr ⟨rfl, ?_⟩, .inr ⟨rfl, not_endsHead_of_kind ?_⟩⟩
        · simp [Outcome.next, inRuleBody, hn]
        · simp_all [isOperator]
      | firstColon ht hn | secondColon ht _ hn =>
        refine .inr ⟨.inr ⟨rfl, ?_⟩, .inr ⟨rfl, not_endsHead_of_isDelimiter ht (by decide)⟩⟩
        simp [Outcome.next, inRuleBody, hn]
      | filter => exact .inr ⟨inHead_of_filter rfl, .inl rfl⟩
      | brace ht hn => exact .inl ht

/-- The end of the text may be come to behind the filters of a selector, where it is not accepted. -/
lemma inHead_stepEnd (h : Aligned (mode :: below) m.context m.fragments [])
    (hhead : mode = .filter ∨ mode = .rule ∧ ¬ m.inRuleBody) (hend : m.stepEnd mode = .ok ()) :
    ({ m with control := below } : Machine P).InHead := by
  obtain rfl | ⟨rfl, -⟩ := hhead
  · obtain ⟨control, context, fragments, rules, map, warnings, last⟩ := m
    cases h with
    | nest h => cases h
    | filter h hframes =>
      refine .inr ⟨rfl, ?_⟩
      cases hframes <;> simp [inRuleBody]
  · cases hend

/-- In front of the brace of a rule, what is left of an accepted stylesheet comes to that brace. -/
lemma opensBlock_of_inHead (h : Aligned m.control m.context m.fragments ts) (hhead : m.InHead)
    (hread : read d m ts = .ok p) : opensBlock ts := by
  induction m, ts using read_induction (d := d) with
  | done m ts hcontrol => simp [InHead, hcontrol] at hhead
  | ends m mode below hcontrol hopened ih =>
    rw [hcontrol] at h
    rw [InHead, hcontrol] at hhead
    rw [read_nil hcontrol hopened] at hread
    cases hend : m.stepEnd mode with
    | error e =>
      rw [hend] at hread
      cases hread
    | ok _ =>
      have hnext := aligned_stepEnd h
      rw [hend] at hread hnext
      exact ih hend hnext (inHead_stepEnd h (by simpa using hhead) hend) hread
  | steps m mode below t ts hcontrol hopened ih =>
    rw [hcontrol] at h
    rw [InHead, hcontrol] at hhead
    -- the step takes a token that does not end the head, or leaves the tokens as they are
    have hmode : mode = .filter ∨ mode = .rule ∧ ¬ m.inRuleBody := by simpa using hhead
    rw [read_cons hcontrol hopened] at hread
    cases hstep : step d mode { m with last := t.location } t with
    | error e =>
      rw [hstep] at hread
      cases hread
    | ok o =>
      have hnext := aligned_step (d := d) (m := { m with last := t.location }) h hopened
      rw [hstep] at hread hnext
      obtain hbrace | ⟨hhead', hleft⟩ :=
        inHead_step (m := { m with last := t.location }) h hmode hstep
      · exact opensBlock_cons_of_brace hbrace
      · have hopens := ih o hstep hnext hhead' hread
        obtain hleft | ⟨hleft, ht⟩ := hleft
        · rwa [hleft] at hopens
        · rwa [hleft, ← opensBlock_cons_of_not_endsHead ht] at hopens
  | opens m below ts hcontrol => simp [InHead, hcontrol] at hhead

/-! ### Up to the end of a declaration -/

/-- A declaration is read up to a semicolon, or to the brace that ends its block. -/
lemma readsValues_step (hmode : mode.readsValues) (hstep : step d mode m t = .ok o) :
    t.endsHead ∧ ¬ t.isDelimiter "\x7b" ∨ ¬ t.endsHead ∧
      ((∃ n, o = .stay n) ∨ (∃ child n, o = .enter child n ∧ child.readsValues) ∨
        mode ≠ .declaration ∧ ∃ n, o = .close n) := by
  cases mode with
  | declaration =>
    simp only [step, stepDeclaration] at hstep
    grind [Token.map_eq_ok_iff, endsHead_iff, Token.isDelimiter, Mode.readsValues]
  | call =>
    simp only [step, stepCall, stepArguments] at hstep
    grind [Token.map_eq_ok_iff, endsHead_iff, Mode.readsValues]
  | reference =>
    simp only [step, stepReference] at hstep
    grind [Token.map_eq_ok_iff, endsHead_iff, Token.isDelimiter, Token.isWhitespace]
  | _ => cases hmode

/-- Behind a call or a reference, the declaration goes on. -/
lemma readsValues_below (hmode : mode.readsValues) (hne : mode ≠ .declaration)
    (h : Aligned (mode :: below) context fragments ts) : below.head?.any Mode.readsValues := by
  cases h with
  | nest h => cases h <;> cases hmode
  | selectors | selectorsComma | map | mapKeyword | ruleBrace | mapBrace | filter => cases hmode
  | declarationKey | declaration => exact absurd rfl hne
  | _ => rfl

/-- Within a declaration, what is left of an accepted stylesheet comes to no brace that opens a block before
the declaration ends. -/
lemma not_opensBlock_of_readsValues (h : Aligned m.control m.context m.fragments ts)
    (hvalues : m.control.head?.any Mode.readsValues) (hread : read d m ts = .ok p) : ¬ opensBlock ts := by
  induction m, ts using read_induction (d := d) with
  | done m ts hcontrol => simp [hcontrol] at hvalues
  | ends => nofun
  | steps m mode below t ts hcontrol hopened ih =>
    rw [hcontrol] at h hvalues
    rw [read_cons hcontrol hopened] at hread
    cases hstep : step d mode { m with last := t.location } t with
    | error e =>
      rw [hstep] at hread
      cases hread
    | ok o =>
      have hnext := aligned_step (d := d) (m := { m with last := t.location }) h hopened
      rw [hstep] at hread hnext
      obtain ⟨hends, hbrace⟩ | ⟨hends, hgoes⟩ := readsValues_step hvalues hstep
      · exact not_opensBlock_cons hends hbrace
      obtain ⟨n, rfl⟩ | ⟨child, n, rfl, hchild⟩ | ⟨hne, n, rfl⟩ := hgoes
      · rw [opensBlock_cons_of_not_endsHead hends]
        exact ih _ hstep hnext hvalues hread
      · exact ih _ hstep hnext hchild hread
      · rw [opensBlock_cons_of_not_endsHead hends]
        exact ih _ hstep hnext (readsValues_below hvalues hne h) hread
  | opens m below ts hcontrol => simp [hcontrol, Mode.readsValues] at hvalues

/-! ### In the text of a filter -/

/-- A reader between square brackets reads the text of a filter behind a selector, or a reference in a
declaration. -/
lemma filterText_or_reference (h : Aligned m.control m.context m.fragments ts) (hin : m.inBrackets) :
    (∃ text opening frames, m.context = .filterText text opening :: frames) ∨
      m.control.head? = some .reference := by
  by_cases hreference : m.control.head? = some .reference
  · exact .inr hreference
  by_cases hfilter : m.control.head? = some .filter
  · obtain ⟨below, hcontrol⟩ := List.head?_eq_some_iff.mp hfilter
    rw [hcontrol] at h
    rw [inBrackets] at hin
    generalize m.context = context at h hin
    cases h with
    | nest h => cases h
    | filter h hframes =>
      cases hframes with
      | none | comma => cases hin
      | text text opening | commaText text opening => exact .inl ⟨text, opening, _, rfl⟩
  · rw [not_inBrackets_of_aligned h hfilter hreference] at hin
    cases hin

lemma control_of_filterText {control : List Mode} {text : String} {opening : Token}
    (h : Aligned control (.filterText text opening :: frames) fragments ts) :
    control.head? = some .filter := by
  generalize hcontext : Frame.filterText text opening :: frames = context at h
  cases h with
  | nest h => cases h <;> cases hcontext
  | selectors h hmarkers => cases hmarkers <;> cases hcontext
  | filter => rfl
  | _ => cases hcontext

/-- A reader of an accepted stylesheet is in the text of a filter just if it is between square brackets and
the next brace or semicolon opens a block. -/
theorem filterText_iff (h : Aligned m.control m.context m.fragments ts) (hread : read d m ts = .ok p) :
    (∃ text opening frames, m.context = .filterText text opening :: frames) ↔
      m.inBrackets ∧ opensBlock ts := by
  constructor
  · rintro ⟨text, opening, frames, hcontext⟩
    have hhead : m.control.head? = some .filter := control_of_filterText (hcontext ▸ h)
    refine ⟨?_, opensBlock_of_inHead h (.inl hhead) hread⟩
    rw [inBrackets, hcontext]
    rfl
  · rintro ⟨hin, hopens⟩
    obtain htext | hreference := filterText_or_reference h hin
    · exact htext
    · refine absurd hopens (not_opensBlock_of_readsValues h ?_ hread)
      rw [hreference]
      rfl

end Machine

end MapStyle
