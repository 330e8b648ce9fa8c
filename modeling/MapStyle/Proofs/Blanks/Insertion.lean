import MapStyle.Proofs.Blanks.Places

/-!
# Insertion of white space

White space between two tokens of an accepted stylesheet makes no difference, except between the brackets
of a filter and within a class or an attachment. A reader skips it in every other state, and comes to
the place of it with the same state as without it.
-/

namespace MapStyle

variable {P : Type}

namespace Machine

open Token

variable {d : Dialect P} {p : Parsed P} {m n : Machine P} {mode child : Mode} {below control : List Mode}
  {frames context : List (Frame P)} {fragments : List (Fragment P)} {t u : Token}
  {ts rest front back : List Token} {o : Outcome P}

/-- How many tokens a reader with certain stacks still has to take until white space makes no difference to
it: the rest of a class or an attachment, or the first token of a construct that it has entered in front
of it. Once all is read, white space would be one token too many. -/
def waits : List Mode → List (Frame P) → Nat
  | .rule :: _, .colonMarker :: _ => 2
  | .rule :: _, .classMarker :: _ | .rule :: _, .attachmentMarker :: _ => 1
  | .call :: _, .call _ :: _ | .reference :: _, .reference _ _ :: _ | .map :: _, .mapBody :: _ => 0
  | .call :: _, _ | .reference :: _, _ | .map :: _, _ | [], _ => 1
  | _, _ => 0

lemma waits_le_one (h : ∀ frames, context ≠ .colonMarker :: frames) : waits control context ≤ 1 := by
  unfold waits
  split <;> simp_all

lemma waits_of_inRuleBody (h : m.inRuleBody) : waits (.rule :: below) m.context = 0 := by
  unfold inRuleBody at h
  grind [waits]

lemma waits_of_inMapBody (h : m.inMapBody) : waits (.map :: below) m.context = 0 := by
  unfold inMapBody at h
  grind [waits]

lemma Block.waits_eq (h : Block control context fragments) : waits control context = 0 := by
  cases h <;> rfl

lemma Nest.waits_eq (h : Nest control context fragments) : waits control context = 0 := by
  cases h <;> rfl

/-! ### One step -/

/-- A reader that waits for nothing skips white space, except in the text of a filter. -/
lemma step_blank (ht : t.isWhitespace) (hwaits : waits (mode :: below) m.context = 0)
    (htext : ∀ text opening frames, m.context ≠ .filterText text opening :: frames) :
    step d mode m t = .ok (.stay m) := by
  obtain ⟨raw, text, location, rfl⟩ := eq_of_isWhitespace ht
  cases mode with
  | root | declaration => rfl
  | rule =>
    simp only [step, stepRule, stepBody, stepSelector, stepSelectorPart]
    grind [waits]
  | filter =>
    simp only [step, stepFilter]
    grind
  | call =>
    simp only [step, stepCall, stepArguments]
    grind [waits]
  | reference =>
    simp only [step, stepReference]
    grind [waits]
  | map => rfl

lemma exists_call_of_updateCall {f : OpenCall → Except Error OpenCall} (h : m.updateCall t f = .ok n) :
    ∃ c frames, n.context = .call c :: frames := by
  unfold updateCall at h
  split at h
  · obtain ⟨c, -, rfl⟩ := Token.map_eq_ok_iff.mp h
    exact ⟨c, _, rfl⟩
  · cases h

lemma waits_stepCall (h : stepCall d m t = .ok (.stay n)) : waits (.call :: below) n.context = 0 := by
  have hcall {m n : Machine P} {f} (hf : m.updateCall t f = .ok n) :
      waits (.call :: below) n.context = 0 := by
    obtain ⟨c, frames, hn⟩ := exists_call_of_updateCall hf
    rw [hn, waits]
  simp only [stepCall, stepArguments, pushArgument] at h
  grind [Token.map_eq_ok_iff, waits, pushFrame]

lemma waits_stepReference (h : stepReference m t = .ok (.stay n)) :
    waits (.reference :: below) n.context = 0 := by
  simp only [stepReference] at h
  grind [Token.map_eq_ok_iff, waits, pushFrame]

lemma inRuleBody_of_stay (hbody : m.inRuleBody) (h : stepBody m t = .ok (.stay n)) : n.inRuleBody := by
  unfold stepBody at h
  grind [Token.map_eq_ok_iff]

/-- Each token that a reader takes and goes on behind is one less to wait for, except at the start of a
class or of an attachment. -/
lemma waits_of_stay (h : Aligned (mode :: below) m.context m.fragments (t :: ts))
    (hopened : mode = .map → m.inMapBody) (hstep : step d mode m t = .ok (.stay n)) :
    waits (mode :: below) n.context ≤ waits (mode :: below) m.context - 1 ∨
      t.isOperator "." ∧ waits (mode :: below) n.context = 1 ∨
      t.isDelimiter ":" ∧ mode = .rule ∧ ∃ frames, n.context = .colonMarker :: frames := by
  cases mode with
  | root | declaration | filter => exact .inl (Nat.zero_le _)
  | rule =>  -- behind its brace a rule waits for nothing
    by_cases hbody : m.inRuleBody
    · rw [step, stepRule, if_pos hbody] at hstep
      have hnone : waits (.rule :: below) n.context = 0 :=
        waits_of_inRuleBody (inRuleBody_of_stay hbody hstep)
      exact .inl (hnone.trans_le (Nat.zero_le _))
    · -- in its head only the class and the attachment wait for more
      rw [step, stepRule, if_neg hbody] at hstep
      generalize hcontext : m.context = context at h
      generalize m.fragments = fragments at h
      cases h with
      | nest h =>
        cases h
        exact absurd (by simp [inRuleBody, hcontext]) hbody
      | selectors h hmarkers =>
        cases selectorStep_stepSelector hmarkers hcontext hstep with
        | part ht hn | brace ht hn => exact .inl (by simp [hn, waits])
        | fullStop ht hn => exact .inr (.inl ⟨ht, by rw [hn, waits]⟩)
        | firstColon ht hn => exact .inr (.inr ⟨ht, rfl, _, hn⟩)
        | secondColon ht hm hn => exact .inl (by simp [← hcontext, hm, hn, waits])
  | call => exact .inl ((waits_stepCall hstep).trans_le (Nat.zero_le _))
  | reference => exact .inl ((waits_stepReference hstep).trans_le (Nat.zero_le _))
  | map =>
    have hbody := inMapBody_of_stepMap_stay (hopened rfl) hstep
    exact .inl ((waits_of_inMapBody hbody).trans_le (Nat.zero_le _))

lemma context_of_commit {policy : DuplicateKeys} {decl : Declaration}
    (hcontext : m.context = .declaration decl :: frames) (h : m.commit policy t = .ok n) :
    n.context = frames := by
  rw [commit, hcontext] at h
  grind

lemma context_of_closeNested (hcontext : m.context = .ruleBody :: frames) (h : m.closeNested t = .ok n) :
    n.context = frames := by
  rw [closeNested, hcontext] at h
  grind

/-- A reference among the arguments of a call becomes one of them. -/
lemma exists_call_of_closeReference {name : Option String} {opening : Token} {c : OpenCall}
    (hcontext : m.context = .reference name opening :: .call c :: frames)
    (h : stepReference m t = .ok (.close n)) : ∃ c frames, n.context = .call c :: frames := by
  have hclose : m.closeReference t = .ok n := by
    rw [stepReference, hcontext] at h
    grind [Token.map_eq_ok_iff]
  rw [closeReference, hcontext] at hclose
  cases name with
  | none => cases hclose
  | some name => exact exists_call_of_updateCall hclose

/-- A token closes a nested rule, a declaration, a call or a reference. -/
lemma cases_of_close (h : step d mode m t = .ok (.close n)) :
    mode = .rule ∧ m.inRuleBody ∧ m.closeNested t = .ok n ∨
      mode = .declaration ∧ m.commit d.duplicateKeys t = .ok n ∨ mode = .call ∨ mode = .reference := by
  cases mode with
  | root =>
    simp only [step, stepRoot] at h
    grind [Token.map_eq_ok_iff]
  | rule =>
    simp only [step, stepRule, stepBody, stepSelector, stepSelectorPart] at h
    grind [Token.map_eq_ok_iff]
  | declaration =>
    simp only [step, stepDeclaration] at h
    grind [Token.map_eq_ok_iff]
  | filter =>
    simp only [step, stepFilter, stepFilterText] at h
    grind [Token.map_eq_ok_iff]
  | call => exact .inr (.inr (.inl rfl))
  | reference => exact .inr (.inr (.inr rfl))
  | map =>
    simp only [step, stepMap] at h
    grind

/-- Behind the token that closes a construct, a reader waits for nothing. -/
lemma waits_of_close (h : Aligned (mode :: below) m.context m.fragments (t :: ts))
    (hstep : step d mode m t = .ok (.close n)) : waits below n.context = 0 := by
  generalize hcontext : m.context = context at h
  generalize m.fragments = fragments at h
  -- of the constructs, a rule, a declaration, a call and a reference end behind their token
  obtain ⟨rfl, hbody, hn⟩ | ⟨rfl, hn⟩ | rfl | rfl := cases_of_close hstep
  · cases h with
    | nest h =>
      cases h with
      | rule h => rw [context_of_closeNested hcontext hn, Nest.waits_eq h]
    | selectors h hmarkers =>
      rw [inRuleBody, hcontext] at hbody
      cases hmarkers <;> cases hbody
  · cases h with
    | nest h => cases h
    | declarationKey h | declaration h => rw [context_of_commit hcontext hn, Block.waits_eq h]
  · cases h with
    | nest h => cases h
    | callName | call => rfl
  · cases h with
    | nest h => cases h
    | referenceBracket | reference => rfl
    | argumentBracket =>
      rw [step, stepReference, hcontext] at hstep
      grind
    | argument =>
      obtain ⟨c, frames, hn⟩ := exists_call_of_closeReference hcontext hstep
      rw [hn, waits]

/-- A construct that is entered or that is behind the reader makes it wait for one token at most. -/
lemma waits_of_enter (hstep : step d mode m t = .ok (.enter child n)) :
    waits (child :: mode :: below) n.context ≤ 1 := by
  by_cases hchild : child = .rule
  · subst hchild
    have hn : n.context = .selectors [] {} :: m.context := by
      cases mode <;>
        simp only [step, stepRoot, stepRule, stepBody, stepSelector, stepSelectorPart, stepDeclaration,
          stepFilter, stepFilterText, stepCall, stepArguments, stepReference, stepMap] at hstep <;>
        grind [Token.map_eq_ok_iff, pushFrame]
    rw [hn]
    exact Nat.zero_le _
  · unfold waits
    grind

/-- The constructs that end in front of a token: the body of a rule, a declaration, the filters behind a
selector, and the body of a `Map` block. -/
lemma cases_of_leave (h : step d mode m t = .ok (.leave n)) :
    mode = .rule ∧ n = m ∧ m.inRuleBody ∨ mode = .declaration ∧ m.commit d.duplicateKeys t = .ok n ∨
      mode = .filter ∨ mode = .map ∧ n = m := by
  cases mode with
  | root =>
    simp only [step, stepRoot] at h
    grind [Token.map_eq_ok_iff]
  | rule =>
    simp only [step, stepRule, stepBody, stepSelector, stepSelectorPart] at h
    grind [Token.map_eq_ok_iff]
  | declaration =>
    simp only [step, stepDeclaration] at h
    grind [Token.map_eq_ok_iff]
  | filter => exact .inr (.inr (.inl rfl))
  | call =>
    simp only [step, stepCall, stepArguments] at h
    grind [Token.map_eq_ok_iff]
  | reference =>
    simp only [step, stepReference] at h
    grind [Token.map_eq_ok_iff]
  | map =>
    simp only [step, stepMap] at h
    grind

lemma waits_of_leave (h : Aligned (mode :: below) m.context m.fragments (t :: ts))
    (hopened : mode = .map → m.inMapBody) (hstep : step d mode m t = .ok (.leave n)) :
    waits below n.context ≤ 1 := by
  generalize hcontext : m.context = context at h
  obtain ⟨rfl, rfl, hbody⟩ | ⟨rfl, hn⟩ | rfl | ⟨rfl, rfl⟩ := cases_of_leave hstep
  · apply waits_le_one
    intro frames hframes
    simp [inRuleBody, hframes] at hbody
  · cases h with
    | nest h => cases h
    | declarationKey h | declaration h =>
      rw [context_of_commit hcontext hn, Block.waits_eq h]
      exact Nat.zero_le _
  · cases h with
    | nest h => cases h
    | filter h hframes =>
      cases filterStep_stepFilter hframes hcontext hstep with
      | behind hn => exact waits_le_one (by simp [hn])
  · have hbody := hopened rfl
    apply waits_le_one
    intro frames hframes
    simp [inMapBody, hframes] at hbody

/-! ### One step towards the place -/

/-- Behind a colon in a selector, only a second one is accepted. -/
lemma exists_colon_of_read (hcontrol : m.control = .rule :: below)
    (hcontext : m.context = .colonMarker :: frames) (hread : read d m ts = .ok p) :
    ∃ u us, ts = u :: us ∧ u.isDelimiter ":" := by
  cases ts with
  | nil =>
    rw [read_nil hcontrol (by nofun)] at hread
    cases hread
  | cons u us =>
    refine ⟨u, us, rfl, ?_⟩
    have hbody : ¬ ({ m with last := u.location } : Machine P).inRuleBody := by simp [inRuleBody, hcontext]
    rw [read_cons hcontrol (by nofun), step, stepRule, if_neg hbody, stepSelector] at hread
    simp only [hcontext] at hread
    by_contra hcolon
    rw [if_neg hcolon] at hread
    cases hread

/-- Behind a token that is taken, a reader waits for no more tokens than are left in front of a place that
is not within a part of a selector. -/
lemma waits_taken (h : Aligned (mode :: below) m.context m.fragments (u :: (front ++ back)))
    (hopened : mode = .map → m.inMapBody) (hwaits : waits (mode :: below) m.context ≤ front.length + 1)
    (hpart : ¬ InPart (u :: front) back) (hstep : step d mode m u = .ok (.stay n))
    (hread : read d { n with control := mode :: below } (front ++ back) = .ok p) :
    waits (mode :: below) n.context ≤ front.length := by
  obtain hless | ⟨hdot, hone⟩ | ⟨hcolon, rfl, frames, hn⟩ := waits_of_stay h hopened hstep
  · omega
  · rw [hone]
    apply List.length_pos_iff.mpr
    rintro rfl
    have hin : InPart ([] ++ [u]) back := .fullStop hdot
    exact hpart hin
  · obtain ⟨v, vs, hv, hcolon'⟩ :=
      exists_colon_of_read (m := { n with control := .rule :: below }) rfl hn hread
    rw [hn, waits]
    match front, hv with
    | [], hv =>
      obtain rfl : back = v :: vs := hv
      have hin : InPart ([] ++ [u]) (v :: vs) := .firstColon hcolon hcolon'
      exact absurd hin hpart
    | [w], hv =>
      obtain rfl : w = v := (List.cons.inj hv).1
      have hin : InPart ([] ++ [u, w]) back := .secondColon hcolon hcolon'
      exact absurd hin hpart
    | _ :: _ :: _, _ => simp

/-- A reader with some tokens in front of it comes to a place for white space. -/
structure Approaches (m : Machine P) (front back : List Token) : Prop where
  aligned : Aligned m.control m.context m.fragments (front ++ back)
  waits : waits m.control m.context ≤ front.length
  filter : ¬ (front.foldl bracketBehind m.inBrackets ∧ opensBlock back)
  part : ¬ InPart front back

/-- There is something to read in front of the place and at it. -/
lemma Approaches.control_ne_nil (h : Approaches m front back) : m.control ≠ [] := by
  obtain ⟨halign, hwaits, -, -⟩ := h
  intro hcontrol
  rw [hcontrol] at halign hwaits
  generalize m.context = context at halign
  generalize m.fragments = fragments at halign
  generalize hts : front ++ back = ts at halign
  cases halign with
  | done =>
    obtain rfl := (List.append_eq_nil_iff.mp hts).1
    cases hwaits
  | nest h => cases h

lemma openMap_blank (ht : t.isWhitespace) (m : Machine P) (u : Token) (ts : List Token) :
    m.openMap (u :: t :: ts) = m.openMap (u :: ts) := by
  simp [openMap, ht]

/-- White space in front of the brace of a `Map` block is skipped, and behind it nothing is looked at. -/
lemma openMap_insert (ht : t.isWhitespace) (h : m.openMap (u :: (front ++ back)) = .ok (n, rest)) :
    m.openMap (u :: (front ++ t :: back)) = .ok (n, rest) ∨ ∃ front', rest = front' ++ back ∧
      m.openMap (u :: (front ++ t :: back)) = .ok (n, front' ++ t :: back) := by
  induction front with
  | nil => exact .inl ((openMap_blank ht m u back).trans h)
  | cons x front ih =>
    rw [List.cons_append] at h
    rw [List.cons_append]
    by_cases hx : x.isWhitespace
    · rw [openMap_blank hx] at h
      rw [openMap_blank hx]
      exact ih h
    · simp only [openMap, List.tail_cons, List.dropWhile_cons_of_neg hx] at h
      simp only [openMap, List.tail_cons, List.dropWhile_cons_of_neg hx]
      split at h
      · next hbrace =>
        cases h
        exact .inr ⟨front, rfl, if_pos hbrace⟩
      · cases h

lemma not_inPart_of_suffix {front' : List Token} (h : front' <:+ front) (hpart : ¬ InPart front back) :
    ¬ InPart front' back := by
  obtain ⟨taken, rfl⟩ := h
  induction taken with
  | nil => exact hpart
  | cons u taken ih =>
    apply ih
    intro h
    exact hpart (h.cons u)

/-- What a step leaves in front of the place is approached as well. -/
lemma Approaches.next {front' : List Token} (h : Approaches m front back)
    (hadvance : advance d m (front ++ back) = .ok (n, front' ++ back))
    (hwaits : Machine.waits n.control n.context ≤ front'.length) : Approaches n front' back := by
  obtain ⟨taken, htaken, hbrackets, -⟩ := inBrackets_advance h.aligned hadvance
  obtain rfl : front = taken ++ front' := by
    rw [← List.append_assoc] at htaken
    exact List.append_cancel_right htaken
  have hpart := not_inPart_of_suffix (List.suffix_append _ _) h.part
  refine ⟨aligned_advance h.aligned hadvance, hwaits, ?_, hpart⟩
  have hfilter := h.filter
  rwa [List.foldl_append, ← hbrackets] at hfilter

/-- A step towards the place does not look at it: with white space there, it leads to the same state in
front of the place, or skips the white space too. -/
lemma advance_insert (ht : t.isWhitespace) (h : Approaches m front back) (hne : front ≠ [])
    (hadvance : advance d m (front ++ back) = .ok (n, rest)) (hread : read d n rest = .ok p) :
    advance d m (front ++ t :: back) = .ok (n, rest) ∨ ∃ front', rest = front' ++ back ∧
      Approaches n front' back ∧ advance d m (front ++ t :: back) = .ok (n, front' ++ t :: back) := by
  obtain ⟨u, front, rfl⟩ := List.exists_cons_of_ne_nil hne
  have halign := h.aligned
  rw [List.cons_append] at hadvance halign ⊢
  cases moves_of_advance hadvance with
  | done hcontrol => exact absurd hcontrol h.control_ne_nil
  | @opens below _ _ _ hcontrol hunopened hmap =>
    -- the place may be between the word `Map` and its brace, where blanks are skipped
    rw [advance_of_unopened hcontrol hunopened]
    obtain hskipped | ⟨front', rfl, hmap'⟩ := openMap_insert ht hmap
    · exact .inl hskipped
    · obtain ⟨hbody, hn, -⟩ := openMap_eq_ok hmap below
      refine .inr ⟨front', rfl, h.next hadvance ?_, hmap'⟩
      rw [hn, hcontrol, waits_of_inMapBody hbody]
      exact Nat.zero_le _
  | @steps mode below _ _ o hcontrol hopened hstep =>
    rw [hcontrol] at halign
    have hwaits := h.waits
    rw [hcontrol] at hwaits
    have hpositive : 1 ≤ (u :: front).length := Nat.le_add_left _ _
    rw [advance_cons hcontrol hopened, hstep]
    -- what the state still waits for lies in front of the place
    cases o with
    | stay n =>
      have hn := waits_taken (m := { m with last := u.location }) halign hopened hwaits h.part hstep hread
      exact .inr ⟨front, rfl, h.next hadvance hn, rfl⟩
    | enter child n =>
      have hn : waits (child :: mode :: below) n.context ≤ 1 := waits_of_enter hstep
      exact .inr ⟨u :: front, rfl, h.next hadvance (hn.trans hpositive), rfl⟩
    | leave n =>
      have hn := waits_of_leave (m := { m with last := u.location }) halign hopened hstep
      exact .inr ⟨u :: front, rfl, h.next hadvance (hn.trans hpositive), rfl⟩
    | close n =>
      have hn := waits_of_close (m := { m with last := u.location }) halign hstep
      exact .inr ⟨front, rfl, h.next hadvance (hn.trans_le (Nat.zero_le _)), rfl⟩

/-! ### Whole readings -/

/-- At the place, white space is skipped. -/
lemma read_insert_here (ht : t.isWhitespace) (h : Approaches m [] back) (hread : read d m back = .ok p) :
    read d m (t :: back) = .ok p := by
  have hwaits := Nat.le_zero.mp h.waits
  obtain ⟨mode, below, hcontrol⟩ := List.exists_cons_of_ne_nil h.control_ne_nil
  rw [hcontrol] at hwaits
  have hopened : mode = .map → m.inMapBody := by
    rintro rfl
    unfold inMapBody
    grind [waits]
  have htext : ∀ text opening frames, m.context ≠ .filterText text opening :: frames := by
    intro text opening frames hcontext
    exact h.filter ((filterText_iff h.aligned hread).mp ⟨text, opening, frames, hcontext⟩)
  rw [read_cons hcontrol hopened, step_blank (m := { m with last := t.location }) ht hwaits htext]
  have hself : ({ m with control := mode :: below } : Machine P) = m := by rw [← hcontrol]
  exact (read_setLast _ _ _).mpr (hself.symm ▸ hread)

/-- White space may be put in a place that an accepting reader approaches. -/
theorem read_insert (ht : t.isWhitespace) (h : Approaches m front back)
    (hread : read d m (front ++ back) = .ok p) : read d m (front ++ t :: back) = .ok p := by
  generalize hts : front ++ back = ts at hread
  induction m, ts using advance_induction (d := d) generalizing front with
  | next m ts ih =>
    subst hts
    by_cases hne : front = []
    · subst hne
      exact read_insert_here ht h hread
    obtain ⟨n, rest, hadvance, hnext⟩ := exists_advance hread
    rw [read_advance]
    obtain hskipped | ⟨front', rfl, h', hinserted⟩ := advance_insert ht h hne hadvance hnext
    · rw [hskipped]
      exact hnext
    · rw [hinserted]
      exact ih n _ h.control_ne_nil hadvance h' rfl hnext

end Machine

namespace Dialect

variable {d : Dialect P} {p : Parsed P} {t : Token} {front back : List Token}

open Token in
/-- White space may be put between any two tokens of an accepted stylesheet, and in front of or behind all of
them, except between the brackets of a filter, behind the full stop of a class, and behind either colon of
an attachment: the stylesheet is still accepted, with the same rules, properties and warnings. -/
theorem parseTokens_insert_blank (ht : t.isWhitespace) (hfilter : ¬ InFilter front back)
    (hpart : ¬ InPart front back) (h : d.parseTokens (front ++ back) = .ok p) :
    d.parseTokens (front ++ t :: back) = .ok p := by
  rw [Machine.parseTokens_eq_read] at h ⊢
  exact Machine.read_insert ht ⟨.nest .top, Nat.zero_le _, hfilter, hpart⟩ h

/-- The tokens of `#a{b:[c]}`. -/
def referenceTokens : List Token :=
  [⟨.colorLiteral, "#a", "#a", {}⟩, ⟨.delimiter, "\x7b", "\x7b", {}⟩, ⟨.identifier, "b", "b", {}⟩,
    ⟨.delimiter, ":", ":", {}⟩, ⟨.delimiter, "[", "[", {}⟩, ⟨.identifier, "c", "c", {}⟩,
    ⟨.delimiter, "]", "]", {}⟩, ⟨.delimiter, "\x7d", "\x7d", {}⟩]

/-- A blank behind the bracket of a reference makes no difference. -/
theorem parseTokens_insert_blank_referenceTokens :
    ∃ p, parseTokens { engine := Presence.parse } referenceTokens = .ok p ∧
      parseTokens { engine := Presence.parse }
        (referenceTokens.take 5 ++ ⟨.whitespace, " ", " ", {}⟩ :: referenceTokens.drop 5) = .ok p := by
  have hok : (parseTokens { engine := Presence.parse } referenceTokens).isOk := by decide +kernel
  obtain ⟨p, hp⟩ := exists_eq_ok_of_isOk hok
  refine ⟨p, hp, parseTokens_insert_blank rfl (by decide) ?_ hp⟩
  intro hpart
  obtain ⟨t, hlast, ht⟩ := hpart.getLast?
  obtain rfl : ⟨.delimiter, "[", "[", {}⟩ = t := Option.some.inj hlast
  revert ht
  decide

end Dialect

end MapStyle
