import MapStyle.Proofs.Reading.Sheets
import MapStyle.Proofs.Reading.Steps

/-!
# Getting through selectors

Whatever comes behind them, the parts of a selector are read without a fault: step by step, a reader comes from
the state in front of them to the one behind them, in which the selector that is being read has these parts.
-/

namespace MapStyle

variable {P : Type}

namespace Grammar

/-- How a filter is joined to the one before it: right behind it, or with a comma between them. -/
inductive Joint where
  | adjacent
  | comma
deriving DecidableEq, Repr

namespace Joint

/-- The part of a selector that a filter becomes. -/
def part : Joint → P → SelectorPart P
  | adjacent => .narrowing
  | comma => .widening

/-- The frames that lie on a selector in front of the filter. -/
def frames : Joint → List (Frame P)
  | adjacent => []
  | comma => [.commaMarker]

end Joint

lemma Simple.starts {x : SelectorPart P} {ts us : List Token} (hx : Simple ts x us) :
    ∃ t rest, ts = t :: rest ∧ ¬ t.isWhitespace ∧ ¬ t.isDelimiter "[" ∧ ¬ t.isDelimiter "," := by
  cases hx with
  | @id t _ h | @name t _ h => exact ⟨t, _, rfl, by simp [Token.isWhitespace, Token.isDelimiter, h]⟩
  | @className t _ _ h _ | @wildcard t _ h =>
    obtain ⟨raw, location, rfl⟩ := Token.eq_of_isOperator h
    exact ⟨_, _, rfl, by simp [Token.isWhitespace, Token.isDelimiter]⟩
  | @attachment t _ _ _ h _ _ =>
    exact ⟨t, _, rfl, Token.not_isWhitespace h, Token.not_isDelimiter h (by decide),
      Token.not_isDelimiter h (by decide)⟩

end Grammar

open Grammar

namespace Machine

variable {d : Dialect P} {m m₁ m₂ m₃ : Machine P} {ts ts₁ ts₂ ts₃ us rest : List Token}

/-- Some steps lead a reader from one state to another, over some of the tokens. -/
def Reaches (d : Dialect P) (m : Machine P) (ts : List Token) (m' : Machine P) (ts' : List Token) : Prop :=
  ∃ n, advances d n m ts = .ok (m', ts')

namespace Reaches

lemma refl : Reaches d m ts m ts :=
  ⟨0, rfl⟩

lemma head (hadvance : advance d m₁ ts₁ = .ok (m₂, ts₂)) (h : Reaches d m₂ ts₂ m₃ ts₃) :
    Reaches d m₁ ts₁ m₃ ts₃ := by
  obtain ⟨n, hn⟩ := h
  refine ⟨n + 1, ?_⟩
  rw [advances, hadvance]
  exact hn

lemma single (hadvance : advance d m₁ ts₁ = .ok (m₂, ts₂)) : Reaches d m₁ ts₁ m₂ ts₂ :=
  head hadvance refl

lemma trans (h : Reaches d m₁ ts₁ m₂ ts₂) (h' : Reaches d m₂ ts₂ m₃ ts₃) : Reaches d m₁ ts₁ m₃ ts₃ := by
  obtain ⟨n, hn⟩ := h
  induction n generalizing m₁ ts₁ with
  | zero =>
    cases hn
    exact h'
  | succ n ih =>
    rw [advances] at hn
    cases hadvance : advance d m₁ ts₁ with
    | error e =>
      rw [hadvance] at hn
      cases hn
    | ok p =>
      rw [hadvance] at hn
      exact head hadvance (ih hn)

lemma read_eq (h : Reaches d m₁ ts₁ m₂ ts₂) : read d m₂ ts₂ = read d m₁ ts₁ :=
  h.elim fun _ => read_of_advances

/-- Blanks change nothing but the place of the last token, if a single one does not. -/
lemma blanks {M : Location → Machine P} {l : Location}
    (hblank : ∀ l t ts, t.isWhitespace → advance d (M l) (t :: ts) = .ok (M t.location, ts))
    (h : Blanks ts us) : ∃ l', Reaches d (M l) ts (M l') us := by
  induction h generalizing l with
  | none => exact ⟨l, refl⟩
  | more ht _ ih =>
    obtain ⟨l', h⟩ := ih
    exact ⟨l', head (hblank l _ _ ht) h⟩

lemma aligned (h : Reaches d {} ts m us) : Aligned m.control m.context m.fragments us := by
  obtain ⟨n, hn⟩ := h
  exact advances_induction (motive := fun m us => Aligned m.control m.context m.fragments us)
    (fun _ _ _ _ => aligned_advance) (.nest .top) hn

end Reaches

/-! ### The states of a reader in a selector -/

/-- The state in which a selector has been read in part, of a rule that was started in a given state. The mark
says whether its last part is a filter. -/
def inSelector (m : Machine P) (earlier : List (Selector P)) (filtered : Bool) (s : Selector P)
    (last : Location) : Machine P :=
  { m with
    control := (if filtered then [.filter, .rule] else [.rule]) ++ m.control
    context := .selectors earlier s :: m.context
    last }

/-- The state behind a filter, with some frames for what comes next on top of the selector. -/
def behindFilter (m : Machine P) (frames : List (Frame P)) (earlier : List (Selector P)) (s : Selector P)
    (last : Location) : Machine P :=
  { m with
    control := .filter :: .rule :: m.control
    context := frames ++ .selectors earlier s :: m.context
    last }

variable {earlier : List (Selector P)} {filtered : Bool} {s : Selector P} {l : Location} {t : Token} {q : P}
  {frames : List (Frame P)} {ps : List (SelectorPart P)} {j : Joint} {inner : List Token} {text : String}
  {o : Token}

lemma advance_inSelector : advance d (m.inSelector earlier false s l) (t :: ts) =
    (stepSelectorPart d (m.inSelector earlier false s t.location) t).map fun outcome =>
      outcome.next .rule m.control t ts :=
  advance_cons rfl nofun

lemma advance_behindFilter : advance d (m.behindFilter frames earlier s l) (t :: ts) =
    (stepFilter d (m.behindFilter frames earlier s t.location) t).map fun outcome =>
      outcome.next .filter (.rule :: m.control) t ts :=
  advance_cons rfl nofun

/-! ### Steps behind a filter -/

lemma advance_behindFilter_blank (ht : t.isWhitespace) :
    advance d (m.behindFilter j.frames earlier s l) (t :: ts) =
      .ok (m.behindFilter j.frames earlier s t.location, ts) := by
  rw [advance_behindFilter]
  cases j <;> simp [Joint.frames, behindFilter, stepFilter, ht, Outcome.next]

lemma reaches_behindBlanks (h : Blanks ts us) :
    ∃ l', Reaches d (m.behindFilter j.frames earlier s l) ts (m.behindFilter j.frames earlier s l') us :=
  Reaches.blanks (fun _ _ _ => advance_behindFilter_blank) h

lemma advance_open (ht : t.isDelimiter "[") :
    advance d (m.behindFilter j.frames earlier s l) (t :: ts) =
      .ok (m.behindFilter (.filterText "" t :: j.frames) earlier s t.location, ts) := by
  have hblank := Token.not_isWhitespace ht
  rw [advance_behindFilter]
  cases j <;> simp [Joint.frames, behindFilter, stepFilter, ht, hblank, pushFrame, Outcome.next]

lemma advance_text (ht : ¬ bounds t) :
    advance d (m.behindFilter (.filterText text o :: frames) earlier s l) (t :: ts) =
      .ok (m.behindFilter (.filterText (extendText text t) o :: frames) earlier s t.location, ts) := by
  rw [bounds_iff, not_or] at ht
  rw [advance_behindFilter]
  simp only [behindFilter, stepFilter, stepFilterText, List.cons_append, if_neg ht.1, if_neg ht.2]
  rfl

lemma reaches_text (hinner : ∀ x ∈ inner, ¬ bounds x) :
    ∃ l', Reaches d (m.behindFilter (.filterText text o :: frames) earlier s l) (inner ++ us)
      (m.behindFilter (.filterText (inner.foldl extendText text) o :: frames) earlier s l') us := by
  induction inner generalizing text l with
  | nil => exact ⟨l, .refl⟩
  | cons t inner ih =>
    obtain ⟨ht, hinner⟩ := List.forall_mem_cons.mp hinner
    obtain ⟨l', h⟩ := ih hinner
    exact ⟨l', .head (advance_text ht) h⟩

lemma advance_close (ht : t.isDelimiter "]") (htext : Text.trim text ≠ "")
    (hq : d.engine (Text.trim text) = .ok q) :
    advance d (m.behindFilter (.filterText text o :: j.frames) earlier (selector ps) l) (t :: ts) =
      .ok (m.inSelector earlier true (selector (ps ++ [j.part q])) t.location, ts) := by
  have hempty : (Text.trim text).isEmpty = false := by simpa using htext
  rw [advance_behindFilter]
  cases j <;> simp [Joint.frames, Joint.part, behindFilter, stepFilter, stepFilterText, ht, closeFilter, hempty, hq,
    updateSelector, updateInContext, selector_narrowing, selector_widening, inSelector, Outcome.next]

/-- A filter is read from its opening bracket to its closing one. -/
lemma reaches_group (h : Group d.engine ts q us) :
    ∃ l', Reaches d (m.behindFilter j.frames earlier (selector ps) l) ts
      (m.inSelector earlier true (selector (ps ++ [j.part q])) l') us := by
  cases h with
  | @intro t u inner _ _ hopen hinner hclose htext hq =>
    rw [← trim_foldl_extendText] at htext hq
    obtain ⟨l', hread⟩ := reaches_text hinner
    exact ⟨u.location, .head (advance_open hopen) (hread.trans (.single (advance_close hclose htext hq)))⟩

/-- A comma behind a filter is kept until it is known what follows. -/
lemma advance_comma (ht : t.isDelimiter ",") :
    advance d (m.inSelector earlier true s l) (t :: ts) =
      .ok (m.behindFilter Joint.comma.frames earlier s t.location, ts) := by
  obtain ⟨raw, location, rfl⟩ := Token.eq_of_isDelimiter ht
  rfl

/-- Behind such a comma, what is neither a filter nor another comma starts the next selector. -/
lemma advance_next (hblank : ¬ t.isWhitespace) (hopen : ¬ t.isDelimiter "[") (hcomma : ¬ t.isDelimiter ",") :
    advance d (m.behindFilter Joint.comma.frames earlier s l) (t :: ts) =
      .ok (m.inSelector (earlier ++ [s]) false {} t.location, t :: ts) := by
  rw [advance_behindFilter]
  simp [Joint.frames, behindFilter, stepFilter, hblank, hopen, hcomma, atComma, dropFrame, nextSelector, inSelector,
    Outcome.next]

/-! ### Steps between parts -/

lemma advance_blank (ht : t.isWhitespace) :
    advance d (m.inSelector earlier filtered s l) (t :: ts) =
      .ok (m.inSelector earlier filtered s t.location, ts) := by
  obtain ⟨raw, text, location, rfl⟩ := Token.eq_of_isWhitespace ht
  cases filtered <;> rfl

lemma reaches_blanks (h : Blanks ts us) :
    ∃ l', Reaches d (m.inSelector earlier filtered s l) ts (m.inSelector earlier filtered s l') us :=
  Reaches.blanks (fun _ _ _ => advance_blank) h

/-- Behind a filter, everything but another filter and a comma is left to the mode around it. -/
lemma reaches_leave (hblank : ¬ t.isWhitespace) (hopen : ¬ t.isDelimiter "[") (hcomma : ¬ t.isDelimiter ",") :
    ∃ l', Reaches d (m.inSelector earlier filtered s l) (t :: ts) (m.inSelector earlier false s l') (t :: ts) := by
  cases filtered with
  | false => exact ⟨l, .refl⟩
  | true =>
    have hstep : advance d (m.behindFilter Joint.adjacent.frames earlier s l) (t :: ts) =
        .ok (m.inSelector earlier false s t.location, t :: ts) := by
      rw [advance_behindFilter]
      simp [Joint.frames, behindFilter, stepFilter, hblank, hopen, hcomma, atComma, inSelector, Outcome.next]
    exact ⟨t.location, .single hstep⟩

/-- A bracket behind another part of a selector puts the reader behind filters, too. -/
lemma reaches_enter (ht : t.isDelimiter "[") :
    ∃ l', Reaches d (m.inSelector earlier filtered s l) (t :: ts)
      (m.behindFilter Joint.adjacent.frames earlier s l') (t :: ts) := by
  cases filtered with
  | true => exact ⟨l, .refl⟩
  | false =>
    obtain ⟨raw, location, rfl⟩ := Token.eq_of_isDelimiter ht
    exact ⟨location, .single rfl⟩

lemma advance_attachment (ht : t.kind = .identifier) (hs : s.attachment = none) :
    advance d ((m.inSelector earlier false s l).pushFrame .attachmentMarker) (t :: ts) =
      .ok (m.inSelector earlier false { s with attachment := some t.text } t.location, ts) := by
  have hstep : advance d ((m.inSelector earlier false s l).pushFrame .attachmentMarker) (t :: ts) =
      (stepSelector d ((m.inSelector earlier false s t.location).pushFrame .attachmentMarker) t).map
        fun outcome => outcome.next .rule m.control t ts := advance_cons rfl nofun
  rw [hstep]
  simp [stepSelector, pushFrame, ht, updateSelector, updateInContext, hs, inSelector, Outcome.next]

/-- A part that is no filter is read in one step for each of its tokens. -/
lemma reaches_simple {x : SelectorPart P} (hx : Simple ts x us) (hdistinct : Distinct (ps ++ [x])) :
    ∃ l', Reaches d (m.inSelector earlier false (selector ps) l) ts
      (m.inSelector earlier false (selector (ps ++ [x])) l') us := by
  obtain ⟨-, hid, hname, hattachment⟩ := (distinct_concat ps x).mp hdistinct
  cases hx with
  | @id t _ h =>
    replace hid := hid rfl
    refine ⟨t.location, .single ?_⟩
    rw [advance_inSelector, selector_id hid]
    simp [stepSelectorPart, h, inSelector, updateSelector, updateInContext, hid, Outcome.next]
  | @name t _ h =>
    replace hname := hname rfl
    refine ⟨t.location, .single ?_⟩
    rw [advance_inSelector, selector_name hname]
    simp [stepSelectorPart, h, inSelector, updateSelector, updateInContext, hname, Outcome.next]
  | @className t u _ h h' =>
    obtain ⟨raw, location, rfl⟩ := Token.eq_of_isOperator h
    obtain ⟨kind, raw', text, location'⟩ := u
    obtain rfl : kind = .identifier := h'
    rw [selector_className]
    exact ⟨location', .head rfl (.single rfl)⟩
  | @wildcard t _ h =>
    obtain ⟨raw, location, rfl⟩ := Token.eq_of_isOperator h
    rw [selector_wildcard]
    exact ⟨location, .single rfl⟩
  | @attachment t u v _ h h' h'' =>
    obtain ⟨raw, location, rfl⟩ := Token.eq_of_isDelimiter h
    obtain ⟨raw', location', rfl⟩ := Token.eq_of_isDelimiter h'
    replace hattachment := hattachment rfl
    rw [selector_attachment hattachment]
    exact ⟨v.location, .head rfl (.head rfl (.single (advance_attachment h'' hattachment)))⟩

/-- A reader gets through the parts of a selector, whatever comes behind them. -/
theorem reaches_parts {filtered' : Bool} {qs : List (SelectorPart P)}
    (hqs : Parts d.engine filtered ts qs filtered' rest) (hdistinct : Distinct (ps ++ qs)) :
    ∃ l', Reaches d (m.inSelector earlier filtered (selector ps) l) ts
      (m.inSelector earlier filtered' (selector (ps ++ qs)) l') rest := by
  -- one part after the other: the state between two parts is that of the parts so far
  induction hqs generalizing ps l with
  | done =>
    rw [List.append_nil]
    exact ⟨l, .refl⟩
  | blank ht _ ih =>
    obtain ⟨l', h⟩ := ih hdistinct
    exact ⟨l', .head (advance_blank ht) h⟩
  | simple hx _ ih =>
    rw [List.append_cons] at hdistinct ⊢
    obtain ⟨t, us, rfl, hblank, hopen, hcomma⟩ := hx.starts
    obtain ⟨l₁, hleave⟩ := reaches_leave hblank hopen hcomma
    obtain ⟨l₂, hpart⟩ := reaches_simple hx hdistinct.of_append
    obtain ⟨l₃, h⟩ := ih hdistinct
    exact ⟨l₃, hleave.trans (hpart.trans h)⟩
  | @narrowing _ _ us _ _ _ _ hgroup _ ih =>
    rw [List.append_cons] at hdistinct ⊢
    cases us with
    | nil => cases hgroup
    | cons t us =>
      obtain ⟨l₁, henter⟩ := reaches_enter hgroup.isDelimiter
      obtain ⟨l₂, hfilter⟩ := reaches_group (j := .adjacent) hgroup
      obtain ⟨l₃, h⟩ := ih hdistinct
      exact ⟨l₃, henter.trans (hfilter.trans h)⟩
  | widening hcomma hblanks hgroup _ ih =>
    rw [List.append_cons] at hdistinct ⊢
    obtain ⟨l₁, hbetween⟩ := reaches_behindBlanks hblanks
    obtain ⟨l₂, hfilter⟩ := reaches_group (j := .comma) hgroup
    obtain ⟨l₃, h⟩ := ih hdistinct
    exact ⟨l₃, .head (advance_comma hcomma) (hbetween.trans (hfilter.trans h))⟩

end Machine

end MapStyle
