import MapStyle.Proofs.Reading.Values

/-!
# Reading selectors

From the first token of a rule on, a reading is accepted exactly if the tokens start with what the
grammar calls selectors and the rest is accepted as the body of a rule with these selectors. The two
modes that read selectors differ only in what they make of a comma.
-/

namespace MapStyle

open Grammar

variable {P : Type}

/-- A selector is empty if it has no part at all. -/
lemma Selector.isEmpty_iff (s : Selector P) : s.isEmpty ↔ s.id = none ∧ s.name = none ∧ s.classes = [] ∧
    s.wildcard = false ∧ s.filter = none ∧ s.attachment = none := by
  obtain ⟨name, id, classes, wildcard, filter, attachment⟩ := s
  cases id <;> cases name <;> cases classes <;> cases wildcard <;>
    simp [Selector.isEmpty, Selector.kind]

namespace Grammar

/-! ### The selector that parts make up -/

lemma selector_nil : selector ([] : List (SelectorPart P)) = {} := rfl

variable (ps : List (SelectorPart P)) (x : SelectorPart P)

lemma selector_concat : selector (ps ++ [x]) =
    { id := (selector ps).id.or x.id?
      name := (selector ps).name.or x.name?
      classes := match x.className? with
        | none => (selector ps).classes
        | some c => (selector ps).classes ++ if c ∈ (selector ps).classes then [] else [c]
      wildcard := (selector ps).wildcard || x.isWildcard
      attachment := (selector ps).attachment.or x.attachment?
      filter := x.filter (selector ps).filter } := by
  have hclasses : (selector (ps ++ [x])).classes = match x.className? with
      | none => (selector ps).classes
      | some c => (selector ps).classes ++ if c ∈ (selector ps).classes then [] else [c] := by
    simp only [selector, List.filterMap_append, List.filterMap_cons, List.filterMap_nil]
    cases x.className? with
    | none => exact congrArg List.eraseDups (List.append_nil _)
    | some c => exact eraseDups_concat _ c
  rw [← hclasses]
  simp [selector, List.findSome?_append, List.foldl_append]

section

variable {ps}

lemma selector_id (h : (selector ps).id = none) (x : String) :
    selector (ps ++ [.id x]) = { selector ps with id := some x } := by
  simp [selector_concat, h]

lemma selector_name (h : (selector ps).name = none) (x : String) :
    selector (ps ++ [.name x]) = { selector ps with name := some x } := by
  simp [selector_concat, h]

lemma selector_attachment (h : (selector ps).attachment = none) (x : String) :
    selector (ps ++ [.attachment x]) = { selector ps with attachment := some x } := by
  simp [selector_concat, h]

lemma selector_className (c : String) :
    selector (ps ++ [.className c]) = (selector ps).insertClass c := by
  by_cases h : c ∈ (selector ps).classes <;> simp [selector_concat, h, Selector.insertClass]

lemma selector_wildcard : selector (ps ++ [.wildcard]) = { selector ps with wildcard := true } := by
  simp [selector_concat]

lemma selector_narrowing (q : P) :
    selector (ps ++ [.narrowing q]) = (selector ps).andFilter (.predicate q) := by
  cases h : (selector ps).filter <;> simp [selector_concat, Selector.andFilter, h]

lemma selector_widening (q : P) :
    selector (ps ++ [.widening q]) = (selector ps).orFilter (.predicate q) := by
  cases h : (selector ps).filter <;> simp [selector_concat, Selector.orFilter, h]

end

lemma length_filterMap_concat {α β : Type} (f : α → Option β) (xs : List α) (a : α) :
    ((xs ++ [a]).filterMap f).length ≤ 1 ↔
      (xs.filterMap f).length ≤ 1 ∧ ((f a).isSome → xs.findSome? f = none) := by
  have hnone : xs.findSome? f = none ↔ (xs.filterMap f).length = 0 := by
    rw [List.findSome?_eq_none_iff, List.length_eq_zero_iff, List.filterMap_eq_nil_iff]
  rw [List.filterMap_append, List.length_append, hnone]
  cases hfa : f a with
  | none => simp [hfa]
  | some b =>
    simp only [List.filterMap_cons, hfa, List.filterMap_nil, List.length_singleton,
      Option.isSome_some, forall_const]
    omega

lemma distinct_concat : Distinct (ps ++ [x]) ↔ Distinct ps ∧
    (x.id?.isSome → (selector ps).id = none) ∧ (x.name?.isSome → (selector ps).name = none) ∧
      (x.attachment?.isSome → (selector ps).attachment = none) := by
  constructor
  · rintro ⟨hids, hnames, hattachments⟩
    rw [length_filterMap_concat] at hids hnames hattachments
    exact ⟨⟨hids.1, hnames.1, hattachments.1⟩, hids.2, hnames.2, hattachments.2⟩
  · rintro ⟨⟨hids, hnames, hattachments⟩, hid, hname, hattachment⟩
    exact ⟨(length_filterMap_concat ..).mpr ⟨hids, hid⟩,
      (length_filterMap_concat ..).mpr ⟨hnames, hname⟩,
      (length_filterMap_concat ..).mpr ⟨hattachments, hattachment⟩⟩

variable {ps}

lemma distinct_nil : Distinct ([] : List (SelectorPart P)) :=
  ⟨Nat.zero_le _, Nat.zero_le _, Nat.zero_le _⟩

lemma Distinct.of_append {qs : List (SelectorPart P)} (h : Distinct (ps ++ qs)) : Distinct ps := by
  obtain ⟨hids, hnames, hattachments⟩ := h
  rw [List.filterMap_append, List.length_append] at hids hnames hattachments
  exact ⟨by omega, by omega, by omega⟩

lemma isEmpty_selector : (selector ps).isEmpty ↔ ps = [] := by
  constructor
  · intro h
    obtain hnil | ⟨qs, x, rfl⟩ := List.eq_nil_or_concat ps
    · exact hnil
    · rw [List.concat_eq_append, selector_concat, Selector.isEmpty_iff] at h
      obtain ⟨hid, hname, hclasses, hwildcard, hfilter, hattachment⟩ := h
      rw [Option.or_eq_none_iff] at hid hname hattachment
      cases x with
      | id => cases hid.2
      | name => cases hname.2
      | className c =>
        obtain ⟨hnil, hnew⟩ := List.append_eq_nil_iff.mp hclasses
        simp [hnil] at hnew
      | wildcard => simp at hwildcard
      | attachment => cases hattachment.2
      | narrowing => cases hfilter
      | widening => cases hfilter
  · rintro rfl
    rfl

/-! ### Filters -/

section

variable {t : Token} {ts : List Token}

lemma filterFollows_blank (ht : t.isWhitespace) : FilterFollows (t :: ts) ↔ FilterFollows ts := by
  constructor
  · rintro ⟨u, us, hblanks, hu⟩
    cases hblanks with
    | none => exact absurd ht (Token.not_isWhitespace hu)
    | more _ hblanks => exact ⟨u, us, hblanks, hu⟩
  · rintro ⟨u, us, hblanks, hu⟩
    exact ⟨u, us, .more ht hblanks, hu⟩

lemma filterFollows_cons (ht : ¬ t.isWhitespace) :
    FilterFollows (t :: ts) ↔ t.isDelimiter "[" := by
  constructor
  · rintro ⟨u, us, hblanks, hu⟩
    cases hblanks with
    | none => exact hu
    | more ht' => exact absurd ht' ht
  · exact fun hopen => ⟨t, ts, .none, hopen⟩

lemma Group.isDelimiter {engine : PredicateEngine P} {q : P} {rest : List Token}
    (h : Group engine (t :: ts) q rest) : t.isDelimiter "[" := by
  cases h with
  | intro hopen => exact hopen

end

/-- The text of a filter so far, with one more token. -/
def extendText (text : String) (t : Token) : String :=
  if t.isWhitespace then (if text.isEmpty then text else text ++ " ") else text ++ t.raw

lemma trim_blank_append (s : String) : Text.trim (" " ++ s) = Text.trim s := by
  have hblank : Text.isBlank ' ' := by decide
  simp [Text.trim, Text.trimChars, String.toList_append, hblank]

lemma trim_append_foldl (inner : List Token) (text : String) :
    Text.trim (inner.foldl extendText text) =
      Text.trim (text ++ String.join (inner.map fun t => if t.isWhitespace then " " else t.raw)) := by
  induction inner generalizing text with
  | nil => simp
  | cons t inner ih =>
    rw [List.foldl_cons, ih, List.map_cons, extendText]
    split
    · next ht =>
      split
      · next hempty =>
        obtain rfl : text = "" := by simpa using hempty
        simp [trim_blank_append]
      · simp [String.append_assoc]
    · simp [String.append_assoc]

/-- Blanks at the start of a filter, which are left out from the beginning, are trimmed anyway. -/
lemma trim_foldl_extendText (inner : List Token) :
    Text.trim (inner.foldl extendText "") = filterText inner := by
  rw [trim_append_foldl, String.empty_append, filterText]

end Grammar

namespace Machine

variable {d : Dialect P} {p : Parsed P} {m : Machine P} {earlier : List (Selector P)}
  {ps : List (SelectorPart P)} {t : Token} {ts : List Token}

/-! ### Filters -/

lemma bounds_iff : bounds t ↔
    t.isDelimiter "]" ∨ ["[", "\x7b", "\x7d", ";"].any t.isDelimiter := by
  simp only [bounds, List.any_cons, List.any_nil, Bool.or_eq_true, Bool.or_false]
  exact or_left_comm

/-- The text of a filter is read as the grammar has it, whatever is then to be done with it. -/
lemma accepts_filterText {A : String → List Token → Prop} {below : List Mode}
    {context : List (Frame P)} {opening : Token} {text : String}
    (hA : ∀ text u rest, Leads d p .filter below u rest
      ((closeFilter d.engine ⟨.filter :: below, .filterText text opening :: context, m.fragments,
        m.rules, m.map, m.warnings, u.location⟩).map .stay) ↔ A text rest) :
    Accepts d p (.filter :: below) (.filterText text opening :: context) m.fragments m.rules m.map
        m.warnings ts ↔
      ∃ inner u rest, ts = inner ++ u :: rest ∧ (∀ x ∈ inner, ¬ bounds x) ∧ u.isDelimiter "]" ∧
        A (inner.foldl extendText text) rest := by
  induction ts generalizing text with
  | nil =>  -- a filter cannot end with the tokens
    rw [accepts_nil (by nofun)]
    constructor
    · rintro ⟨hend, _⟩
      cases hend
    · rintro ⟨inner, u, rest, hts, _⟩
      simp at hts
  | cons t ts ih =>
    have hstep : step d .filter ⟨.filter :: below, .filterText text opening :: context, m.fragments,
        m.rules, m.map, m.warnings, t.location⟩ t = stepFilterText d ⟨.filter :: below,
        .filterText text opening :: context, m.fragments, m.rules, m.map, m.warnings,
        t.location⟩ t := rfl
    have hextend : extendFilter ⟨.filter :: below, .filterText text opening :: context, m.fragments,
        m.rules, m.map, m.warnings, t.location⟩ t = .ok ⟨.filter :: below,
        .filterText (extendText text t) opening :: context, m.fragments, m.rules, m.map, m.warnings,
        t.location⟩ := rfl
    rw [accepts_cons (by nofun), hstep, stepFilterText]
    constructor
    · intro h
      -- `]` ends the filter; a token that bounds it otherwise is refused, any other one extends it
      split at h
      · next hclose => exact ⟨[], t, ts, rfl, by simp, hclose, (hA text t ts).mp h⟩
      · next hclose =>
        rw [leads_error_ite, hextend, map_ok, leads_stay, ih] at h
        obtain ⟨hbad, inner, u, rest, rfl, hinner, hu, h⟩ := h
        refine ⟨t :: inner, u, rest, rfl, ?_, hu, h⟩
        exact List.forall_mem_cons.mpr ⟨fun hb => (bounds_iff.mp hb).elim hclose hbad, hinner⟩
    · rintro ⟨inner, u, rest, hts, hinner, hu, h⟩
      -- the closing bracket comes at once, or behind a first token that does not bound the filter
      cases inner with
      | nil =>
        cases hts
        rw [if_pos hu]
        exact (hA text _ _).mpr h
      | cons x inner =>
        cases hts
        obtain ⟨hx, hinner⟩ := List.forall_mem_cons.mp hinner
        rw [bounds_iff, not_or] at hx
        rw [if_neg hx.1, if_neg hx.2, hextend, map_ok, leads_stay, ih]
        exact ⟨inner, u, rest, rfl, hinner, hu, h⟩

/-! ### States between the parts of a selector -/

/-- Reading goes on in the selectors of a rule that has been started in a state: some are read already,
and of the next one some parts, of which the last may be a filter. -/
def AcceptsParts (d : Dialect P) (p : Parsed P) (m : Machine P) (earlier : List (Selector P))
    (filtered : Bool) (ps : List (SelectorPart P)) (ts : List Token) : Prop :=
  Accepts d p ((if filtered then [.filter, .rule] else [.rule]) ++ m.control)
    (.selectors earlier (selector ps) :: m.context) m.fragments m.rules m.map m.warnings ts

/-- Reading goes on in the body of a rule that has been opened in a state. -/
def AcceptsOpened (d : Dialect P) (p : Parsed P) (m : Machine P) (selectors : List (Selector P))
    (ts : List Token) : Prop :=
  Accepts d p (.rule :: m.control) (.ruleBody :: m.context)
    (.rule (.ofSelectors selectors) :: m.fragments) m.rules m.map m.warnings ts

variable {filtered : Bool}

lemma not_acceptsParts_nil : ¬ AcceptsParts d p m earlier filtered ps [] := by
  cases filtered with
  | false =>
    rintro h
    rw [AcceptsParts, if_neg (by simp), List.singleton_append, accepts_nil (by nofun)] at h
    cases h.1
  | true =>
    intro h
    rw [AcceptsParts, if_pos rfl, List.cons_append, accepts_nil (by nofun), List.singleton_append,
      accepts_nil (by nofun)] at h
    cases h.2.1

lemma acceptsParts_cons :
    AcceptsParts d p m earlier false ps (t :: ts) ↔ Leads d p .rule m.control t ts
      (stepSelectorPart d ⟨.rule :: m.control, .selectors earlier (selector ps) :: m.context,
        m.fragments, m.rules, m.map, m.warnings, t.location⟩ t) :=
  accepts_cons (by nofun)

lemma acceptsParts_blank (t : Token) (ts : List Token) (ht : t.isWhitespace) :
    AcceptsParts d p m earlier filtered ps (t :: ts) ↔ AcceptsParts d p m earlier filtered ps ts := by
  obtain ⟨raw, text, location, rfl⟩ := Token.eq_of_isWhitespace ht
  cases filtered with
  | false => rw [acceptsParts_cons, stepSelectorPart, leads_stay]; rfl
  | true => simp [AcceptsParts, accepts_cons, step, stepFilter, Token.isWhitespace]

/-- Behind a filter, everything but another filter and a comma is left to the mode around it. -/
lemma acceptsParts_leave (hblank : ¬ t.isWhitespace) (hopen : ¬ t.isDelimiter "[")
    (hcomma : ¬ t.isDelimiter ",") :
    AcceptsParts d p m earlier filtered ps (t :: ts) ↔
      AcceptsParts d p m earlier false ps (t :: ts) := by
  cases filtered with
  | false => rfl
  | true =>
    simp [AcceptsParts, accepts_cons, step, stepFilter, atComma, hblank, hopen, hcomma]

lemma accepts_group {B : P → List Token → Prop} {below : List Mode} {context : List (Frame P)}
    (ht : t.isDelimiter "[")
    (hB : ∀ text u rest, Leads d p .filter below u rest
      ((closeFilter d.engine ⟨.filter :: below, .filterText text t :: context, m.fragments,
        m.rules, m.map, m.warnings, u.location⟩).map .stay) ↔
        Text.trim text ≠ "" ∧ ∃ q, d.engine (Text.trim text) = .ok q ∧ B q rest) :
    Accepts d p (.filter :: below) (.filterText "" t :: context) m.fragments m.rules m.map
        m.warnings ts ↔ ∃ q rest, Group d.engine (t :: ts) q rest ∧ B q rest := by
  rw [accepts_filterText hB]
  constructor
  · rintro ⟨inner, u, rest, rfl, hinner, hclose, htext, q, hq, h⟩
    rw [trim_foldl_extendText] at htext hq
    exact ⟨q, rest, .intro ht hinner hclose htext hq, h⟩
  · rintro ⟨q, rest, hgroup, h⟩
    cases hgroup with
    | intro _ hinner hclose htext hq =>
      refine ⟨_, _, _, rfl, hinner, hclose, ?_⟩
      rw [trim_foldl_extendText]
      exact ⟨htext, q, hq, h⟩

lemma acceptsParts_group (ht : t.isDelimiter "[") :
    AcceptsParts d p m earlier filtered ps (t :: ts) ↔
      ∃ q rest, Group d.engine (t :: ts) q rest ∧
        AcceptsParts d p m earlier true (ps ++ [.narrowing q]) rest := by
  have hopen : AcceptsParts d p m earlier filtered ps (t :: ts) ↔
      Accepts d p (.filter :: .rule :: m.control)
        (.filterText "" t :: .selectors earlier (selector ps) :: m.context) m.fragments m.rules m.map
        m.warnings ts := by
    obtain ⟨raw, location, rfl⟩ := Token.eq_of_isDelimiter ht
    cases filtered with
    | false =>
      rw [acceptsParts_cons]
      simp [accepts_cons, step, stepSelectorPart, stepFilter, pushFrame, Token.isWhitespace,
        Token.isDelimiter]
    | true =>
      simp [AcceptsParts, accepts_cons, step, stepFilter, pushFrame, Token.isWhitespace,
        Token.isDelimiter]
  rw [hopen]
  refine accepts_group ht fun text u rest => ?_
  cases hq : d.engine (Text.trim text) <;>
    simp [closeFilter, hq, updateSelector, updateInContext, AcceptsParts, selector_narrowing]

lemma acceptsParts_comma (ht : t.isDelimiter ",") :
    AcceptsParts d p m earlier false ps (t :: ts) ↔
      ps ≠ [] ∧ AcceptsParts d p m (earlier ++ [selector ps]) false [] ts := by
  obtain ⟨raw, location, rfl⟩ := Token.eq_of_isDelimiter ht
  rw [acceptsParts_cons]
  simp [stepSelectorPart, updateSelector, updateInContext, nextSelector, isEmpty_selector,
    AcceptsParts, selector_nil]

/-- Whether selectors are empty is looked at again when their rule is opened. -/
lemma acceptsParts_brace (ht : t.isDelimiter "\x7b") :
    AcceptsParts d p m earlier false ps (t :: ts) ↔
      (∀ s ∈ earlier, ¬ s.isEmpty) ∧ ps ≠ [] ∧ m.fragments.countP Fragment.isRule < d.maxDepth ∧
        AcceptsOpened d p m (earlier ++ [selector ps]) ts := by
  obtain ⟨raw, location, rfl⟩ := Token.eq_of_isDelimiter ht
  have hany : ¬ (earlier ++ [selector ps]).any Selector.isEmpty ↔ (∀ s ∈ earlier, ¬ s.isEmpty) ∧ ps ≠ [] := by
    rw [List.any_append, Bool.or_eq_true, not_or, List.any_eq_true, List.any_eq_true]
    simp [← isEmpty_selector]
  rw [acceptsParts_cons, ← and_assoc, ← hany]
  simp [stepSelectorPart, openRule, -List.any_append, AcceptsOpened]

lemma accepts_classMarker {s : Selector P} :
    Accepts d p (.rule :: m.control) (.classMarker :: .selectors earlier s :: m.context) m.fragments
        m.rules m.map m.warnings ts ↔
      ∃ u us, ts = u :: us ∧ u.kind = .identifier ∧ Accepts d p (.rule :: m.control)
        (.selectors earlier (s.insertClass u.text) :: m.context) m.fragments m.rules m.map m.warnings
        us := by
  cases ts with
  | nil => simp [accepts_nil, stepEnd]
  | cons u us =>
    by_cases hname : u.kind = .identifier <;>
      simp [accepts_cons, step, stepRule, inRuleBody, stepSelector, updateSelector, updateInContext,
        hname, and_assoc]

lemma accepts_attachmentMarker {s : Selector P} :
    Accepts d p (.rule :: m.control) (.attachmentMarker :: .selectors earlier s :: m.context)
        m.fragments m.rules m.map m.warnings ts ↔
      ∃ u us, ts = u :: us ∧ u.kind = .identifier ∧ s.attachment = none ∧
        Accepts d p (.rule :: m.control)
          (.selectors earlier { s with attachment := some u.text } :: m.context) m.fragments m.rules
          m.map m.warnings us := by
  cases ts with
  | nil => simp [accepts_nil, stepEnd]
  | cons u us =>
    by_cases hname : u.kind = .identifier <;>
      simp [accepts_cons, step, stepRule, inRuleBody, stepSelector, updateSelector, updateInContext,
        hname, and_assoc]

/-- A full stop in a selector calls for the name of a class. -/
lemma acceptsParts_dot (ht : t.isOperator ".") :
    AcceptsParts d p m earlier false ps (t :: ts) ↔ ∃ u us, ts = u :: us ∧ u.kind = .identifier ∧
      AcceptsParts d p m earlier false (ps ++ [.className u.text]) us := by
  obtain ⟨raw, location, rfl⟩ := Token.eq_of_isOperator ht
  rw [acceptsParts_cons]
  simp [stepSelectorPart, pushFrame, accepts_classMarker, AcceptsParts, selector_className]

/-- A colon in a selector calls for another one and the name of an attachment. -/
lemma acceptsParts_colon (ht : t.isDelimiter ":") :
    AcceptsParts d p m earlier false ps (t :: ts) ↔ ∃ u v us, ts = u :: v :: us ∧ u.isDelimiter ":" ∧
      v.kind = .identifier ∧ (selector ps).attachment = none ∧
      AcceptsParts d p m earlier false (ps ++ [.attachment v.text]) us := by
  obtain ⟨raw, location, rfl⟩ := Token.eq_of_isDelimiter ht
  rw [acceptsParts_cons]
  cases ts with
  | nil => simp [stepSelectorPart, pushFrame, accepts_nil, stepEnd]
  | cons u us =>
    by_cases hsecond : u.isDelimiter ":" <;> by_cases hattachment : (selector ps).attachment = none <;>
      simp [stepSelectorPart, pushFrame, accepts_cons, step, stepRule, inRuleBody, stepSelector,
        accepts_attachmentMarker, AcceptsParts, selector_attachment, hsecond, hattachment, and_assoc]

lemma acceptsParts_simple {x : SelectorPart P} {us : List Token} (hx : Simple ts x us)
    (hps : Distinct ps) :
    AcceptsParts d p m earlier false ps ts ↔
      Distinct (ps ++ [x]) ∧ AcceptsParts d p m earlier false (ps ++ [x]) us := by
  rw [distinct_concat]
  cases hx with
  | id h =>
    rw [acceptsParts_cons]
    by_cases hid : (selector ps).id = none <;>
      simp [stepSelectorPart, h, updateSelector, updateInContext, AcceptsParts, hps, hid, selector_id]
  | name h =>
    rw [acceptsParts_cons]
    by_cases hname : (selector ps).name = none <;>
      simp [stepSelectorPart, h, updateSelector, updateInContext, AcceptsParts, hps, hname,
        selector_name]
  | className h hname =>
    rw [acceptsParts_dot h]
    simp [hname, hps, and_assoc]
  | wildcard h =>
    obtain ⟨raw, location, rfl⟩ := Token.eq_of_isOperator h
    rw [acceptsParts_cons]
    simp [stepSelectorPart, updateSelector, updateInContext, AcceptsParts, hps, selector_wildcard]
  | attachment h h' hname =>
    rw [acceptsParts_colon h]
    simp [h', hname, hps, and_assoc]

/-- Between the parts of a selector, these are the tokens that may come. -/
lemma acceptsParts_cases (h : AcceptsParts d p m earlier false ps (t :: ts)) :
    t.isWhitespace ∨ t.isDelimiter "[" ∨ t.isDelimiter "," ∨ t.isDelimiter "\x7b" ∨
      ∃ (x : SelectorPart P) (us : List Token), Simple (t :: ts) x us := by
  -- a class and an attachment take a second token, which tells them apart from the rest
  by_cases hdot : t.isOperator "."
  · obtain ⟨u, us, rfl, hname, _⟩ := (acceptsParts_dot hdot).mp h
    exact .inr (.inr (.inr (.inr ⟨_, _, .className hdot hname⟩)))
  by_cases hcolon : t.isDelimiter ":"
  · obtain ⟨u, v, us, rfl, hsecond, hname, _⟩ := (acceptsParts_colon hcolon).mp h
    exact .inr (.inr (.inr (.inr ⟨_, _, .attachment hcolon hsecond hname⟩)))
  rw [acceptsParts_cons] at h
  -- any other part is told by the kind of its first token
  obtain ⟨kind, raw, text, location⟩ := t
  cases kind with
  | whitespace => exact .inl rfl
  | colorLiteral => exact .inr (.inr (.inr (.inr ⟨_, _, .id rfl⟩)))
  | identifier => exact .inr (.inr (.inr (.inr ⟨_, _, .name rfl⟩)))
  | operator =>
    by_cases hstar : Token.isOperator ⟨.operator, raw, text, location⟩ "*"
    · exact .inr (.inr (.inr (.inr ⟨_, _, .wildcard hstar⟩)))
    · simp_all [stepSelectorPart, Token.isOperator]
  | delimiter =>
    by_cases hcomma : text = ","
    · exact .inr (.inr (.inl (by simp [Token.isDelimiter, hcomma])))
    by_cases hopen : text = "["
    · exact .inr (.inl (by simp [Token.isDelimiter, hopen]))
    by_cases hbrace : text = "\x7b"
    · exact .inr (.inr (.inr (.inl (by simp [Token.isDelimiter, hbrace]))))
    · simp_all [stepSelectorPart, Token.isDelimiter]
  | _ => simp [stepSelectorPart] at h

lemma accepts_commaMarker_group (ht : t.isDelimiter "[") :
    Accepts d p (.filter :: .rule :: m.control)
        (.commaMarker :: .selectors earlier (selector ps) :: m.context) m.fragments m.rules m.map
        m.warnings (t :: ts) ↔
      ∃ q rest, Group d.engine (t :: ts) q rest ∧
        AcceptsParts d p m earlier true (ps ++ [.widening q]) rest := by
  have hopen : Accepts d p (.filter :: .rule :: m.control)
      (.commaMarker :: .selectors earlier (selector ps) :: m.context) m.fragments m.rules m.map
      m.warnings (t :: ts) ↔ Accepts d p (.filter :: .rule :: m.control)
      (.filterText "" t :: .commaMarker :: .selectors earlier (selector ps) :: m.context) m.fragments
      m.rules m.map m.warnings ts := by
    have hblank := Token.not_isWhitespace ht
    simp [accepts_cons, step, stepFilter, pushFrame, hblank, ht]
  rw [hopen]
  refine accepts_group ht fun text u rest => ?_
  cases hq : d.engine (Text.trim text) <;>
    simp [closeFilter, hq, updateSelector, updateInContext, AcceptsParts, selector_widening]

/-- Behind a filter and a comma, another filter widens, and anything else starts the next selector. -/
lemma accepts_commaMarker :
    Accepts d p (.filter :: .rule :: m.control)
        (.commaMarker :: .selectors earlier (selector ps) :: m.context) m.fragments m.rules m.map
        m.warnings ts ↔
      (∃ us q rest, Blanks ts us ∧ Group d.engine us q rest ∧
        AcceptsParts d p m earlier true (ps ++ [.widening q]) rest) ∨
      (¬ FilterFollows ts ∧
        AcceptsParts d p m (earlier ++ [selector ps]) false [] ts) := by
  induction ts with
  | nil =>
    rw [accepts_nil (by nofun), accepts_nil (by nofun)]
    constructor
    · rintro ⟨_, hend, _⟩
      cases hend
    · rintro (⟨us, q, rest, hblanks, hgroup, _⟩ | ⟨_, h⟩)
      · cases hblanks
        cases hgroup
      · exact absurd h not_acceptsParts_nil
  | cons t ts ih =>
    by_cases hblank : t.isWhitespace
    · have hskip : Accepts d p (.filter :: .rule :: m.control)
          (.commaMarker :: .selectors earlier (selector ps) :: m.context) m.fragments m.rules m.map
          m.warnings (t :: ts) ↔ Accepts d p (.filter :: .rule :: m.control)
          (.commaMarker :: .selectors earlier (selector ps) :: m.context) m.fragments m.rules m.map
          m.warnings ts := by
        simp [accepts_cons, step, stepFilter, hblank]
      rw [hskip, ih, acceptsParts_blank t ts hblank, filterFollows_blank hblank]
      refine or_congr_left ⟨?_, ?_⟩
      · rintro ⟨us, q, rest, hblanks, h⟩
        exact ⟨us, q, rest, .more hblank hblanks, h⟩
      · rintro ⟨us, q, rest, hblanks, hgroup, h⟩
        cases hblanks with
        | none => exact absurd hblank (Token.not_isWhitespace hgroup.isDelimiter)
        | more _ hblanks => exact ⟨us, q, rest, hblanks, hgroup, h⟩
    rw [filterFollows_cons hblank]
    by_cases hopen : t.isDelimiter "["
    · rw [accepts_commaMarker_group hopen, or_iff_left fun h => h.1 hopen]
      constructor
      · rintro ⟨q, rest, hgroup, h⟩
        exact ⟨_, q, rest, .none, hgroup, h⟩
      · rintro ⟨us, q, rest, hblanks, hgroup, h⟩
        cases hblanks with
        | none => exact ⟨q, rest, hgroup, h⟩
        | more hblank' => exact absurd hblank' hblank
    · rw [or_iff_right, and_iff_right hopen]
      -- a second comma is no part of a selector either, so the next selector would be empty
      · by_cases hcomma : t.isDelimiter ","
        · rw [acceptsParts_comma hcomma]
          simp [accepts_cons, step, stepFilter, atComma, hblank, hopen, hcomma]
        · simp [accepts_cons, step, stepFilter, atComma, hblank, hopen, hcomma, dropFrame, nextSelector,
            AcceptsParts, selector_nil]
      · rintro ⟨us, q, rest, hblanks, hgroup, _⟩
        cases hblanks with
        | none => exact hopen hgroup.isDelimiter
        | more hblank' => exact hblank hblank'

lemma acceptsParts_marker (ht : t.isDelimiter ",") :
    AcceptsParts d p m earlier true ps (t :: ts) ↔
      Accepts d p (.filter :: .rule :: m.control)
        (.commaMarker :: .selectors earlier (selector ps) :: m.context) m.fragments m.rules m.map
        m.warnings ts := by
  obtain ⟨raw, location, rfl⟩ := Token.eq_of_isDelimiter ht
  simp [AcceptsParts, accepts_cons, step, stepFilter, pushFrame, atComma, Token.isWhitespace,
    Token.isDelimiter]

/-- A comma separates selectors, unless it stands between two filters. -/
lemma acceptsParts_separator (hps : filtered → ps ≠ []) (ht : t.isDelimiter ",") :
    AcceptsParts d p m earlier filtered ps (t :: ts) ↔
      (filtered ∧ ∃ us q rest, Blanks ts us ∧ Group d.engine us q rest ∧
        AcceptsParts d p m earlier true (ps ++ [.widening q]) rest) ∨
      (ps ≠ [] ∧ (filtered → ¬ FilterFollows ts) ∧
        AcceptsParts d p m (earlier ++ [selector ps]) false [] ts) := by
  cases filtered with
  | false => simp [acceptsParts_comma ht]
  | true =>
    rw [acceptsParts_marker ht, accepts_commaMarker]
    simp [hps rfl]

/-! ### Selectors -/

lemma acceptsParts_of_simple {x : SelectorPart P} {us : List Token} (hx : Simple ts x us)
    (hps : Distinct (ps ++ [x])) (h : AcceptsParts d p m earlier false (ps ++ [x]) us) :
    AcceptsParts d p m earlier filtered ps ts := by
  have hfalse : AcceptsParts d p m earlier false ps ts :=
    (acceptsParts_simple hx hps.of_append).mpr ⟨hps, h⟩
  cases hx with
  | _ =>
    rw [acceptsParts_leave]
    all_goals simp_all [Token.isWhitespace, Token.isDelimiter, Token.isOperator]

lemma acceptsParts_of_group {q : P} {rest : List Token} (hgroup : Group d.engine ts q rest)
    (h : AcceptsParts d p m earlier true (ps ++ [.narrowing q]) rest) :
    AcceptsParts d p m earlier filtered ps ts := by
  cases ts with
  | nil => cases hgroup
  | cons t ts => exact (acceptsParts_group hgroup.isDelimiter).mpr ⟨q, rest, hgroup, h⟩

/-- A reading is accepted before the parts of a selector if it is accepted behind them. -/
lemma acceptsParts_of_parts {filtered' : Bool} {qs : List (SelectorPart P)} {rest : List Token}
    (hqs : Parts d.engine filtered ts qs filtered' rest) (hps : filtered → ps ≠ [])
    (hdistinct : Distinct (ps ++ qs)) (h : AcceptsParts d p m earlier filtered' (ps ++ qs) rest) :
    AcceptsParts d p m earlier filtered ps ts := by
  induction hqs generalizing ps with
  | done => rwa [List.append_nil] at h
  | blank ht _ ih => exact (acceptsParts_blank _ _ ht).mpr (ih hps hdistinct h)
  | simple hx _ ih =>
    rw [List.append_cons] at hdistinct h
    exact acceptsParts_of_simple hx hdistinct.of_append (ih nofun hdistinct h)
  | narrowing hgroup _ ih =>
    rw [List.append_cons] at hdistinct h
    exact acceptsParts_of_group hgroup (ih (by simp) hdistinct h)
  | widening hcomma hblanks hgroup _ ih =>
    rw [List.append_cons] at hdistinct h
    rw [acceptsParts_separator hps hcomma]
    exact .inl ⟨rfl, _, _, _, hblanks, hgroup, ih (by simp) hdistinct h⟩

lemma acceptsParts_of_brace (hearlier : ∀ s ∈ earlier, ¬ s.isEmpty) (hps : ps ≠ [])
    (ht : t.isDelimiter "\x7b") (hdepth : m.fragments.countP Fragment.isRule < d.maxDepth)
    (h : AcceptsOpened d p m (earlier ++ [selector ps]) ts) :
    AcceptsParts d p m earlier filtered ps (t :: ts) := by
  rw [acceptsParts_leave (Token.not_isWhitespace ht) (Token.not_isDelimiter ht (by decide))
    (Token.not_isDelimiter ht (by decide)), acceptsParts_brace ht]
  exact ⟨hearlier, hps, hdepth, h⟩

lemma not_isEmpty_concat (hearlier : ∀ s ∈ earlier, ¬ s.isEmpty) (hps : ps ≠ []) :
    ∀ s ∈ earlier ++ [selector ps], ¬ s.isEmpty := by
  intro s hs
  rw [List.mem_append, List.mem_singleton] at hs
  obtain hs | rfl := hs
  · exact hearlier s hs
  · exact fun hempty => hps (isEmpty_selector.mp hempty)

lemma acceptsParts_of_selectors {ss : List (Selector P)} {rest : List Token}
    (hss : Selectors d.engine ts ss rest) (hearlier : ∀ s ∈ earlier, ¬ s.isEmpty)
    (hdepth : m.fragments.countP Fragment.isRule < d.maxDepth)
    (h : AcceptsOpened d p m (earlier ++ ss) rest) : AcceptsParts d p m earlier false [] ts := by
  induction hss generalizing earlier with
  | last hps hne hdistinct hbrace =>
    exact acceptsParts_of_parts hps nofun hdistinct
      (acceptsParts_of_brace hearlier hne hbrace hdepth h)
  | more hps hne hdistinct hcomma hnext _ ih =>
    refine acceptsParts_of_parts hps nofun hdistinct ?_
    rw [List.nil_append, acceptsParts_separator (fun _ => hne) hcomma]
    exact .inr ⟨hne, hnext, ih (not_isEmpty_concat hearlier hne) (by rwa [← List.append_cons])⟩

/-- What the grammar says of tokens that go on with the selectors of a rule, of which some parts are
known already. -/
def Continues (engine : PredicateEngine P) (filtered : Bool) (ps : List (SelectorPart P))
    (ts : List Token) (ss : List (Selector P)) (rest : List Token) : Prop :=
  ∃ qs filtered' t us, Parts engine filtered ts qs filtered' (t :: us) ∧ ps ++ qs ≠ [] ∧
    Distinct (ps ++ qs) ∧
    (t.isDelimiter "\x7b" ∧ ss = [selector (ps ++ qs)] ∧ rest = us ∨
      t.isDelimiter "," ∧ (filtered' → ¬ FilterFollows us) ∧
        ∃ ss', Selectors engine us ss' rest ∧ ss = selector (ps ++ qs) :: ss')

lemma Continues.of_part {engine : PredicateEngine P} {filtered filtered' : Bool} {x : SelectorPart P}
    {us rest : List Token} {ss : List (Selector P)}
    (hx : ∀ {qs : List (SelectorPart P)} {filtered'' : Bool} {rest : List Token},
      Parts engine filtered' us qs filtered'' rest → Parts engine filtered ts (x :: qs) filtered'' rest)
    (h : Continues engine filtered' (ps ++ [x]) us ss rest) :
    Continues engine filtered ps ts ss rest := by
  obtain ⟨qs, filtered'', t, vs, hqs, h⟩ := h
  rw [← List.append_cons] at h
  exact ⟨x :: qs, filtered'', t, vs, hx hqs, h⟩

lemma Continues.selectors {engine : PredicateEngine P} {ss : List (Selector P)} {rest : List Token}
    (h : Continues engine false [] ts ss rest) : Selectors engine ts ss rest := by
  obtain ⟨qs, filtered, t, us, hqs, hne, hdistinct, h⟩ := h
  obtain ⟨hbrace, rfl, rfl⟩ | ⟨hcomma, hnext, ss', hss, rfl⟩ := h
  · exact .last hqs hne hdistinct hbrace
  · exact .more hqs hne hdistinct hcomma hnext hss

/-- An accepted reading takes up tokens that the grammar calls the rest of some selectors, and there are no empty
ones before them. -/
lemma exists_continues (hps : filtered → ps ≠ []) (hdistinct : Distinct ps)
    (h : AcceptsParts d p m earlier filtered ps ts) :
    ∃ ss rest, Continues d.engine filtered ps ts ss rest ∧ (∀ s ∈ earlier, ¬ s.isEmpty) ∧
      m.fragments.countP Fragment.isRule < d.maxDepth ∧ AcceptsOpened d p m (earlier ++ ss) rest := by
  induction hn : ts.length using Nat.strongRecOn generalizing ts ps filtered earlier with
  | ind n ih =>
    subst hn
    cases ts with
    | nil => exact absurd h not_acceptsParts_nil
    | cons t ts =>
      by_cases hblank : t.isWhitespace
      · rw [acceptsParts_blank t ts hblank] at h
        obtain ⟨ss, rest, ⟨qs, filtered', u, us, hqs, hss⟩, hopened⟩ :=
          ih _ (Nat.lt_succ_self _) hps hdistinct h rfl
        exact ⟨ss, rest, ⟨qs, filtered', u, us, .blank hblank hqs, hss⟩, hopened⟩
      by_cases hopen : t.isDelimiter "["
      · rw [acceptsParts_group hopen] at h
        obtain ⟨q, us, hgroup, h⟩ := h
        obtain ⟨ss, rest, hss, hopened⟩ := ih _ hgroup.length_lt (by simp)
          ((distinct_concat ..).mpr ⟨hdistinct, by nofun, by nofun, by nofun⟩) h rfl
        exact ⟨ss, rest, hss.of_part (.narrowing hgroup), hopened⟩
      by_cases hcomma : t.isDelimiter ","
      · rw [acceptsParts_separator hps hcomma] at h
        obtain ⟨rfl, us, q, vs, hblanks, hgroup, h⟩ | ⟨hne, hnext, h⟩ := h
        · have hlt : vs.length < (t :: ts).length :=
            Nat.lt_succ_of_lt (Nat.lt_of_lt_of_le hgroup.length_lt hblanks.length_le)
          obtain ⟨ss, rest, hss, hopened⟩ := ih _ hlt (by simp)
            ((distinct_concat ..).mpr ⟨hdistinct, by nofun, by nofun, by nofun⟩) h rfl
          exact ⟨ss, rest, hss.of_part (.widening hcomma hblanks hgroup), hopened⟩
        · obtain ⟨ss, rest, hss, hearlier, hdepth, h⟩ :=
            ih _ (Nat.lt_succ_self _) (by nofun) distinct_nil h rfl
          rw [← List.append_cons] at h
          refine ⟨_, rest, ⟨[], filtered, t, ts, .done, ?_, ?_, ?_⟩, (List.forall_mem_append.mp hearlier).1,
            hdepth, h⟩
          · rwa [List.append_nil]
          · rwa [List.append_nil]
          · rw [List.append_nil]
            exact .inr ⟨hcomma, hnext, ss, hss.selectors, rfl⟩
      -- what is left to see does not depend on whether a filter is the last part
      rw [acceptsParts_leave hblank hopen hcomma] at h
      obtain hblank' | hopen' | hcomma' | hbrace | ⟨x, us, hx⟩ := acceptsParts_cases h
      · exact absurd hblank' hblank
      · exact absurd hopen' hopen
      · exact absurd hcomma' hcomma
      · obtain ⟨hearlier, hne, hdepth, h⟩ := (acceptsParts_brace hbrace).mp h
        refine ⟨[selector ps], ts, ⟨[], filtered, t, ts, .done, ?_, ?_, ?_⟩, hearlier, hdepth, h⟩
        · rwa [List.append_nil]
        · rwa [List.append_nil]
        · rw [List.append_nil]
          exact .inl ⟨hbrace, rfl, rfl⟩
      · obtain ⟨hdistinct', h⟩ := (acceptsParts_simple hx hdistinct).mp h
        obtain ⟨ss, rest, hss, hopened⟩ := ih _ hx.length_lt (by nofun) hdistinct' h rfl
        exact ⟨ss, rest, hss.of_part (.simple hx), hopened⟩

/-- Selectors are read as the grammar has them. -/
theorem accepts_selectors :
    Accepts d p (.rule :: m.control) (.selectors [] {} :: m.context) m.fragments m.rules m.map
        m.warnings ts ↔
      ∃ ss rest, Selectors d.engine ts ss rest ∧
        m.fragments.countP Fragment.isRule < d.maxDepth ∧ AcceptsOpened d p m ss rest := by
  change AcceptsParts d p m [] false [] ts ↔ _
  constructor
  · intro h
    obtain ⟨ss, rest, hss, -, hopened⟩ := exists_continues (by nofun) distinct_nil h
    exact ⟨ss, rest, hss.selectors, hopened⟩
  · rintro ⟨ss, rest, hss, hdepth, h⟩
    exact acceptsParts_of_selectors hss (by nofun) hdepth h

end Machine

end MapStyle
