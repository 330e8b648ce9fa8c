import MapStyle.Proofs.Evaluation.Presence
import MapStyle.Proofs.Evaluation.Joining
import MapStyle.Proofs.Reading.Opened

/-!
# Runs of filters

The filters behind a selector are joined from left to right, without precedence: one that follows directly
narrows what those before it let pass, one behind a comma widens it. A comma in front of anything else ends the
selector with all its filters.
-/

namespace MapStyle

open Grammar

variable {P : Type}

namespace Grammar

/-! ### The filter of a run -/

namespace Joint

/-- The answer that decides the whole as soon as one side gives it. -/
def decisive : Joint → Bool
  | adjacent => false
  | comma => true

/-- The filter that two joined ones are together. -/
def join : Joint → Filter P → Filter P → Filter P
  | adjacent => Filter.and
  | comma => Filter.or

lemma evaluate_join [Predicate P] (j : Joint) (f g : Filter P) (c : Candidate) :
    (j.join f g).evaluate c = Verdict.seek j.decisive [f.evaluate c, g.evaluate c] := by
  cases j with
  | adjacent => rw [join, Filter.evaluate_and, Verdict.and_eq_seek, decisive]
  | comma => rw [join, Filter.evaluate_or, Verdict.or_eq_seek, decisive]

end Joint

/-- The filter of a run: a first one, and those that are joined to it in turn. -/
def joinAll (f : Filter P) (js : List (Joint × P)) : Filter P :=
  js.foldl (fun f j => j.1.join f (.predicate j.2)) f

/-- What the filter of a run says is put together from left to right. -/
lemma evaluate_joinAll [Predicate P] (f : Filter P) (js : List (Joint × P)) (c : Candidate) :
    (joinAll f js).evaluate c =
      js.foldl (fun v j => Verdict.seek j.1.decisive [v, Predicate.evaluate j.2 c]) (f.evaluate c) := by
  rw [joinAll]
  induction js generalizing f with
  | nil => rfl
  | cons j js ih => rw [List.foldl_cons, List.foldl_cons, ih, Joint.evaluate_join, Filter.evaluate]

variable {ps : List (SelectorPart P)} {f : Filter P}

lemma selector_joint (hf : (selector ps).filter = some f) (j : Joint) (q : P) :
    selector (ps ++ [j.part q]) = { selector ps with filter := some (j.join f (.predicate q)) } := by
  cases j with
  | adjacent => rw [Joint.part, selector_narrowing, Selector.andFilter, hf, Joint.join]
  | comma => rw [Joint.part, selector_widening, Selector.orFilter, hf, Joint.join]

/-- A run of filters changes nothing but the filter of a selector. -/
lemma selector_joinAll (hf : (selector ps).filter = some f) (js : List (Joint × P)) :
    selector (ps ++ js.map fun j => j.1.part j.2) = { selector ps with filter := some (joinAll f js) } := by
  induction js generalizing ps f with
  | nil => rw [List.map_nil, List.append_nil, joinAll, List.foldl_nil, ← hf]
  | cons j js ih =>
    have hj := selector_joint hf j.1 j.2
    rw [List.map_cons, List.append_cons, ih (congrArg Selector.filter hj), hj]
    rfl

lemma Distinct.append_joints (h : Distinct ps) (js : List (Joint × P)) :
    Distinct (ps ++ js.map fun j => j.1.part j.2) := by
  induction js generalizing ps with
  | nil => rwa [List.map_nil, List.append_nil]
  | cons j js ih =>
    rw [List.map_cons, List.append_cons]
    refine ih ((distinct_concat ..).mpr ⟨h, ?_⟩)
    cases j.1 <;> exact ⟨nofun, nofun, nofun⟩

/-! ### The tokens of a run -/

/-- Filters behind another one, each joined to the one before it by a single comma or by nothing, with or without
white space. -/
inductive Joined (engine : PredicateEngine P) : List Token → List (Joint × P) → List Token → Prop
  | done {ts : List Token} : Joined engine ts [] ts
  | adjacent {ts us vs rest : List Token} {q : P} {js : List (Joint × P)} (hblanks : Blanks ts us)
      (h : Group engine us q vs) (hmore : Joined engine vs js rest) :
      Joined engine ts ((.adjacent, q) :: js) rest
  | comma {t : Token} {ts us vs ws rest : List Token} {q : P} {js : List (Joint × P)}
      (hbefore : Blanks ts (t :: us)) (hcomma : t.isDelimiter ",") (hbehind : Blanks us vs)
      (h : Group engine vs q ws) (hmore : Joined engine ws js rest) :
      Joined engine ts ((.comma, q) :: js) rest

variable {engine : PredicateEngine P} {ts us rest : List Token}

lemma Parts.of_blanks {filtered filtered' : Bool} (hblanks : Blanks ts us)
    (h : Parts engine filtered us ps filtered' rest) : Parts engine filtered ts ps filtered' rest := by
  induction hblanks with
  | none => exact h
  | more ht _ ih => exact .blank ht (ih h)

lemma Parts.append {filtered filtered' filtered'' : Bool} {qs : List (SelectorPart P)}
    (hps : Parts engine filtered ts ps filtered' us) (hqs : Parts engine filtered' us qs filtered'' rest) :
    Parts engine filtered ts (ps ++ qs) filtered'' rest := by
  induction hps with
  | done => exact hqs
  | blank ht _ ih => exact .blank ht (ih hqs)
  | simple hx _ ih => exact .simple hx (ih hqs)
  | narrowing hgroup _ ih => exact .narrowing hgroup (ih hqs)
  | widening hcomma hblanks hgroup _ ih => exact .widening hcomma hblanks hgroup (ih hqs)

/-- A run of filters is made of parts that a selector may have behind a filter. -/
lemma Joined.parts {js : List (Joint × P)} (h : Joined engine ts js rest) :
    Parts engine true ts (js.map fun j => j.1.part j.2) true rest := by
  induction h with
  | done => exact .done
  | adjacent hblanks hgroup _ ih => exact .of_blanks hblanks (.narrowing hgroup ih)
  | comma hbefore hcomma hbehind hgroup _ ih => exact .of_blanks hbefore (.widening hcomma hbehind hgroup ih)

end Grammar

/-! ### Selectors that are read -/

namespace Machine

variable {d : Dialect P} {m : Machine P} {earlier : List (Selector P)} {filtered : Bool} {s : Selector P}
  {l : Location} {ps : List (SelectorPart P)} {start ts us rest : List Token} {t : Token}

/-- In the selectors of a rule, the rule stands in others or at the top level. -/
lemma nest_of_reaches (h : Reaches d {} start (m.inSelector earlier filtered s l) ts) :
    Nest m.control m.context m.fragments := by
  have halign := h.aligned
  obtain ⟨control, context, fragments, rules, map, warnings, last⟩ := m
  simp only [inSelector] at halign ⊢
  -- only in a selector and behind its filters, the selectors of a rule lie on top
  generalize hcontrol : (if filtered then [Mode.filter, .rule] else [.rule]) ++ control = modes at halign
  generalize hcontext : .selectors earlier s :: context = frames at halign
  cases halign with
  | nest hnest => cases hnest <;> cases hcontext
  | selectors hnest hmarkers =>
    cases hmarkers <;> cases hcontext
    cases filtered <;> cases hcontrol
    exact hnest
  | filter hnest hframes =>
    cases hframes <;> cases hcontext
    cases filtered <;> cases hcontrol
    exact hnest
  | _ => cases hcontext

/-- A brace opens the rule of the selectors that have been read. -/
lemma advance_brace (ht : t.isDelimiter "\x7b") (hempty : ∀ e ∈ earlier ++ [s], ¬ e.isEmpty)
    (hlevel : m.level < d.maxDepth) :
    advance d (m.inSelector earlier false s l) (t :: ts) =
      .ok ({ m.inside (.ofSelectors (earlier ++ [s])) m.warnings with last := t.location }, ts) := by
  have hany : (earlier ++ [s]).any Selector.isEmpty = false := by
    simpa [-List.any_append] using hempty
  have hlimit : ¬ d.maxDepth ≤ m.fragments.countP Fragment.isRule := Nat.not_le.mpr hlevel
  obtain ⟨raw, location, rfl⟩ := Token.eq_of_isDelimiter ht
  rw [advance_inSelector]
  simp [stepSelectorPart, inSelector, openRule, -List.any_append, hany, hlimit, inside, Outcome.next]

end Machine

/-- What a reader makes of the selector that ends with the filters in front of some tokens. -/
structure ReadsSelector (d : Dialect P) (start : List Token) (m : Machine P) (earlier : List (Selector P))
    (s : Selector P) (rest : List Token) : Prop where
  /-- The filters are read without a fault, and are those of one selector. -/
  behind : ∃ l, Machine.Reaches d {} start (m.inSelector earlier true s l) rest
  /-- A brace opens one rule with this selector behind the earlier ones. -/
  opens : ∀ t us, Blanks rest (t :: us) → t.isDelimiter "\x7b" → (∀ e ∈ earlier, ¬ e.isEmpty) →
    m.level < d.maxDepth → ∃ l, Machine.Reaches d {} start
      { m.inside (.ofSelectors (earlier ++ [s])) m.warnings with last := l } us
  /-- That rule is then in the stylesheet. -/
  opened : ∀ t us p, Blanks rest (t :: us) → t.isDelimiter "\x7b" → d.parseTokens start = .ok p →
    p.sheet.HasRule (earlier ++ [s])
  /-- A comma in front of something that is no filter leads to a new selector, which has no part yet. -/
  separates : ∀ t u us vs, Blanks rest (t :: us) → t.isDelimiter "," → Blanks us (u :: vs) →
    ¬ u.isWhitespace → ¬ u.isDelimiter "[" → ¬ u.isDelimiter "," →
      ∃ l, Machine.Reaches d {} start (m.inSelector (earlier ++ [s]) false {} l) (u :: vs)
  /-- The stylesheet then has a rule in which this selector is followed by what stands behind the comma. -/
  separated : ∀ t us p, Blanks rest (t :: us) → t.isDelimiter "," → ¬ FilterFollows us →
    d.parseTokens start = .ok p →
      ∃ ss vs, Selectors d.engine us ss vs ∧ p.sheet.HasRule (earlier ++ s :: ss)

namespace Machine

variable {d : Dialect P} {m : Machine P} {earlier : List (Selector P)} {ps : List (SelectorPart P)}
  {start rest : List Token} {l : Location}

lemma readsSelector (hne : ps ≠ [])
    (h : Reaches d {} start (m.inSelector earlier true (selector ps) l) rest) :
    ReadsSelector d start m earlier (selector ps) rest := by
  have haccepts : ∀ {p : Parsed P} {us : List Token}, Blanks rest us → d.parseTokens start = .ok p →
      AcceptsParts d p m earlier true ps us := by
    intro p us hblanks hp
    rw [parseTokens_eq_read, ← h.read_eq, ← accepts_iff_read] at hp
    exact (acceptsParts_blanks hblanks).mp hp
  constructor
  case behind => exact ⟨l, h⟩
  case opens =>
    intro t us hblanks ht hearlier hlevel
    obtain ⟨l₁, hbefore⟩ := reaches_blanks hblanks
    obtain ⟨l₂, hleave⟩ := reaches_leave (Token.not_isWhitespace ht) (Token.not_isDelimiter ht (by decide))
      (Token.not_isDelimiter ht (by decide))
    have hempty := not_isEmpty_concat hearlier hne
    exact ⟨t.location, h.trans (hbefore.trans (hleave.trans (.single (advance_brace ht hempty hlevel))))⟩
  case opened =>
    intro t us p hblanks ht hp
    have hparts := haccepts hblanks hp
    rw [acceptsParts_leave (Token.not_isWhitespace ht) (Token.not_isDelimiter ht (by decide))
      (Token.not_isDelimiter ht (by decide)), acceptsParts_brace ht] at hparts
    exact hasRule_of_acceptsOpened (nest_of_reaches h) hparts.2.2.2
  case separates =>
    intro t u us vs hbefore ht hbehind hblank hopen hcomma
    obtain ⟨l₁, hbefore⟩ := reaches_blanks hbefore
    obtain ⟨l₂, hbehind⟩ := reaches_behindBlanks hbehind
    exact ⟨u.location, h.trans (hbefore.trans (.head (advance_comma ht)
      (hbehind.trans (.single (advance_next hblank hopen hcomma)))))⟩
  case separated =>
    intro t us p hblanks ht hnext hp
    have hparts := haccepts hblanks hp
    rw [acceptsParts_separator (fun _ => hne) ht] at hparts
    obtain ⟨-, vs, q, ws, hbehind, hgroup, -⟩ | ⟨-, -, hparts⟩ := hparts
    · -- a filter behind the comma would have gone on with the run
      cases hgroup with
      | intro hopen => exact absurd ⟨_, _, hbehind, hopen⟩ hnext
    · obtain ⟨ss, vs, hss, -, -, hopened⟩ := exists_continues (by nofun) distinct_nil hparts
      rw [← List.append_cons] at hopened
      exact ⟨ss, vs, hss.selectors, hasRule_of_acceptsOpened (nest_of_reaches h) hopened⟩

end Machine

namespace Dialect

open Machine (Reaches)

variable {d : Dialect P} {m : Machine P} {earlier : List (Selector P)} {ps : List (SelectorPart P)}
  {q : P} {js : List (Joint × P)} {start ts us vs rest : List Token} {l : Location}

/-- Wherever a selector starts, parts without filters and a run of filters behind them are read as one selector.
Its filter is put together from left to right: a filter that follows directly makes the whole false where one
side is false, one behind a comma makes it true where one side is true, and otherwise the first failure or the
answer that is left is the outcome. A comma in front of anything but a filter starts the next selector. -/
theorem readsSelector_filterRun [Predicate P]
    (hstart : Reaches d {} start (m.inSelector earlier false {} l) ts)
    (hparts : Parts d.engine false ts ps false us) (hdistinct : Distinct ps) (hplain : (selector ps).filter = none)
    (hfirst : Group d.engine us q vs) (hjoined : Joined d.engine vs js rest) :
    ∃ f : Filter P, (∀ c, f.evaluate c =
        js.foldl (fun v j => Verdict.seek j.1.decisive [v, Predicate.evaluate j.2 c]) (Predicate.evaluate q c)) ∧
      ReadsSelector d start m earlier { selector ps with filter := some f } rest := by
  have hfirstParts : Distinct (ps ++ [.narrowing q]) := hdistinct.append_joints [(.adjacent, q)]
  have hall : Distinct (ps ++ [.narrowing q] ++ js.map fun j => j.1.part j.2) := hfirstParts.append_joints js
  have hfilter : selector (ps ++ [.narrowing q]) = { selector ps with filter := some (.predicate q) } := by
    rw [selector_narrowing, Selector.andFilter, hplain]
  have hselector : selector (ps ++ [.narrowing q] ++ js.map fun j => j.1.part j.2) =
      { selector ps with filter := some (joinAll (.predicate q) js) } := by
    rw [selector_joinAll (congrArg Selector.filter hfilter), hfilter]
  have hread : Parts d.engine false ts (ps ++ [.narrowing q] ++ js.map fun j => j.1.part j.2) true rest :=
    (hparts.append (.narrowing hfirst .done)).append hjoined.parts
  obtain ⟨l', hbehind⟩ : ∃ l', Reaches d (m.inSelector earlier false (selector []) l) ts
      (m.inSelector earlier true (selector ([] ++ (ps ++ [.narrowing q] ++ js.map fun j => j.1.part j.2))) l')
      rest := Machine.reaches_parts hread hall
  refine ⟨joinAll (.predicate q) js, fun c => evaluate_joinAll _ js c, ?_⟩
  rw [← hselector]
  exact Machine.readsSelector (by simp) (hstart.trans hbehind)

/-- A word. Where it stands is left open. -/
def word (text : String) : Token := ⟨.identifier, text, text, {}⟩

/-- A mark of punctuation. -/
def mark (text : String) : Token := ⟨.delimiter, text, text, {}⟩

/-- The tokens of `#road[lanes][lit],[bridge],.track` in front of an empty body. -/
def roadTokens : List Token :=
  [⟨.colorLiteral, "#road", "#road", {}⟩, mark "[", word "lanes", mark "]", mark "[", word "lit", mark "]",
    mark ",", mark "[", word "bridge", mark "]", mark ",", ⟨.operator, ".", ".", {}⟩, word "track",
    mark "\x7b", mark "\x7d"]

/-- Two filters narrow, the one behind the comma widens, and the comma behind that starts a class selector. -/
theorem readsSelector_roadTokens : ∃ f : Filter Presence,
    (∀ c, f.evaluate c = Verdict.seek true
      [Verdict.seek false [.ok (c "lanes").isSome, .ok (c "lit").isSome], .ok (c "bridge").isSome]) ∧
    ReadsSelector { engine := Presence.parse } roadTokens {} [] { id := some "road", filter := some f }
      (roadTokens.drop 11) := by
  have hgroup : ∀ (name : String) (rest : List Token), filterText [word name] = name → name ≠ "" →
      ' ' ∉ name.toList →
      Group Presence.parse (mark "[" :: word name :: mark "]" :: rest) ⟨name⟩ rest := by
    intro name rest htext hname hspace
    refine @Group.intro _ _ (mark "[") (mark "]") [word name] rest _ rfl ?_ rfl ?_ ?_
    · simp [bounds, word, Token.isDelimiter]
    · rwa [htext]
    · rw [htext, Presence.parse]
      simp [hspace]
  have hlanes := hgroup "lanes" (roadTokens.drop 4) (by decide) (by decide) (by decide)
  have hlit := hgroup "lit" (roadTokens.drop 7) (by decide) (by decide) (by decide)
  have hbridge := hgroup "bridge" (roadTokens.drop 11) (by decide) (by decide) (by decide)
  have hstart : Reaches { engine := Presence.parse } {} roadTokens
      (Machine.inSelector {} [] false {} {}) roadTokens := ⟨1, rfl⟩
  obtain ⟨f, hf, hread⟩ := readsSelector_filterRun hstart (.simple (.id rfl) .done)
    ⟨by decide, by decide, by decide⟩ rfl hlanes
    (.adjacent .none hlit (.comma .none rfl .none hbridge .done))
  exact ⟨f, hf, hread⟩

end Dialect

end MapStyle
