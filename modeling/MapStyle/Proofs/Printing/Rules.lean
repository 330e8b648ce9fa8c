import Mathlib.Data.List.Forall2
import MapStyle.Proofs.Printing.Selectors
import MapStyle.Proofs.Reading.Sheets

/-!
# Written rules

Rules that are written in one way only are read back from their text. What comes back differs from what
was written in the filters alone, which have become single expressions that mean the same.
-/

namespace MapStyle

open Grammar Lexeme Token
open Cql (Expr)

/-! ### Values -/

/-- A value that is written in one way only: an integer, a word, a plain colour, or a reference to an
attribute. -/
inductive Value.IsPlain : Value → Prop
  | integer (n : Int64) : IsPlain (.literal (.integer n))
  | word {s : String} (h : IsIdentifier s.toList) : IsPlain (.literal (.string s))
  | color {s : String} (h : Cql.IsPlainColor s) : IsPlain (.literal (.color s))
  | reference {name : String} (h : IsIdentifier name.toList) : IsPlain (.reference name)

lemma dropEnding_px {text : String} (h : IsNumeral text.toList) : Text.dropEnding "px" text = text := by
  have hnumeral : 'x' ∉ text.toList := by
    intro hx
    generalize text.toList = cs at h hx
    cases h with
    | plain _ hds => exact absurd (hds 'x' hx) (by decide)
    | negative _ hds =>
      rcases List.mem_cons.mp hx with hx | hx
      · cases hx
      · exact absurd (hds 'x' hx) (by decide)
  have hsuffix : ¬ "px".toList.isSuffixOf text.toList := by
    intro hsuffix
    exact hnumeral ((List.isSuffixOf_iff_suffix.mp hsuffix).subset (by simp))
  exact if_neg hsuffix

namespace Token

variable {limit : Nat} {opened : List Bracket} {rest : List Char} {Q : List Token → Prop}
  (functions : Registry)

/-- A written value in front of a text is read as one item. -/
lemma Lexes.value {v : Value} (hv : v.IsPlain) (hrest : EndsNumber rest)
    (h : Lexes limit opened (Lexeme.ofText rest) Q) :
    Lexes limit opened (Lexeme.ofText (v.display.toList ++ rest)) fun ts =>
      ∃ us, Item functions ts v [] us ∧ Q us := by
  cases hv with
  | integer n =>  -- a numeral is read back as its number, without a warning
    have hnumeral := Literal.isNumeral_toString n.toInt
    have hread : Literal.parseNumber? (Text.dropEnding "px" (toString n.toInt)) = some (.integer n) :=
      (dropEnding_px hnumeral).symm ▸ Literal.parseNumber?_display n
    change Lexes limit opened (Lexeme.ofText ((toString n.toInt).toList ++ rest)) _
    rw [ofText_numeral hnumeral hrest]
    refine .inner rfl rfl h ?_
    intro here ts hQ
    have hatom (t : Token) (ht : t.kind = .number) (htext : t.text = toString n.toInt) :
        Atom (t :: ts) (.literal (.integer n)) [] ts := by
      have hliteral : t.numberLiteral = .integer n := by rw [numberLiteral, htext, hread]; rfl
      have hwarnings : t.numberWarnings = [] := by rw [numberWarnings, htext, hread]; rfl
      have hnumber : Atom (t :: ts) _ _ ts := .number ht
      rwa [hliteral, hwarnings] at hnumber
    exact ⟨ts, .atom (hatom _ rfl String.ofList_toList), hQ⟩
  | word hs =>
    refine (h.word hs hrest.endsName).imp ?_
    rintro _ ⟨raw, here, ts, rfl, hQ⟩
    exact ⟨ts, .atom (.word (.inl rfl)), hQ⟩
  | @color s hs =>  -- the sign is in the text of a color, and what follows it is one name
    obtain ⟨w, hw, hident⟩ := hs
    have hhash := h.hash (n := String.ofList w) (String.toList_ofList.symm ▸ hident) hrest.endsName
    rw [String.toList_ofList, ← List.cons_append, ← hw] at hhash
    refine hhash.imp ?_
    rintro _ ⟨raw, here, ts, rfl, hQ⟩
    rw [String.ofList_toList]
    exact ⟨ts, .atom (.color rfl), hQ⟩
  | @reference name hname =>
    have hword := (h.closes .square).word hname (endsName_cons.mpr rfl)
    have htext : (Value.reference name).display.toList ++ rest =
        '[' :: (name.toList ++ ']' :: rest) := by
      simp [Value.display]
    rw [htext]
    refine (Lexes.opens .square fun _ => hword).imp ?_
    rintro _ ⟨-, here, _, rfl, raw, here', _, rfl, here'', us, rfl, hQ⟩
    exact ⟨us, .atom (.reference (.intro rfl .none (.inl rfl) .none rfl)), hQ⟩

lemma startsVisibly_value {v : Value} (hv : v.IsPlain) : StartsVisibly v.display.toList := by
  cases hv with
  | integer n => exact (Literal.isNumeral_toString n.toInt).startsVisibly
  | word hs => exact hs.startsVisibly
  | color hs =>
    obtain ⟨w, hw, -⟩ := hs
    exact ⟨'#', w, hw, by decide⟩
  | @reference name => exact ⟨'[', name.toList ++ [']'], by simp [Value.display], by decide⟩

/-- A written declaration in front of a text is read before the text. -/
lemma Lexes.declaration {key : String} {v : Value} (hkey : IsIdentifier key.toList) (hv : v.IsPlain)
    (h : Lexes limit opened (Lexeme.ofText rest) Q) :
    Lexes limit opened
      (Lexeme.ofText (key.toList ++ ':' :: ' ' :: (v.display.toList ++ ';' :: rest))) fun ts =>
      ∃ us, Grammar.Declaration functions ts key v [] us ∧ Q us := by
  have hvalue := (h.punctuation (.inr (.inr rfl))).value functions hv (endsNumber_cons.mpr rfl)
  have hblank := hvalue.blank ((startsVisibly_value hv).append _)
  refine ((hblank.punctuation (.inl rfl)).word hkey (endsName_cons.mpr rfl)).imp ?_
  rintro _ ⟨raw, here, _, rfl, here', _, rfl, t, _, rfl, ht, _, hitem, here'', us, rfl, hQ⟩
  exact ⟨us, .intro rfl .none rfl (.more ht .none) hitem .done (.semicolon rfl) .single, hQ⟩

end Token

/-! ### Rules -/

namespace DuplicateKeys

/-- Keys that are not declared yet are added at the end under either policy. -/
lemma entries_declareAll (policy : DuplicateKeys) (decls : List (String × Value)) (p : Properties)
    (h : ((p.entries ++ decls).map (·.1)).Nodup) :
    (policy.declareAll decls p).entries = p.entries ++ decls := by
  induction decls generalizing p with
  | nil => simp [declareAll]
  | cons e decls ih =>
    have hnew : e.1 ∉ p.entries.map (·.1) := by
      rw [List.map_append, List.nodup_append] at h
      exact fun he => h.2.2 e.1 he e.1 (by simp) rfl
    have hdeclare : (policy.declare e.1 e.2 p).entries = p.entries ++ [e] := by
      cases policy <;> exact Properties.alter_of_notMem hnew
    change (policy.declareAll decls (policy.declare e.1 e.2 p)).entries = _
    rw [ih _ (by simpa [hdeclare] using h), hdeclare, List.append_assoc, List.singleton_append]

/-- The declarations of a property map make it up under either policy. -/
lemma gathers_entries (policy : DuplicateKeys) (p : Properties) : policy.Gathers p.entries p :=
  gathers_iff.mpr (Properties.ext (entries_declareAll policy p.entries {} p.nodup)).symm

end DuplicateKeys

namespace Rule

/-- A rule that is written in one way only: it has selectors and all are plain, its properties are
plain, and no nested rule starts with a name, which would be a key. -/
inductive IsPlain : Rule Expr → Prop
  | intro {r : Rule Expr} (hne : r.selectors ≠ []) (hselectors : ∀ s ∈ r.selectors, s.IsPlain)
      (hproperties : ∀ e ∈ r.properties.entries, IsIdentifier e.1.toList ∧ e.2.IsPlain)
      (hnested : ∀ u ∈ r.nested, IsPlain u)
      (hnames : ∀ u ∈ r.nested, ∀ s ∈ u.selectors.head?, s.name = none) : IsPlain r

/-- A rule whose selectors stay apart when they are written side by side, with the rules nested in
it. -/
inductive Apart : Rule Expr → Prop
  | intro {r : Rule Expr} (hselectors : r.selectors.IsChain Selector.Separate)
      (hnested : ∀ u ∈ r.nested, Apart u) : Apart r

mutual

/-- The rule as it is read back. -/
def reread : Rule Expr → Rule Expr
  | ⟨_, _, selectors, properties, nested⟩ =>
    .ofSelectors (selectors.map Selector.reread) properties (rereadList nested)

/-- The rules of a list as they are read back. -/
def rereadList : List (Rule Expr) → List (Rule Expr)
  | [] => []
  | r :: rs => reread r :: rereadList rs

end

/-- The lines of some properties at a given indentation. -/
def linesText (indent : List Char) (entries : List (String × Value)) : List Char :=
  entries.flatMap fun e => indent ++ (e.1.toList ++ ':' :: ' ' :: (e.2.display.toList ++ [';', '\n']))

/-- The text of a rule at a given indentation, without the indentation of its first line. -/
def text (indent : String) (r : Rule Expr) : List Char :=
  selectorsText r.selectors ('\n' :: (linesText (indent ++ "  ").toList r.properties.entries ++
    ((displayListAt (indent ++ "  ") r.nested).toList ++ (indent.toList ++ ['\x7d', '\n']))))

lemma toList_displayAt (indent : String) (r : Rule Expr) :
    (r.displayAt indent).toList = indent.toList ++ r.text indent := by
  obtain ⟨name, kind, selectors, properties, nested⟩ := r
  have hlines : (displayProperties (indent ++ "  ") properties).toList =
      linesText (indent ++ "  ").toList properties.entries := by
    simp [displayProperties, linesText, String.toList_join, List.flatMap_map]
  simp [displayAt, text, selectorsText, hlines]

lemma rereadList_eq_map (rs : List (Rule Expr)) : rereadList rs = rs.map reread := by
  induction rs with
  | nil => rfl
  | cons r rs ih => rw [rereadList, ih, List.map_cons]

lemma IsPlain.startsVisibly {r : Rule Expr} (h : r.IsPlain) (indent : String) :
    StartsVisibly (r.text indent) := by
  cases h with
  | intro hne hselectors =>
    obtain ⟨s, ss, hss⟩ := List.exists_cons_of_ne_nil hne
    rw [text, hss]
    exact startsVisibly_selectorsText (hselectors s (hss ▸ List.mem_cons_self)) ss

lemma reread_eq (r : Rule Expr) : r.reread =
    .ofSelectors (r.selectors.map Selector.reread) r.properties (r.nested.map reread) := by
  obtain ⟨name, kind, selectors, properties, nested⟩ := r
  rw [reread, rereadList_eq_map]

lemma selectors_reread (r : Rule Expr) : r.reread.selectors = r.selectors.map Selector.reread := by
  rw [reread_eq, selectors_ofSelectors]

lemma properties_reread (r : Rule Expr) : r.reread.properties = r.properties := by
  rw [reread_eq, properties_ofSelectors]

lemma nested_reread (r : Rule Expr) : r.reread.nested = r.nested.map reread := by
  rw [reread_eq, nested_ofSelectors]

lemma isTitled_reread (r : Rule Expr) : r.reread.IsTitled := by
  rw [reread_eq]
  exact isTitled_ofSelectors ..

/-- What is read back is the rule that its selectors and its properties make up. -/
lemma isRule_reread (r : Rule Expr) (policy : DuplicateKeys) :
    IsRule policy r.reread.selectors r.properties.entries r.reread.nested r.reread where
  titled := r.isTitled_reread
  selectors_eq := rfl
  gathers := r.properties_reread.symm ▸ policy.gathers_entries r.properties
  nested_eq := rfl

mutual

/-- Rules are nested as deep as before when they are read back. -/
lemma depth_reread : ∀ r : Rule Expr, r.reread.depth = r.depth
  | ⟨_, _, _, _, nested⟩ => depthList_rereadList nested

lemma depthList_rereadList : ∀ rs : List (Rule Expr), depthList (rereadList rs) = depthList rs
  | [] => rfl
  | r :: rs => by
    rw [rereadList, depthList, depthList, depth_reread r, depthList_rereadList rs]

end

/-- What is known of the tokens of a written rule: they start with a token of its first selector, and
are its selectors and its body. Rules are not nested too deep in it. -/
structure Reads (d : Dialect Expr) (opened : List Bracket) (r : Rule Expr) (ts us : List Token) :
    Prop where
  depth : opened.length + r.depth < d.maxDepth
  intro : ∃ s t ts' vs, s ∈ r.selectors.head? ∧ ts = t :: ts' ∧ s.Opens t ∧
    Selectors d.engine (t :: ts') r.reread.selectors vs ∧
      Body d vs r.properties.entries r.reread.nested [] us

/-- The text of a rule is read as the rule, whatever the indentation is and whatever follows. -/
def IsReadBack (d : Dialect Expr) (r : Rule Expr) : Prop :=
  ∀ (indent : String) (opened : List Bracket) (rest : List Char) (Q : List Token → Prop),
    (∀ c ∈ indent.toList, isSpace c) → BehindBlanks d.maxDepth opened rest Q →
      Lexes d.maxDepth opened (Lexeme.ofText (r.text indent ++ rest)) fun ts =>
        ∃ us, r.Reads d opened ts us ∧ Q us

end Rule

namespace Token

variable {d : Dialect Expr} {opened : List Bracket} {rest : List Char} {Q : List Token → Prop}

/-- The lines of some properties in front of a block are read as declarations. -/
lemma BehindBlanks.lines {indent : List Char} {entries : List (String × Value)} {rs : List (Rule Expr)}
    (hindent : ∀ c ∈ indent, isSpace c)
    (hentries : ∀ e ∈ entries, IsIdentifier e.1.toList ∧ e.2.IsPlain)
    (h : BehindBlanks d.maxDepth opened rest fun ts => ∃ us, Body d ts [] rs [] us ∧ Q us) :
    BehindBlanks d.maxDepth opened (Rule.linesText indent entries ++ rest) fun ts =>
      ∃ us, Body d ts entries rs [] us ∧ Q us := by
  induction entries with
  | nil => exact h
  | cons e entries ih =>
    obtain ⟨⟨hkey, hvalue⟩, hentries⟩ := List.forall_mem_cons.mp hentries
    have htext : Rule.linesText indent (e :: entries) ++ rest = indent ++ (e.1.toList ++ ':' :: ' ' ::
        (e.2.display.toList ++ ';' :: ('\n' :: (Rule.linesText indent entries ++ rest)))) := by
      simp [Rule.linesText]
    have hmore := ih hentries ['\n'] (List.forall_mem_singleton.mpr rfl)
    have hline := hmore.declaration d.functions hkey hvalue
    rw [htext]
    refine (Lexes.behindBlanks (hline.imp ?_) ?_ ?_).append hindent
    · rintro ts ⟨us, hdecl, vs, hbody, hQ⟩
      exact ⟨vs, .declaration hdecl hbody, hQ⟩
    · exact (hkey.startsVisibly.append _).not_isSpace
    · rintro t ts ht ⟨us, hbody, hQ⟩
      exact ⟨us, .blank (.inl ht) hbody, hQ⟩

/-- Written rules in front of the end of a block are read as its nested rules. -/
lemma BehindBlanks.nested {indent : String} {rs : List (Rule Expr)}
    (hindent : ∀ c ∈ indent.toList, isSpace c) (hplain : ∀ r ∈ rs, r.IsPlain)
    (hread : ∀ r ∈ rs, r.IsReadBack d) (hnames : ∀ r ∈ rs, ∀ s ∈ r.selectors.head?, s.name = none)
    (hlimit : opened.length ≤ d.maxDepth)
    (h : BehindBlanks d.maxDepth opened rest fun ts => ∃ us, Body d ts [] [] [] us ∧ Q us) :
    BehindBlanks d.maxDepth opened ((Rule.displayListAt indent rs).toList ++ rest) fun ts =>
      ∃ us, Body d ts [] (Rule.rereadList rs) [] us ∧
        opened.length + Rule.depthList rs ≤ d.maxDepth ∧ Q us := by
  induction rs with
  | nil =>  -- no rules are left: what is behind them ends the body
    refine h.imp ?_
    rintro ts ⟨us, hbody, hQ⟩
    exact ⟨us, hbody, hlimit, hQ⟩
  | cons r rs ih =>
    obtain ⟨hr, hrs⟩ := List.forall_mem_cons.mp hplain
    obtain ⟨hread, hreads⟩ := List.forall_mem_cons.mp hread
    obtain ⟨hname, hnames⟩ := List.forall_mem_cons.mp hnames
    have hrule := hread indent opened _ _ hindent (ih hrs hreads hnames)
    rw [Rule.displayListAt, String.toList_append, Rule.toList_displayAt, List.append_assoc,
      List.append_assoc]
    refine (Lexes.behindBlanks (hrule.imp ?_) ?_ ?_).append hindent
    · -- with an identifier in front, the nested rule would be a declaration
      rintro _ ⟨_, ⟨hdepth, s, t, ts, vs, hs, rfl, hopens, hselectors, hinner⟩, us, hbody, hdepths, hQ⟩
      have hkey : t.kind ≠ .identifier := by
        intro hkind
        have hnone := hname s hs
        rw [hopens.name hkind] at hnone
        cases hnone
      refine ⟨us, ?_, ?_, hQ⟩
      · rw [Rule.rereadList]
        exact .rule hopens.starts hkey hselectors hinner (r.isRule_reread d.duplicateKeys) hbody
      · rw [Rule.depthList]
        omega
    · exact ((hr.startsVisibly indent).append _).not_isSpace
    · rintro t ts ht ⟨us, hbody, hQ⟩
      exact ⟨us, .blank (.inl ht) hbody, hQ⟩

end Token

/-- A rule that is written in one way only is read back. -/
lemma Rule.IsPlain.isReadBack {d : Dialect Expr} (hengine : d.engine = Expr.parse) {r : Rule Expr}
    (h : r.IsPlain) (hapart : r.Apart) : r.IsReadBack d := by
  induction h with
  | @intro r hne hselectors hproperties hnested hnames ih =>
    obtain ⟨name, kind, selectors, properties, nested⟩ := r
    intro indent opened rest Q hindent h
    obtain ⟨hseparate, hnestedApart⟩ := hapart
    have hread : ∀ u ∈ nested, u.IsReadBack d := fun u hu => ih u hu (hnestedApart u hu)
    obtain ⟨s, ss, rfl⟩ := List.exists_cons_of_ne_nil hne
    have hindent' : ∀ c ∈ (indent ++ "  ").toList, isSpace c := by
      rw [String.toList_append]
      exact List.forall_mem_append.mpr
        ⟨hindent, List.forall_mem_cons.mpr ⟨rfl, List.forall_mem_singleton.mpr rfl⟩⟩
    -- the brace of the rule, behind the blanks that end its last line
    have hclose : BehindBlanks d.maxDepth (.curly :: opened) ('\x7d' :: '\n' :: rest) fun ts =>
        ∃ us, Body d ts [] [] [] us ∧ Q us := by
      refine (((h ['\n'] (List.forall_mem_singleton.mpr rfl)).closes .curly).imp ?_).behindBlanks ?_ ?_
      · rintro _ ⟨here, us, rfl, hQ⟩
        exact ⟨us, .done rfl, hQ⟩
      · rintro c ⟨⟩
        decide
      · rintro t ts ht ⟨us, hbody, hQ⟩
        exact ⟨us, .blank (.inl ht) hbody, hQ⟩
    have hbody (hlimit : (Bracket.curly :: opened).length ≤ d.maxDepth) :=
      (((hclose.append hindent).nested hindent' hnested hread hnames hlimit).lines hindent'
        hproperties) ['\n'] (List.forall_mem_singleton.mpr rfl)
    have htext : Rule.text indent ⟨name, kind, s :: ss, properties, nested⟩ ++ rest = selectorsText (s :: ss)
        (['\n'] ++ (linesText (indent ++ "  ").toList properties.entries ++
          ((displayListAt (indent ++ "  ") nested).toList ++
            (indent.toList ++ '\x7d' :: '\n' :: rest)))) := by
      simp [Rule.text, selectorsText_append]
    rw [htext]
    refine (Lexes.selectors hselectors hseparate hbody).imp ?_
    rintro _ ⟨-, t, ts, vs, rfl, hopens, htokens, us, hbody, hdepth, hQ⟩
    refine ⟨us, ⟨?_, s, t, ts, vs, rfl, rfl, hopens, hengine ▸ htokens, hbody⟩, hQ⟩
    -- the rule is as deep as its nested rules and its own brace
    change opened.length + depthList nested < d.maxDepth
    change opened.length + 1 + depthList nested ≤ d.maxDepth at hdepth
    omega

/-! ### What comes back -/

/-- Two selectors that differ in their filters at most, and these say the same of every candidate. -/
structure Selector.Alike (s t : Selector Expr) : Prop where
  name : s.name = t.name
  id : s.id = t.id
  classes : s.classes = t.classes
  wildcard : s.wildcard = t.wildcard
  attachment : s.attachment = t.attachment
  filter : Option.Rel (fun f g => ∀ c, f.evaluate c = g.evaluate c) s.filter t.filter

/-- Two rules that differ in the filters of their selectors at most, and these say the same of every
candidate; and the same for the rules nested in them, one by one. The name and the kind of the second one
agree with its selectors, and so they are those of the first one if that agrees with its own. -/
inductive Rule.Alike : Rule Expr → Rule Expr → Prop
  | intro {r u : Rule Expr} (htitled : u.IsTitled) (hname : r.IsTitled → r.name = u.name)
      (hkind : r.IsTitled → r.kind = u.kind)
      (hselectors : List.Forall₂ Selector.Alike r.selectors u.selectors)
      (hproperties : r.properties = u.properties)
      (hnested : List.Forall₂ Rule.Alike r.nested u.nested) : Alike r u

lemma Selector.IsPlain.alike_reread {s : Selector Expr} (h : s.IsPlain) : s.Alike s.reread := by
  refine ⟨rfl, rfl, rfl, rfl, rfl, ?_⟩
  have hfilter := h.filter
  rw [reread]
  cases hf : s.filter with
  | none => exact .none
  | some f => exact .some fun c => ((hfilter f hf).evaluate_test c).symm

/-- Selectors that are read back make a rule of the same name and of the same kind. -/
lemma Rule.firstName_reread (ss : List (Selector Expr)) :
    firstName (ss.map Selector.reread) = firstName ss := by
  rw [firstName, List.findSome?_map]
  rfl

lemma Rule.kindOf_reread (ss : List (Selector Expr)) :
    kindOf (ss.map Selector.reread) = kindOf ss := by
  rw [kindOf, firstName_reread, List.any_map]
  rfl

lemma Rule.IsPlain.alike_reread {r : Rule Expr} (h : r.IsPlain) : r.Alike r.reread := by
  induction h with
  | @intro r hne hselectors hproperties hnested hnames ih =>
    refine .intro r.isTitled_reread ?_ ?_ ?_ r.properties_reread.symm ?_
    · intro htitled
      rw [((isTitled_iff r).mp htitled).1, ((isTitled_iff _).mp r.isTitled_reread).1,
        selectors_reread, firstName_reread]
    · intro htitled
      rw [((isTitled_iff r).mp htitled).2, ((isTitled_iff _).mp r.isTitled_reread).2,
        selectors_reread, kindOf_reread]
    · rw [selectors_reread, List.forall₂_map_right_iff, List.forall₂_same]
      exact fun s hs => (hselectors s hs).alike_reread
    · rw [nested_reread, List.forall₂_map_right_iff, List.forall₂_same]
      exact ih

/-! ### Stylesheets -/

/-- The text of some rules is read as a stylesheet without `Map` blocks. -/
lemma Token.behindBlanks_sheet {d : Dialect Expr} (hengine : d.engine = Expr.parse)
    {rs : List (Rule Expr)} (hplain : ∀ r ∈ rs, r.IsPlain) (hapart : ∀ r ∈ rs, r.Apart)
    (hmap : ∀ r ∈ rs, ∀ s ∈ r.selectors.head?, ∀ n ∈ s.name, ¬ Text.sameWord n "map") :
    BehindBlanks d.maxDepth [] (rs.flatMap fun r => r.text "") fun ts =>
      Stylesheet d ts (rs.map Rule.reread) [] [] ∧ ∀ r ∈ rs, r.depth < d.maxDepth := by
  induction rs with
  | nil =>
    have hnil : Lexes d.maxDepth [] (Lexeme.ofText []) fun ts =>
        Stylesheet d ts [] [] [] ∧ ∀ r ∈ ([] : List (Rule Expr)), r.depth < d.maxDepth := by
      rw [Lexeme.ofText]
      exact .nil ⟨.done, List.forall_mem_nil _⟩
    refine hnil.behindBlanks (by rintro _ ⟨⟩) ?_
    rintro t ts ht ⟨hsheet, hdepth⟩
    exact ⟨.blank ht hsheet, hdepth⟩
  | cons r rs ih =>
    obtain ⟨hr, hrs⟩ := List.forall_mem_cons.mp hplain
    obtain ⟨hapart, haparts⟩ := List.forall_mem_cons.mp hapart
    obtain ⟨hmap, hmaps⟩ := List.forall_mem_cons.mp hmap
    have hrule := hr.isReadBack hengine hapart "" [] _ _ (List.forall_mem_nil _) (ih hrs haparts hmaps)
    rw [List.flatMap_cons]
    refine (hrule.imp ?_).behindBlanks ?_ ?_
    · -- the first token of the rule is not the word that starts a `Map` block
      rintro _ ⟨us, ⟨hdepth, s, t, ts, vs, hs, rfl, hopens, hselectors, hbody⟩, hsheet, hdepths⟩
      have hkeyword : ¬ t.isKeyword "map" := by
        intro hkeyword
        rw [isKeyword, Bool.and_eq_true, beq_iff_eq] at hkeyword
        exact hmap s hs t.text (hopens.name hkeyword.1) hkeyword.2
      refine ⟨?_, List.forall_mem_cons.mpr ⟨by simpa using hdepth, hdepths⟩⟩
      rw [List.map_cons]
      exact .rule hopens.starts hkeyword hselectors hbody (r.isRule_reread d.duplicateKeys) hsheet
    · exact ((hr.startsVisibly "").append _).not_isSpace
    · rintro t ts ht ⟨hsheet, hdepth⟩
      exact ⟨.blank ht hsheet, hdepth⟩

lemma toList_join_display (rs : List (Rule Expr)) :
    (String.join (rs.map Rule.display)).toList = rs.flatMap fun r => r.text "" := by
  rw [String.toList_join, List.flatMap_map]
  refine congrArg (List.flatMap · rs) (funext fun r => ?_)
  rw [Rule.display, Rule.toList_displayAt]
  rfl

/-- Plainly written rules come back from their text, in order and without warnings. -/
theorem Dialect.parse_display (d : Dialect Expr) (hengine : d.engine = Expr.parse)
    {rs : List (Rule Expr)} (hplain : ∀ r ∈ rs, r.IsPlain) (hapart : ∀ r ∈ rs, r.Apart)
    (hmap : ∀ r ∈ rs, ∀ s ∈ r.selectors.head?, ∀ n ∈ s.name, ¬ Text.sameWord n "map")
    (hnesting :
      Lexeme.nesting 0 (Lexeme.ofText (String.join (rs.map Rule.display)).toList) ≤ d.maxDepth) :
    ∃ rs', d.parse (String.join (rs.map Rule.display)) = .ok ⟨{ rules := rs' }, []⟩ ∧
      List.Forall₂ Rule.Alike rs rs' := by
  refine ⟨rs.map Rule.reread, ?_, ?_⟩
  · have hlexes := Token.behindBlanks_sheet hengine hplain hapart hmap [] nofun
    rw [List.nil_append, ← toList_join_display] at hlexes
    obtain ⟨ts, hts, hsheet, hdepth⟩ := hlexes hnesting {}
    have hdepth' : ∀ r ∈ rs.map Rule.reread, r.depth < d.maxDepth := by
      rw [List.forall_mem_map]
      exact fun r hr => (Rule.depth_reread r).symm ▸ hdepth r hr
    rw [Dialect.parse, Token.ofText, hts]
    exact (Machine.parseTokens_eq_read d ts).trans
      (Machine.acceptsTop_iff.mpr ⟨_, [], [], hsheet, hdepth', rfl⟩)
  · rw [List.forall₂_map_right_iff, List.forall₂_same]
    exact fun r hr => (hplain r hr).alike_reread

namespace Rule

/-- A rule with a filter, with values of several kinds and with a rule in it. -/
def road : Rule Expr :=
  .ofSelectors
    [{ name := some "road"
       filter := some (.any [.predicate (.compare (.reference "lanes") .ge (.literal (.integer 2))),
         .predicate (.not (.isNull (.reference "ref") false))]) }]
    ⟨[("width", .literal (.integer 3)), ("fill", .literal (.color "#fff"))], by decide⟩
    [.ofSelectors [{ classes := ["minor"], attachment := some "glow" }]
      ⟨[("dash", .reference "pattern")], by decide⟩]

/-- A rule with two selectors of which the first ends with a filter and the second is nothing else. -/
def twoFilters : Rule Expr :=
  .ofSelectors
    [{ id := some "a"
       filter := some (.predicate (.compare (.reference "x") .eq (.literal (.integer 1)))) },
     { filter := some (.predicate (.compare (.reference "y") .eq (.literal (.integer 2)))) }]
    ⟨[("w", .literal (.integer 1))], by decide⟩

/-- A rule whose name is not one of its selectors. -/
def misnamed : Rule Expr :=
  ⟨some "old", .named, [{ id := some "a" }], {}, []⟩

lemma isPlain_road : road.IsPlain := by
  have hfilter : (Filter.any [.predicate (.compare (.reference "lanes") .ge (.literal (.integer 2))),
      .predicate (.not (.isNull (.reference "ref") false))]).IsPlain := by
    refine .any ?_ nofun
    rintro _ (_ | ⟨_, _ | ⟨_, ⟨⟩⟩⟩)
    · exact .predicate (.compare .ge (.reference (by decide) (by decide +kernel)) (.integer 2))
    · exact .predicate (.not (.isNull false (.reference (by decide) (by decide +kernel))))
  refine .intro nofun ?_ ?_ ?_ ?_
  · rintro _ (_ | ⟨_, ⟨⟩⟩)
    refine ⟨?_, nofun, nofun, .nil, ?_, nofun, nofun⟩
    · rintro _ ⟨⟩
      decide
    · rintro _ ⟨⟩
      exact hfilter
  · rintro _ (_ | ⟨_, _ | ⟨_, ⟨⟩⟩⟩)
    · exact ⟨by decide, .integer 3⟩
    · exact ⟨by decide, .color ⟨['f', 'f', 'f'], rfl, by decide⟩⟩
  · rintro _ (_ | ⟨_, ⟨⟩⟩)
    refine .intro nofun ?_ ?_ nofun nofun
    · rintro _ (_ | ⟨_, ⟨⟩⟩)
      refine ⟨nofun, nofun, ?_, by decide, nofun, ?_, nofun⟩
      · rintro _ (_ | ⟨_, ⟨⟩⟩)
        decide
      · rintro _ ⟨⟩
        decide
    · rintro _ (_ | ⟨_, ⟨⟩⟩)
      exact ⟨by decide, .reference (by decide)⟩
  · rintro _ (_ | ⟨_, ⟨⟩⟩) _ ⟨⟩
    rfl

lemma isPlain_twoFilters : twoFilters.IsPlain := by
  refine .intro nofun ?_ ?_ nofun nofun
  · rintro _ (_ | ⟨_, _ | ⟨_, ⟨⟩⟩⟩)
    · refine ⟨nofun, ?_, nofun, .nil, ?_, nofun, nofun⟩
      · rintro _ ⟨⟩
        decide
      · rintro _ ⟨⟩
        exact .predicate (.compare .eq (.reference (by decide) (by decide +kernel)) (.integer 1))
    · refine ⟨nofun, nofun, nofun, .nil, ?_, nofun, nofun⟩
      rintro _ ⟨⟩
      exact .predicate (.compare .eq (.reference (by decide) (by decide +kernel)) (.integer 2))
  · rintro _ (_ | ⟨_, ⟨⟩⟩)
    exact ⟨by decide, .integer 1⟩

lemma isPlain_misnamed : misnamed.IsPlain := by
  refine .intro nofun ?_ nofun nofun nofun
  rintro _ (_ | ⟨_, ⟨⟩⟩)
  refine ⟨nofun, ?_, nofun, .nil, nofun, nofun, nofun⟩
  rintro _ ⟨⟩
  decide

end Rule

/-- A rule with a nested rule, a filter and values of each kind comes back. -/
theorem Dialect.parse_display_road :
    ∃ rs', Dialect.parse { engine := Expr.parse } (String.join ([Rule.road].map Rule.display)) =
      .ok ⟨{ rules := rs' }, []⟩ ∧ List.Forall₂ Rule.Alike [Rule.road] rs' := by
  refine Dialect.parse_display _ rfl ?_ ?_ ?_ (by decide +kernel)
  · rintro _ (_ | ⟨_, ⟨⟩⟩)
    exact Rule.isPlain_road
  · rintro _ (_ | ⟨_, ⟨⟩⟩)
    refine .intro (.singleton _) ?_
    rintro _ (_ | ⟨_, ⟨⟩⟩)
    exact .intro (.singleton _) nofun
  · rintro _ (_ | ⟨_, ⟨⟩⟩) _ ⟨⟩ _ ⟨⟩
    decide +kernel

/-- Without the condition that selectors stay apart, rules may come back with fewer selectors: the comma
between two filters widens the filter of one selector. And a rule whose name is not that of its selectors
comes back with another name. -/
theorem Dialect.exists_not_alike_parse_display :
    (∃ rs : List (Rule Expr), (∀ r ∈ rs, r.IsPlain) ∧
      (∀ r ∈ rs, ∀ s ∈ r.selectors.head?, ∀ n ∈ s.name, ¬ Text.sameWord n "map") ∧
      Lexeme.nesting 0 (Lexeme.ofText (String.join (rs.map Rule.display)).toList) ≤ 64 ∧
      ¬ ∃ rs', Dialect.parse { engine := Expr.parse } (String.join (rs.map Rule.display)) =
        .ok ⟨{ rules := rs' }, []⟩ ∧ List.Forall₂ Rule.Alike rs rs') ∧
    ∃ r : Rule Expr, r.IsPlain ∧ r.Apart ∧
      (∀ s ∈ r.selectors.head?, ∀ n ∈ s.name, ¬ Text.sameWord n "map") ∧
      ∃ p : Parsed Expr, Dialect.parse { engine := Expr.parse } r.display = .ok p ∧
        p.sheet.rules.map (·.name) ≠ [r.name] := by
  refine ⟨⟨[Rule.twoFilters], ?_, ?_, by decide +kernel, ?_⟩, Rule.misnamed, Rule.isPlain_misnamed,
    .intro (.singleton _) nofun, ?_, ?_⟩
  · rintro _ (_ | ⟨_, ⟨⟩⟩)
    exact Rule.isPlain_twoFilters
  · rintro _ (_ | ⟨_, ⟨⟩⟩) _ ⟨⟩
    nofun
  · -- the text has one selector of two filters, where the rule has two selectors
    rintro ⟨rs', hparse, halike⟩
    have hlengths : (Dialect.parse { engine := Expr.parse }
        (String.join ([Rule.twoFilters].map Rule.display))).map
          (fun p => p.sheet.rules.map (·.selectors.length)) = .ok [1] := by decide +kernel
    rw [hparse] at hlengths
    obtain ⟨r, us, hr, -, rfl⟩ := List.forall₂_cons_left_iff.mp halike
    have hone : r.selectors.length = 1 := (List.cons.inj (Except.ok.inj hlengths)).1
    cases hr with
    | intro _ _ _ hselectors =>
      have htwo : 2 = r.selectors.length := hselectors.length_eq
      omega
  · rintro _ ⟨⟩
    nofun
  · -- the text has a selector without a name, so that the rule read from it has none
    have hnames : (Dialect.parse { engine := Expr.parse } Rule.misnamed.display).map
        (fun p => p.sheet.rules.map (·.name)) = .ok [none] := by decide +kernel
    cases hp : Dialect.parse { engine := Expr.parse } Rule.misnamed.display with
    | error e =>
      rw [hp] at hnames
      cases hnames
    | ok p =>
      rw [hp] at hnames
      have hname : p.sheet.rules.map (·.name) = [none] := Except.ok.inj hnames
      exact ⟨p, rfl, hname ▸ by decide⟩

end MapStyle
