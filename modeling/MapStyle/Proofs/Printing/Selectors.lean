import Mathlib.Data.List.Chain
import MapStyle.Proofs.Printing.Tokens
import MapStyle.Proofs.Reading.Selectors

/-!
# Written selectors

A selector is written part by part, and each part is read back as what it says. The brackets of a
filter are the exception: if they stand alone behind the filter of the selector before them, the comma
between the two does not separate selectors. Selectors that are not next to each other in that way come
back one by one, each with its filter as a single expression.
-/

namespace MapStyle

open Grammar Lexeme Token
open Cql (Expr)

/-! ### Written parts -/

namespace Grammar.SelectorPart

/-- Some characters are what a part of a selector is written as. -/
inductive WrittenAs : SelectorPart Expr → List Char → Prop
  | name {n : String} (h : IsIdentifier n.toList) : WrittenAs (.name n) n.toList
  | id {i : String} (h : IsIdentifier i.toList) : WrittenAs (.id i) ('#' :: i.toList)
  | className {c : String} (h : IsIdentifier c.toList) : WrittenAs (.className c) ('.' :: c.toList)
  | wildcard : WrittenAs .wildcard ['*']
  | filter {f : Filter Expr} (h : f.IsPlain) :
      WrittenAs (.narrowing f.test.expr) ('[' :: (f.display.toList ++ [']']))
  | attachment {a : String} (h : IsIdentifier a.toList) :
      WrittenAs (.attachment a) (':' :: ':' :: a.toList)

/-- Whether a part is a filter. -/
def isFilter {P : Type} : SelectorPart P → Bool
  | .narrowing _ | .widening _ => true
  | _ => false

/-- The token that a part starts with. -/
def StartsWith {P : Type} (t : Token) : SelectorPart P → Prop
  | .name n => t.kind = .identifier ∧ t.text = n
  | .id _ => t.kind = .colorLiteral
  | .className _ => t.isOperator "."
  | .wildcard => t.isOperator "*"
  | .narrowing _ | .widening _ => t.isDelimiter "["
  | .attachment _ => t.isDelimiter ":"

end Grammar.SelectorPart

lemma Grammar.SelectorPart.WrittenAs.startsVisibly {x : SelectorPart Expr} {w : List Char}
    (h : x.WrittenAs w) : StartsVisibly w := by
  cases h with
  | name hn => exact hn.startsVisibly
  | _ => exact ⟨_, _, rfl, by decide⟩

/-- A character that may stand behind a part of a selector. -/
def Lexeme.endsPart (c : Char) : Bool :=
  ['#', '.', '*', '[', ':', ',', ' '].contains c

/-- A text before which a part of a selector ends. -/
def Lexeme.EndsPart (cs : List Char) : Prop :=
  ∀ c ∈ cs.head?, endsPart c

namespace Lexeme.EndsPart

variable {rest : List Char}

lemma of_mem {c : Char} (h : ∀ c ∈ rest.head?, endsPart c) (hc : c ∈ rest.head?) :
    c = '#' ∨ c = '.' ∨ c = '*' ∨ c = '[' ∨ c = ':' ∨ c = ',' ∨ c = ' ' := by
  simpa [endsPart] using h c hc

lemma endsName (h : EndsPart rest) : EndsName rest := by
  intro c hc
  obtain rfl | rfl | rfl | rfl | rfl | rfl | rfl := of_mem h hc <;> decide

lemma ne_equals (h : EndsPart rest) : ∀ c ∈ rest.head?, c ≠ '=' := by
  intro c hc
  obtain rfl | rfl | rfl | rfl | rfl | rfl | rfl := of_mem h hc <;> decide

end Lexeme.EndsPart

namespace Grammar

/-- A part of a selector is read from the front of some tokens. -/
def ReadsPart (x : SelectorPart Expr) (ts us : List Token) : Prop :=
  ∀ {filtered filtered' : Bool} {ps : List (SelectorPart Expr)} {rest : List Token},
    Parts Expr.parse x.isFilter us ps filtered' rest →
      Parts Expr.parse filtered ts (x :: ps) filtered' rest

lemma Simple.readsPart {x : SelectorPart Expr} {ts us : List Token} (h : Simple ts x us) :
    ReadsPart x ts us := by
  intro filtered filtered' ps rest hps
  cases h with
  | id h => exact .simple (.id h) hps
  | name h => exact .simple (.name h) hps
  | className h hname => exact .simple (.className h hname) hps
  | wildcard h => exact .simple (.wildcard h) hps
  | attachment h h' hname => exact .simple (.attachment h h' hname) hps

end Grammar

lemma dropWhile_sign {w : List Char} (hw : IsIdentifier w) :
    ('#' :: w).dropWhile (· == '#') = w := by
  match w, hw with
  | [], hw => cases hw.starts
  | c :: w, hw =>
    have hc : c ≠ '#' := by
      rintro rfl
      exact absurd (hw.plain '#' List.mem_cons_self) (by decide)
    simp [hc]

namespace Token

variable {limit : Nat} {opened : List Bracket} {rest w : List Char} {Q : List Token → Prop}

/-- A written part in front of a text is read before the text. -/
lemma Lexes.part {x : SelectorPart Expr} (hx : x.WrittenAs w) (hrest : EndsPart rest)
    (h : Lexes limit opened (Lexeme.ofText rest) Q) :
    Lexes limit opened (Lexeme.ofText (w ++ rest)) fun ts => ∃ t us vs, ts = t :: us ∧
      x.StartsWith t ∧ ReadsPart x (t :: us) vs ∧ Q vs := by
  have hsimple {x : SelectorPart Expr} {t : Token} {us vs : List Token} (hstarts : x.StartsWith t)
      (hpart : Simple (t :: us) x vs) (hQ : Q vs) : ∃ t' us' vs', t :: us = t' :: us' ∧
        x.StartsWith t' ∧ ReadsPart x (t' :: us') vs' ∧ Q vs' :=
    ⟨t, us, vs, rfl, hstarts, hpart.readsPart, hQ⟩
  -- a part is read from its own token, whatever is behind that ends it
  cases hx with
  | name hn =>
    refine (h.word hn hrest.endsName).imp ?_
    rintro _ ⟨raw, here, ts, rfl, hQ⟩
    exact hsimple ⟨rfl, rfl⟩ (.name rfl) hQ
  | @id i hi =>
    refine (h.hash hi hrest.endsName).imp ?_
    rintro _ ⟨raw, here, ts, rfl, hQ⟩
    have hpart : Simple (P := Expr) (⟨.colorLiteral, raw, String.ofList ('#' :: i.toList), here⟩ :: ts)
        _ ts := .id rfl
    rw [String.toList_ofList, dropWhile_sign hi, String.ofList_toList] at hpart
    exact hsimple rfl hpart hQ
  | className hc =>
    rw [List.cons_append, ofText_point hc]
    refine .inner rfl rfl (h.word hc hrest.endsName) ?_
    rintro here _ ⟨raw, here', ts, rfl, hQ⟩
    exact hsimple rfl (.className rfl rfl) hQ
  | wildcard =>
    refine ofText_asterisk hrest.ne_equals ▸ .inner rfl rfl h ?_
    exact fun here ts hQ => hsimple rfl (.wildcard rfl) hQ
  | @filter f hf =>
    rw [List.cons_append, List.append_assoc]
    refine (h.filter hf).imp ?_
    rintro _ ⟨t, us, vs, rfl, hopen, hgroup, hQ⟩
    exact ⟨t, us, vs, rfl, hopen, .narrowing hgroup, hQ⟩
  | attachment ha =>
    have hname := h.word ha hrest.endsName
    have hcolon := hname.punctuation (.inl rfl)
    refine (hcolon.punctuation (.inl rfl)).imp ?_
    rintro _ ⟨here, _, rfl, here', _, rfl, raw, here'', ts, rfl, hQ⟩
    exact hsimple rfl (.attachment rfl rfl rfl) hQ

/-- A part of a selector with the characters that it is written as. -/
abbrev WrittenPart := SelectorPart Expr × List Char

/-- The characters of some written parts. -/
def writtenText (ps : List WrittenPart) : List Char :=
  ps.flatMap (·.2)

/-- Whether the last part is a filter, where it is known of the parts before them. -/
def endsFiltered (filtered : Bool) (ps : List WrittenPart) : Bool :=
  ps.foldl (fun _ p => p.1.isFilter) filtered

lemma endsPart_writtenText {ps : List WrittenPart} (hps : ∀ p ∈ ps, p.1.WrittenAs p.2)
    (hnames : ∀ p ∈ ps, p.1.name? = none) (hrest : EndsPart rest) :
    EndsPart (writtenText ps ++ rest) := by
  match ps with
  | [] => exact hrest
  | (x, w) :: ps =>
    have hx := hps _ List.mem_cons_self
    have hname := hnames _ List.mem_cons_self
    rw [writtenText, List.flatMap_cons, List.append_assoc]
    cases hx with
    | name => cases hname
    | _ => rintro c ⟨⟩; rfl

/-- Written parts in front of a text are read one by one. Only the first one may be a name. -/
lemma Lexes.parts {p : WrittenPart} {ps : List WrittenPart} (hp : p.1.WrittenAs p.2)
    (hps : ∀ q ∈ ps, q.1.WrittenAs q.2) (hnames : ∀ q ∈ ps, q.1.name? = none) (hrest : EndsPart rest)
    (h : Lexes limit opened (Lexeme.ofText rest) Q) :
    Lexes limit opened (Lexeme.ofText (writtenText (p :: ps) ++ rest)) fun ts => ∃ t us vs,
      ts = t :: us ∧ p.1.StartsWith t ∧ Q vs ∧ ∀ filtered filtered' rest',
        Parts Expr.parse (endsFiltered filtered (p :: ps)) vs [] filtered' rest' →
          Parts Expr.parse filtered (t :: us) ((p :: ps).map (·.1)) filtered' rest' := by
  induction ps generalizing p with
  | nil =>
    rw [writtenText, List.flatMap_singleton]
    refine (h.part hp hrest).imp ?_
    rintro _ ⟨t, us, vs, rfl, hstarts, hpart, hQ⟩
    exact ⟨t, us, vs, rfl, hstarts, hQ, fun filtered filtered' rest' hps => hpart hps⟩
  | cons q ps ih =>
    obtain ⟨hq, hps⟩ := List.forall_mem_cons.mp hps
    have hends := endsPart_writtenText (List.forall_mem_cons.mpr ⟨hq, hps⟩) hnames hrest
    have hparts := ih hq hps (List.forall_mem_cons.mp hnames).2
    rw [writtenText, List.flatMap_cons, List.append_assoc]
    refine (hparts.part hp hends).imp ?_
    rintro _ ⟨t, us, _, rfl, hstarts, hpart, u, us', vs, rfl, -, hQ, hread⟩
    refine ⟨t, us, vs, rfl, hstarts, hQ, ?_⟩
    intro filtered filtered' rest' hps
    exact hpart (hread _ filtered' rest' hps)

end Token

/-! ### Written selectors -/

namespace Selector

/-- A selector that is written in one way only: its names are identifiers, its filter is plain, and no
class is there twice. -/
structure IsPlain (s : Selector Expr) : Prop where
  name : ∀ n ∈ s.name, IsIdentifier n.toList
  id : ∀ i ∈ s.id, IsIdentifier i.toList
  classes : ∀ c ∈ s.classes, IsIdentifier c.toList
  nodup : s.classes.Nodup
  filter : ∀ f ∈ s.filter, f.IsPlain
  attachment : ∀ a ∈ s.attachment, IsIdentifier a.toList
  nonempty : ¬ s.isEmpty

/-- The selector as it is read back: its filter is the expression that it is written as. -/
def reread (s : Selector Expr) : Selector Expr :=
  { s with filter := s.filter.map fun f => .predicate f.test.expr }

/-- The parts of a selector behind its name, with the characters that they are written as. -/
def writtenParts (s : Selector Expr) : List WrittenPart :=
  (s.id.map fun i => (.id i, '#' :: i.toList)).toList ++
  (s.classes.map fun c => (.className c, '.' :: c.toList)) ++
  (if s.wildcard then [(.wildcard, ['*'])] else []) ++
  (s.filter.map fun f => (.narrowing f.test.expr, '[' :: (f.display.toList ++ [']']))).toList ++
  (s.attachment.map fun a => (.attachment a, ':' :: ':' :: a.toList)).toList

/-- All parts of a selector, with the characters that they are written as. -/
def written (s : Selector Expr) : List WrittenPart :=
  (s.name.map fun n => (.name n, n.toList)).toList ++ s.writtenParts

lemma toList_display (s : Selector Expr) : s.display.toList = writtenText s.written := by
  obtain ⟨name, id, classes, wildcard, filter, attachment⟩ := s
  have hclasses : (String.join (classes.map ("." ++ ·))).toList =
      (classes.map fun c => (SelectorPart.className (P := Expr) c, '.' :: c.toList)).flatMap (·.2) := by
    simp [String.toList_join, List.flatMap_map]
  cases name <;> cases id <;> cases wildcard <;> cases filter <;> cases attachment <;>
    simp [display, written, writtenParts, writtenText, hclasses]

end Selector

/-- Some written parts make up a selector, and none of them is in the way of another one. -/
structure Makes (ps : List WrittenPart) (s : Selector Expr) : Prop where
  distinct : Distinct (ps.map (·.1))
  selector_eq : Grammar.selector (ps.map (·.1)) = s

namespace Makes

variable {ps : List WrittenPart} {s : Selector Expr}

lemma nil : Makes [] {} :=
  ⟨distinct_nil, rfl⟩

lemma concat {x : SelectorPart Expr} (h : Makes ps s) (w : List Char)
    (hid : x.id?.isSome → s.id = none) (hname : x.name?.isSome → s.name = none)
    (hattachment : x.attachment?.isSome → s.attachment = none) :
    Makes (ps ++ [(x, w)]) (Grammar.selector (ps.map (·.1) ++ [x])) := by
  obtain ⟨hdistinct, rfl⟩ := h
  refine ⟨?_, by rw [List.map_append, List.map_singleton]⟩
  rw [List.map_append, List.map_singleton, distinct_concat]
  exact ⟨hdistinct, hid, hname, hattachment⟩

lemma name (h : Makes ps s) (hs : s.name = none) (o : Option String) :
    Makes (ps ++ (o.map fun n => (.name n, n.toList)).toList) { s with name := o } := by
  cases o with
  | none =>
    have hself : { s with name := none } = s := by rw [← hs]
    simpa [hself] using h
  | some n =>
    have hn := h.concat (x := .name n) n.toList nofun (fun _ => hs) nofun
    rwa [selector_name (h.selector_eq ▸ hs), h.selector_eq] at hn

lemma id (h : Makes ps s) (hs : s.id = none) (o : Option String) :
    Makes (ps ++ (o.map fun i => (.id i, '#' :: i.toList)).toList) { s with id := o } := by
  cases o with
  | none =>
    have hself : { s with id := none } = s := by rw [← hs]
    simpa [hself] using h
  | some i =>
    have hi := h.concat (x := .id i) ('#' :: i.toList) (fun _ => hs) nofun nofun
    rwa [selector_id (h.selector_eq ▸ hs), h.selector_eq] at hi

lemma attachment (h : Makes ps s) (hs : s.attachment = none) (o : Option String) :
    Makes (ps ++ (o.map fun a => (.attachment a, ':' :: ':' :: a.toList)).toList)
      { s with attachment := o } := by
  cases o with
  | none =>
    have hself : { s with attachment := none } = s := by rw [← hs]
    simpa [hself] using h
  | some a =>
    have ha := h.concat (x := .attachment a) (':' :: ':' :: a.toList) nofun nofun (fun _ => hs)
    rwa [selector_attachment (h.selector_eq ▸ hs), h.selector_eq] at ha

lemma classes (h : Makes ps s) {cs : List String} (hs : (s.classes ++ cs).Nodup) :
    Makes (ps ++ cs.map fun c => (.className c, '.' :: c.toList))
      { s with classes := s.classes ++ cs } := by
  induction cs generalizing ps s with
  | nil => simpa using h
  | cons c cs ih =>
    have hc := h.concat (x := .className c) ('.' :: c.toList) nofun nofun nofun
    have hnew : c ∉ s.classes := by
      intro hmem
      exact (List.nodup_append.mp hs).2.2 c hmem c List.mem_cons_self rfl
    rw [selector_className, h.selector_eq, Selector.insertClass, if_neg (by simpa using hnew)] at hc
    rw [List.append_cons] at hs
    have hcs := ih hc hs
    rwa [List.append_assoc, List.append_assoc] at hcs

lemma wildcard (h : Makes ps s) (hs : s.wildcard = false) (b : Bool) :
    Makes (ps ++ if b then [(.wildcard, ['*'])] else []) { s with wildcard := b } := by
  cases b with
  | false =>
    have hself : { s with wildcard := false } = s := by rw [← hs]
    simpa [hself] using h
  | true =>
    have hb := h.concat (x := .wildcard) ['*'] nofun nofun nofun
    rwa [selector_wildcard, h.selector_eq] at hb

lemma filter (h : Makes ps s) (hs : s.filter = none) (o : Option (Filter Expr)) :
    Makes (ps ++ (o.map fun f =>
      (.narrowing f.test.expr, '[' :: (f.display.toList ++ [']']))).toList)
      { s with filter := o.map fun f => .predicate f.test.expr } := by
  cases o with
  | none =>
    have hself : { s with filter := none } = s := by rw [← hs]
    simpa [hself] using h
  | some f =>
    have hf := h.concat (x := .narrowing f.test.expr) ('[' :: (f.display.toList ++ [']']))
      nofun nofun nofun
    rwa [selector_narrowing, h.selector_eq, Selector.andFilter, hs] at hf

end Makes

namespace Selector

variable {s : Selector Expr}

/-- The written parts of a selector make up the selector as it is read back. -/
lemma IsPlain.makes (h : s.IsPlain) : Makes s.written s.reread := by
  have hname := Makes.nil.name rfl s.name
  have hid := hname.id rfl s.id
  have hclasses := hid.classes h.nodup
  have hwildcard := hclasses.wildcard rfl s.wildcard
  have hfilter := hwildcard.filter rfl s.filter
  have hattachment := hfilter.attachment rfl s.attachment
  simpa only [List.append_assoc, List.nil_append, written, writtenParts, reread] using hattachment

lemma IsPlain.written_ne_nil (h : s.IsPlain) : s.written ≠ [] := by
  intro hnil
  have hempty : s.reread.isEmpty := by
    rw [← h.makes.selector_eq, hnil]
    rfl
  refine h.nonempty ?_
  rw [isEmpty_iff] at hempty ⊢
  simpa [reread] using hempty

lemma IsPlain.writtenAs (h : s.IsPlain) : ∀ p ∈ s.written, p.1.WrittenAs p.2 := by
  simp only [written, writtenParts, List.forall_mem_append, Option.mem_toList,
    Option.map_eq_some_iff, List.forall_mem_map]
  refine ⟨?_, ⟨⟨⟨?_, ?_⟩, ?_⟩, ?_⟩, ?_⟩
  · rintro _ ⟨n, hn, rfl⟩
    exact .name (h.name n hn)
  · rintro _ ⟨i, hi, rfl⟩
    exact .id (h.id i hi)
  · exact fun c hc => .className (h.classes c hc)
  · intro p hp
    split at hp
    · cases List.mem_singleton.mp hp
      exact .wildcard
    · cases hp
  · rintro _ ⟨f, hf, rfl⟩
    exact .filter (h.filter f hf)
  · rintro _ ⟨a, ha, rfl⟩
    exact .attachment (h.attachment a ha)

lemma IsPlain.startsVisibly (h : s.IsPlain) : StartsVisibly s.display.toList := by
  obtain ⟨p, ps, hwritten⟩ := List.exists_cons_of_ne_nil h.written_ne_nil
  have hp := h.writtenAs p (hwritten ▸ List.mem_cons_self)
  rw [toList_display, hwritten, writtenText, List.flatMap_cons]
  exact hp.startsVisibly.append _

lemma name?_writtenParts (s : Selector Expr) : ∀ p ∈ s.writtenParts, p.1.name? = none := by
  simp only [writtenParts, List.forall_mem_append, Option.mem_toList,
    Option.map_eq_some_iff, List.forall_mem_map]
  refine ⟨⟨⟨⟨?_, fun _ _ => rfl⟩, ?_⟩, ?_⟩, ?_⟩
  · rintro _ ⟨i, -, rfl⟩
    rfl
  · intro p hp
    split at hp
    · cases List.mem_singleton.mp hp
      rfl
    · cases hp
  · rintro _ ⟨f, -, rfl⟩
    rfl
  · rintro _ ⟨a, -, rfl⟩
    rfl

/-! ### Selectors side by side -/

/-- Whether a filter is the last thing that is written of a selector. -/
def endsInFilter {P : Type} (s : Selector P) : Bool :=
  s.filter.isSome && s.attachment.isNone

/-- Whether a filter is the first thing that is written of a selector. -/
def startsWithFilter {P : Type} (s : Selector P) : Bool :=
  s.kind.isNone && s.filter.isSome

/-- Two selectors that stay apart when they are written side by side with a comma between them. -/
def Separate {P : Type} (s t : Selector P) : Prop :=
  ¬ (s.endsInFilter ∧ t.startsWithFilter)

/-- What is known of the first token of a written selector. -/
structure Opens (s : Selector Expr) (t : Token) : Prop where
  starts : t.startsSelector
  name : t.kind = .identifier → s.name = some t.text
  filter : t.isDelimiter "[" → s.startsWithFilter

lemma name_of_written {p : WrittenPart} {ps : List WrittenPart} {n : String}
    (hs : s.written = p :: ps) (hp : p.1.name? = some n) : s.name = some n := by
  rw [written] at hs
  cases hname : s.name with
  | none =>
    rw [hname, Option.map_none, Option.toList_none, List.nil_append] at hs
    have hnone := s.name?_writtenParts p (hs ▸ List.mem_cons_self)
    rw [hp] at hnone
    cases hnone
  | some m =>
    rw [hname, Option.map_some, Option.toList_some, List.singleton_append] at hs
    obtain ⟨rfl, -⟩ := List.cons.inj hs
    exact hp

lemma startsWithFilter_of_written {p : WrittenPart} {ps : List WrittenPart}
    (hs : s.written = p :: ps) (hp : p.1.isFilter) : s.startsWithFilter := by
  obtain ⟨name, id, classes, wildcard, filter, attachment⟩ := s
  cases name with
  | some => cases hs; cases hp
  | none =>
    cases id with
    | some => cases hs; cases hp
    | none =>
      cases classes with
      | cons => cases hs; cases hp
      | nil =>
        cases wildcard with
        | true => cases hs; cases hp
        | false =>
          cases filter with
          | some => rfl
          | none =>
            cases attachment with
            | some => cases hs; cases hp
            | none => cases hs

lemma opens_of_startsWith {p : WrittenPart} {ps : List WrittenPart} {t : Token}
    (hs : s.written = p :: ps) (hp : p.1.StartsWith t) : s.Opens t := by
  have hpart : t.startsSelector ∧ (t.kind = .identifier → p.1.name? = some t.text) ∧
      (t.isDelimiter "[" → p.1.isFilter) := by
    obtain ⟨x, w⟩ := p
    cases x with
    | name n =>
      obtain ⟨hkind, rfl⟩ := hp
      refine ⟨by rw [startsSelector, hkind], fun _ => rfl, ?_⟩
      simp [isDelimiter, hkind]
    | id i =>
      change t.kind = .colorLiteral at hp
      refine ⟨by rw [startsSelector, hp], ?_, ?_⟩ <;> simp [isDelimiter, hp]
    | className | wildcard =>
      obtain ⟨raw, location, rfl⟩ := eq_of_isOperator hp
      refine ⟨rfl, ?_, ?_⟩ <;> rintro ⟨⟩
    | attachment =>
      obtain ⟨raw, location, rfl⟩ := eq_of_isDelimiter hp
      refine ⟨rfl, ?_, ?_⟩ <;> rintro ⟨⟩
    | narrowing | widening =>
      obtain ⟨raw, location, rfl⟩ := eq_of_isDelimiter hp
      refine ⟨rfl, ?_, fun _ => rfl⟩
      rintro ⟨⟩
  obtain ⟨hstarts, hname, hfilter⟩ := hpart
  exact ⟨hstarts, fun hkind => name_of_written hs (hname hkind),
    fun hopen => startsWithFilter_of_written hs (hfilter hopen)⟩

lemma endsFiltered_written (s : Selector Expr) : endsFiltered false s.written = s.endsInFilter := by
  obtain ⟨name, id, classes, wildcard, filter, attachment⟩ := s
  have hclasses : endsFiltered false
      (classes.map fun c => (SelectorPart.className (P := Expr) c, '.' :: c.toList)) = false := by
    induction classes with
    | nil => rfl
    | cons c classes ih => exact ih
  cases name <;> cases id <;> cases wildcard <;> cases filter <;> cases attachment <;>
    simp_all [endsFiltered, written, writtenParts, endsInFilter, SelectorPart.isFilter]

end Selector

namespace Token

variable {limit : Nat} {opened : List Bracket} {rest : List Char} {Q : List Token → Prop}

open Selector in
/-- A written selector in front of a text is read part by part. -/
lemma Lexes.selector {s : Selector Expr} (hs : s.IsPlain) (hrest : EndsPart rest)
    (h : Lexes limit opened (Lexeme.ofText rest) Q) :
    Lexes limit opened (Lexeme.ofText (s.display.toList ++ rest)) fun ts => ∃ t us vs,
      ts = t :: us ∧ s.Opens t ∧ Q vs ∧ ∀ filtered rest',
        Parts Expr.parse s.endsInFilter vs [] filtered rest' →
          Parts Expr.parse false (t :: us) (s.written.map (·.1)) filtered rest' := by
  have hparts : Lexes limit opened (Lexeme.ofText (writtenText s.written ++ rest)) fun ts => ∃ t us vs,
      ts = t :: us ∧ s.Opens t ∧ Q vs ∧ ∀ filtered rest',
        Parts Expr.parse (endsFiltered false s.written) vs [] filtered rest' →
          Parts Expr.parse false (t :: us) (s.written.map (·.1)) filtered rest' := by
    obtain ⟨p, ps, hwritten⟩ := List.exists_cons_of_ne_nil hs.written_ne_nil
    have hall := hs.writtenAs
    -- only the first part can be a name, since no other part is written like one
    have hnames : ∀ q ∈ ps, q.1.name? = none := by
      intro q hq
      refine s.name?_writtenParts q ?_
      rw [Selector.written] at hwritten
      cases hname : s.name with
      | none =>
        rw [hname, Option.map_none, Option.toList_none, List.nil_append] at hwritten
        exact hwritten ▸ List.mem_cons_of_mem p hq
      | some n =>
        rw [hname, Option.map_some, Option.toList_some, List.singleton_append] at hwritten
        exact (List.cons.inj hwritten).2 ▸ hq
    rw [hwritten] at hall
    obtain ⟨hp, hps⟩ := List.forall_mem_cons.mp hall
    rw [hwritten]
    refine (Lexes.parts hp hps hnames hrest h).imp ?_
    rintro _ ⟨t, us, vs, rfl, hstarts, hQ, hread⟩
    exact ⟨t, us, vs, rfl, opens_of_startsWith hwritten hstarts, hQ, hread false⟩
  rwa [← toList_display, endsFiltered_written] at hparts

lemma not_isWhitespace_of_startsSelector {t : Token} (h : t.startsSelector) : ¬ t.isWhitespace := by
  intro hblank
  obtain ⟨raw, text, location, rfl⟩ := eq_of_isWhitespace hblank
  cases h

lemma selectors_blank {engine : PredicateEngine Expr} {t : Token} {ts us : List Token}
    {ss : List (Selector Expr)} (ht : t.isWhitespace) (h : Selectors engine ts ss us) :
    Selectors engine (t :: ts) ss us := by
  cases h with
  | last hps hne hdistinct hbrace => exact .last (.blank ht hps) hne hdistinct hbrace
  | more hps hne hdistinct hcomma hnext hmore =>
    exact .more (.blank ht hps) hne hdistinct hcomma hnext hmore

/-- The text of some selectors with commas between them, and the brace behind them. -/
def selectorsText (ss : List (Selector Expr)) (rest : List Char) : List Char :=
  (String.intercalate ", " (ss.map Selector.display)).toList ++ ' ' :: '\x7b' :: rest

lemma selectorsText_singleton (s : Selector Expr) :
    selectorsText [s] rest = s.display.toList ++ ' ' :: '\x7b' :: rest := by
  rw [selectorsText, List.map_singleton, String.intercalate_singleton]

lemma selectorsText_append (ss : List (Selector Expr)) (cs ds : List Char) :
    selectorsText ss cs ++ ds = selectorsText ss (cs ++ ds) :=
  List.append_assoc ..

lemma selectorsText_cons_cons (s u : Selector Expr) (ss : List (Selector Expr)) :
    selectorsText (s :: u :: ss) rest =
      s.display.toList ++ ',' :: ' ' :: selectorsText (u :: ss) rest := by
  simp [selectorsText, String.toList_intercalate]

lemma startsVisibly_selectorsText {s : Selector Expr} (hs : s.IsPlain) (ss : List (Selector Expr)) :
    StartsVisibly (selectorsText (s :: ss) rest) := by
  cases ss with
  | nil => exact selectorsText_singleton s ▸ hs.startsVisibly.append _
  | cons u ss => exact selectorsText_cons_cons s u ss ▸ hs.startsVisibly.append _

/-- Written selectors in front of a brace are read one by one. -/
lemma Lexes.selectors {s : Selector Expr} {ss : List (Selector Expr)}
    (hplain : ∀ u ∈ s :: ss, u.IsPlain) (hseparate : (s :: ss).IsChain Selector.Separate)
    (h : opened.length < limit → Lexes limit (.curly :: opened) (Lexeme.ofText rest) Q) :
    Lexes limit opened (Lexeme.ofText (selectorsText (s :: ss) rest)) fun ts =>
      opened.length < limit ∧ ∃ t us vs, ts = t :: us ∧ s.Opens t ∧
        Selectors Expr.parse (t :: us) ((s :: ss).map Selector.reread) vs ∧ Q vs := by
  induction ss generalizing s with
  | nil =>
    have hs := hplain s List.mem_cons_self
    have hbrace := Lexes.opens .curly h
    have hblank := hbrace.blank ⟨_, _, rfl, by decide⟩
    rw [selectorsText_singleton]
    refine (hblank.selector hs (by rintro c ⟨⟩; rfl)).imp ?_
    rintro _ ⟨t, us, _, rfl, hopens, ⟨b, _, rfl, hb, hlimit, here, vs, rfl, hQ⟩, hread⟩
    refine ⟨hlimit, t, us, vs, rfl, hopens, ?_, hQ⟩
    have hselectors := Selectors.last (hread _ _ (.blank hb .done))
      (mt List.map_eq_nil_iff.mp hs.written_ne_nil) hs.makes.distinct rfl
    rwa [hs.makes.selector_eq] at hselectors
  | cons u ss ih =>
    obtain ⟨hs, hss⟩ := List.forall_mem_cons.mp hplain
    obtain ⟨hsu, hchain⟩ := List.isChain_cons_cons.mp hseparate
    have hblank := (ih hss hchain).blank (startsVisibly_selectorsText (hss u List.mem_cons_self) ss)
    have hcomma := hblank.punctuation (.inr (.inl rfl))
    rw [selectorsText_cons_cons]
    refine (hcomma.selector hs (by rintro c ⟨⟩; rfl)).imp ?_
    rintro _ ⟨t, us, _, rfl, hopens, ⟨here, _, rfl, b, _, rfl, hb, hlimit, t', us', vs, rfl, hopens',
      hselectors, hQ⟩, hread⟩
    refine ⟨hlimit, t, us, vs, rfl, hopens, ?_, hQ⟩
    -- a filter at the end of a selector takes no filter from behind the comma
    have hnext : s.endsInFilter → ¬ FilterFollows (b :: t' :: us') := by
      intro hends hfollows
      have hblank : ¬ t'.isWhitespace := not_isWhitespace_of_startsSelector hopens'.starts
      rw [filterFollows_blank hb, filterFollows_cons hblank] at hfollows
      exact hsu ⟨hends, hopens'.filter hfollows⟩
    have hmore := Selectors.more (hread _ _ .done) (mt List.map_eq_nil_iff.mp hs.written_ne_nil)
      hs.makes.distinct rfl hnext (selectors_blank hb hselectors)
    rwa [hs.makes.selector_eq] at hmore

end Token

end MapStyle
