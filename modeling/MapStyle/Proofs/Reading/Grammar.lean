import MapStyle.Proofs.Accumulation.Gathering
import MapStyle.Proofs.Reading.Combination
import MapStyle.Proofs.Reading.Independence
import MapStyle.Proofs.Reading.Kinds
import MapStyle.Proofs.Selector.Titles

/-!
# The grammar of stylesheets

What a stylesheet is, without saying how it is read: relations between a token list, what its
beginning says, and the tokens that are left behind it. Where numbers may stand, the relations also
have the warnings that these give rise to, in the order of the text.
-/

namespace MapStyle

variable {P : Type}

/-- The value that an argument would be on its own. -/
def Argument.value : Argument → Value
  | .literal l => .literal l
  | .reference name => .reference name

namespace Grammar

/-- White space, or none. -/
inductive Blanks : List Token → List Token → Prop
  | none {ts : List Token} : Blanks ts ts
  | more {t : Token} {ts rest : List Token} (h : t.isWhitespace) (hblanks : Blanks ts rest) :
      Blanks (t :: ts) rest

/-! ### Values -/

/-- `[name]`: one word between brackets. -/
inductive Reference : List Token → String → List Token → Prop
  | intro {t word u : Token} {ts us rest : List Token} (hopen : t.isDelimiter "[")
      (hbefore : Blanks ts (word :: us)) (hword : word.IsWord) (hbehind : Blanks us (u :: rest))
      (hclose : u.isDelimiter "]") : Reference (t :: ts) word.text rest

/-- What may stand alone as a value and as an argument of a call. -/
inductive Atom : List Token → Argument → List Warning → List Token → Prop
  | word {t : Token} {ts : List Token} (h : t.IsWord) :
      Atom (t :: ts) (.literal (.string t.text)) [] ts
  | color {t : Token} {ts : List Token} (h : t.kind = .colorLiteral) :
      Atom (t :: ts) (.literal (.color t.text)) [] ts
  | number {t : Token} {ts : List Token} (h : t.kind = .number) :
      Atom (t :: ts) (.literal t.numberLiteral) t.numberWarnings ts
  | reference {ts rest : List Token} {name : String} (h : Reference ts name rest) :
      Atom ts (.reference name) [] rest

/-- `a, b, c)`: arguments with commas between them, and the closing parenthesis. -/
inductive Arguments : List Token → List Argument → List Warning → List Token → Prop
  | last {t : Token} {ts us vs rest : List Token} {a : Argument} {ws : List Warning}
      (hbefore : Blanks ts us) (ha : Atom us a ws vs) (hbehind : Blanks vs (t :: rest))
      (hclose : t.isDelimiter ")") : Arguments ts [a] ws rest
  | more {t : Token} {ts us vs us' rest : List Token} {a : Argument} {as : List Argument}
      {ws ws' : List Warning} (hbefore : Blanks ts us) (ha : Atom us a ws vs)
      (hbehind : Blanks vs (t :: us')) (hcomma : t.isDelimiter ",")
      (hmore : Arguments us' as ws' rest) : Arguments ts (a :: as) (ws ++ ws') rest

/-- `name(a, b, c)`: a call that the functions at hand can make something of. -/
inductive Call (functions : Registry) : List Token → Value → List Warning → List Token → Prop
  | empty {t u : Token} {ts rest : List Token} {v : Value} (hname : t.kind = .functionStart)
      (hblanks : Blanks ts (u :: rest)) (hclose : u.isDelimiter ")")
      (hv : functions.build t.text [] = .ok v) : Call functions (t :: ts) v [] rest
  | applied {t : Token} {ts rest : List Token} {as : List Argument} {v : Value} {ws : List Warning}
      (hname : t.kind = .functionStart) (hargs : Arguments ts as ws rest)
      (hv : functions.build t.text as = .ok v) : Call functions (t :: ts) v ws rest

/-- One of the values of a declaration. -/
inductive Item (functions : Registry) : List Token → Value → List Warning → List Token → Prop
  | atom {ts rest : List Token} {a : Argument} {ws : List Warning} (h : Atom ts a ws rest) :
      Item functions ts a.value ws rest
  | call {ts rest : List Token} {v : Value} {ws : List Warning} (h : Call functions ts v ws rest) :
      Item functions ts v ws rest

/-- Further values of a declaration, with any number of commas between them. -/
inductive Items (functions : Registry) :
    List Token → List Value → List Warning → List Token → Prop
  | done {ts : List Token} : Items functions ts [] [] ts
  | blank {t : Token} {ts rest : List Token} {vs : List Value} {ws : List Warning}
      (h : t.isWhitespace) (hmore : Items functions ts vs ws rest) :
      Items functions (t :: ts) vs ws rest
  | comma {t : Token} {ts rest : List Token} {vs : List Value} {ws : List Warning}
      (h : t.isDelimiter ",") (hmore : Items functions ts vs ws rest) :
      Items functions (t :: ts) vs ws rest
  | item {ts us rest : List Token} {v : Value} {vs : List Value} {ws ws' : List Warning}
      (h : Item functions ts v ws us) (hmore : Items functions us vs ws' rest) :
      Items functions ts (v :: vs) (ws ++ ws') rest

/-- The end of a declaration: a semicolon, or the brace behind it, which is left for its block. -/
inductive End : List Token → List Token → Prop
  | semicolon {t : Token} {ts : List Token} (h : t.isDelimiter ";") : End (t :: ts) ts
  | brace {t : Token} {ts : List Token} (h : t.isDelimiter "\x7d") : End (t :: ts) (t :: ts)

/-- `key: a b c;` where the values make up one value. -/
inductive Declaration (functions : Registry) :
    List Token → String → Value → List Warning → List Token → Prop
  | intro {t colon : Token} {ts us us' vs vs' rest : List Token} {first v : Value}
      {others : List Value} {ws ws' : List Warning} (hkey : t.kind = .identifier)
      (hbefore : Blanks ts (colon :: us)) (hcolon : colon.isDelimiter ":")
      (hbehind : Blanks us us') (hfirst : Item functions us' first ws vs)
      (hothers : Items functions vs others ws' vs') (hend : End vs' rest)
      (hv : Combined (first :: others) v) :
      Declaration functions (t :: ts) t.text v (ws ++ ws') rest

/-! ### Selectors -/

/-- The text between the brackets of a filter. White space counts as one blank, and none at the
ends. -/
def filterText (inner : List Token) : String :=
  Text.trim (String.join (inner.map fun t => if t.isWhitespace then " " else t.raw))

/-- Whether a token is a bracket, a brace or a semicolon, which a filter cannot contain. -/
def bounds (t : Token) : Bool :=
  ["[", "]", "\x7b", "\x7d", ";"].any t.isDelimiter

/-- `[attribute = 1]`: a filter whose text the engine accepts. -/
inductive Group (engine : PredicateEngine P) : List Token → P → List Token → Prop
  | intro {t u : Token} {inner rest : List Token} {q : P} (hopen : t.isDelimiter "[")
      (hinner : ∀ x ∈ inner, ¬ bounds x) (hclose : u.isDelimiter "]") (htext : filterText inner ≠ "")
      (hq : engine (filterText inner) = .ok q) : Group engine (t :: (inner ++ u :: rest)) q rest

/-- Whether the next token behind white space opens a filter. -/
def FilterFollows (ts : List Token) : Prop :=
  ∃ u us, Blanks ts (u :: us) ∧ u.isDelimiter "["

/-- A part of a selector. A filter narrows down what was selected before, or widens what the filters
before it let pass. -/
inductive SelectorPart (P : Type) where
  | id (id : String)
  | name (name : String)
  | className (name : String)
  | wildcard
  | attachment (name : String)
  | narrowing (q : P)
  | widening (q : P)

namespace SelectorPart

/-- The identifier that a part gives. -/
@[simp] def id? : SelectorPart P → Option String
  | id x => some x
  | _ => none

/-- The name that a part gives. -/
@[simp] def name? : SelectorPart P → Option String
  | name x => some x
  | _ => none

/-- The class that a part gives. -/
@[simp] def className? : SelectorPart P → Option String
  | className x => some x
  | _ => none

/-- Whether a part is the wildcard. -/
@[simp] def isWildcard : SelectorPart P → Bool
  | wildcard => true
  | _ => false

/-- The attachment that a part gives. -/
@[simp] def attachment? : SelectorPart P → Option String
  | attachment x => some x
  | _ => none

/-- The filter that a part makes of the one before it. -/
@[simp] def filter (f : Option (Filter P)) : SelectorPart P → Option (Filter P)
  | narrowing q => some (match f with | some g => g.and (.predicate q) | none => .predicate q)
  | widening q => some (match f with | some g => g.or (.predicate q) | none => .predicate q)
  | _ => f

end SelectorPart

/-- There are no two identifiers, names or attachments among some parts. -/
structure Distinct (ps : List (SelectorPart P)) : Prop where
  ids : (ps.filterMap SelectorPart.id?).length ≤ 1
  names : (ps.filterMap SelectorPart.name?).length ≤ 1
  attachments : (ps.filterMap SelectorPart.attachment?).length ≤ 1

/-- The selector that parts make up. -/
def selector (ps : List (SelectorPart P)) : Selector P where
  id := ps.findSome? SelectorPart.id?
  name := ps.findSome? SelectorPart.name?
  classes := (ps.filterMap SelectorPart.className?).eraseDups
  wildcard := ps.any SelectorPart.isWildcard
  attachment := ps.findSome? SelectorPart.attachment?
  filter := ps.foldl SelectorPart.filter none

/-- A part that is no filter. A class and an attachment are written without blanks. -/
inductive Simple : List Token → SelectorPart P → List Token → Prop
  | id {t : Token} {ts : List Token} (h : t.kind = .colorLiteral) :
      Simple (t :: ts) (.id (String.ofList (t.text.toList.dropWhile (· == '#')))) ts
  | name {t : Token} {ts : List Token} (h : t.kind = .identifier) : Simple (t :: ts) (.name t.text) ts
  | className {t u : Token} {ts : List Token} (h : t.isOperator ".") (hname : u.kind = .identifier) :
      Simple (t :: u :: ts) (.className u.text) ts
  | wildcard {t : Token} {ts : List Token} (h : t.isOperator "*") : Simple (t :: ts) .wildcard ts
  | attachment {t u v : Token} {ts : List Token} (h : t.isDelimiter ":") (h' : u.isDelimiter ":")
      (hname : v.kind = .identifier) : Simple (t :: u :: v :: ts) (.attachment v.text) ts

/-- The parts of a selector. The two marks say whether a filter is the last part before and behind
them: only right behind a filter does a comma widen, together with the filter that follows. -/
inductive Parts (engine : PredicateEngine P) :
    Bool → List Token → List (SelectorPart P) → Bool → List Token → Prop
  | done {filtered : Bool} {ts : List Token} : Parts engine filtered ts [] filtered ts
  | blank {filtered filtered' : Bool} {t : Token} {ts rest : List Token} {ps : List (SelectorPart P)}
      (h : t.isWhitespace) (hps : Parts engine filtered ts ps filtered' rest) :
      Parts engine filtered (t :: ts) ps filtered' rest
  | simple {filtered filtered' : Bool} {ts us rest : List Token} {x : SelectorPart P}
      {ps : List (SelectorPart P)}
      (h : Simple ts x us) (hps : Parts engine false us ps filtered' rest) :
      Parts engine filtered ts (x :: ps) filtered' rest
  | narrowing {filtered filtered' : Bool} {ts us rest : List Token} {q : P}
      {ps : List (SelectorPart P)}
      (h : Group engine ts q us) (hps : Parts engine true us ps filtered' rest) :
      Parts engine filtered ts (.narrowing q :: ps) filtered' rest
  | widening {filtered' : Bool} {t : Token} {ts us vs rest : List Token} {q : P}
      {ps : List (SelectorPart P)} (hcomma : t.isDelimiter ",") (hblanks : Blanks ts us)
      (h : Group engine us q vs) (hps : Parts engine true vs ps filtered' rest) :
      Parts engine true (t :: ts) (.widening q :: ps) filtered' rest

/-- Selectors with commas between them, and the brace behind them. The comma behind a filter does not
separate selectors if another filter follows. -/
inductive Selectors (engine : PredicateEngine P) :
    List Token → List (Selector P) → List Token → Prop
  | last {filtered : Bool} {t : Token} {ts rest : List Token} {ps : List (SelectorPart P)}
      (hps : Parts engine false ts ps filtered (t :: rest)) (hne : ps ≠ []) (hdistinct : Distinct ps)
      (hbrace : t.isDelimiter "\x7b") : Selectors engine ts [selector ps] rest
  | more {filtered : Bool} {t : Token} {ts us rest : List Token} {ps : List (SelectorPart P)}
      {ss : List (Selector P)} (hps : Parts engine false ts ps filtered (t :: us))
      (hne : ps ≠ []) (hdistinct : Distinct ps) (hcomma : t.isDelimiter ",")
      (hnext : filtered → ¬ FilterFollows us)
      (hmore : Selectors engine us ss rest) : Selectors engine ts (selector ps :: ss) rest

/-! ### Blocks -/

/-- The rule that selectors and a body make up. Its name and its kind are what the selectors have for them,
and its properties are what the declarations of the body make up. -/
structure IsRule (policy : DuplicateKeys) (selectors : List (Selector P)) (decls : List (String × Value))
    (nested : List (Rule P)) (r : Rule P) : Prop where
  titled : r.IsTitled
  selectors_eq : r.selectors = selectors
  gathers : policy.Gathers decls r.properties
  nested_eq : r.nested = nested

lemma isRule_iff {policy : DuplicateKeys} {selectors : List (Selector P)}
    {decls : List (String × Value)} {nested : List (Rule P)} {r : Rule P} :
    IsRule policy selectors decls nested r ↔
      r = .ofSelectors selectors (policy.declareAll decls {}) nested := by
  constructor
  · rintro ⟨htitled, rfl, hgathers, rfl⟩
    rw [← DuplicateKeys.gathers_iff.mp hgathers]
    exact htitled.eq_ofSelectors
  · rintro rfl
    exact ⟨Rule.isTitled_ofSelectors .., rfl, DuplicateKeys.gathers_iff.mpr rfl, rfl⟩

/-- What stands between the braces of a block, and the closing brace: declarations and nested rules, in
between white space and semicolons. A nested rule does not start with a word, which would be a key. -/
inductive Body (d : Dialect P) :
    List Token → List (String × Value) → List (Rule P) → List Warning → List Token → Prop
  | done {t : Token} {ts : List Token} (h : t.isDelimiter "\x7d") : Body d (t :: ts) [] [] [] ts
  | blank {t : Token} {ts rest : List Token} {decls : List (String × Value)} {rs : List (Rule P)}
      {ws : List Warning} (h : t.isWhitespace ∨ t.isDelimiter ";")
      (hmore : Body d ts decls rs ws rest) : Body d (t :: ts) decls rs ws rest
  | declaration {ts us rest : List Token} {key : String} {v : Value}
      {decls : List (String × Value)} {rs : List (Rule P)} {ws ws' : List Warning}
      (h : Declaration d.functions ts key v ws us) (hmore : Body d us decls rs ws' rest) :
      Body d ts ((key, v) :: decls) rs (ws ++ ws') rest
  | rule {t : Token} {ts us vs rest : List Token} {selectors : List (Selector P)}
      {inner decls : List (String × Value)} {nested rs : List (Rule P)} {r : Rule P}
      {ws ws' : List Warning} (hstart : t.startsSelector) (hkey : t.kind ≠ .identifier)
      (hselectors : Selectors d.engine (t :: ts) selectors us) (h : Body d us inner nested ws vs)
      (hrule : IsRule d.duplicateKeys selectors inner nested r) (hmore : Body d vs decls rs ws' rest) :
      Body d (t :: ts) decls (r :: rs) (ws ++ ws') rest

/-- A stylesheet: its rules, the properties of its `Map` blocks, and the warnings. A `Map` block has no
nested rules; a rule does not start with the keyword of a `Map` block. -/
inductive Stylesheet (d : Dialect P) :
    List Token → List (Rule P) → List Properties → List Warning → Prop
  | done : Stylesheet d [] [] [] []
  | blank {t : Token} {ts : List Token} {rs : List (Rule P)} {blocks : List Properties}
      {ws : List Warning} (h : t.isWhitespace) (hmore : Stylesheet d ts rs blocks ws) :
      Stylesheet d (t :: ts) rs blocks ws
  | map {t u : Token} {ts us vs : List Token} {decls : List (String × Value)} {rs : List (Rule P)}
      {block : Properties} {blocks : List Properties} {ws ws' : List Warning}
      (hkeyword : t.isKeyword "map") (hblanks : Blanks ts (u :: us)) (hbrace : u.isDelimiter "\x7b")
      (h : Body d us decls [] ws vs) (hblock : d.duplicateKeys.Gathers decls block)
      (hmore : Stylesheet d vs rs blocks ws') :
      Stylesheet d (t :: ts) rs (block :: blocks) (ws ++ ws')
  | rule {t : Token} {ts us vs : List Token} {selectors : List (Selector P)}
      {decls : List (String × Value)} {nested rs : List (Rule P)} {r : Rule P} {blocks : List Properties}
      {ws ws' : List Warning} (hstart : t.startsSelector) (hkeyword : ¬ t.isKeyword "map")
      (hselectors : Selectors d.engine (t :: ts) selectors us) (h : Body d us decls nested ws vs)
      (hrule : IsRule d.duplicateKeys selectors decls nested r) (hmore : Stylesheet d vs rs blocks ws') :
      Stylesheet d (t :: ts) (r :: rs) blocks (ws ++ ws')

/-! ### What is left behind -/

section

variable {ts rest : List Token} {ws : List Warning} {functions : Registry} {v : Value}

lemma Blanks.length_le (h : Blanks ts rest) : rest.length ≤ ts.length := by
  induction h with
  | none => exact Nat.le_refl _
  | more _ _ ih => exact Nat.le_succ_of_le ih

lemma Reference.length_lt {name : String} (h : Reference ts name rest) :
    rest.length < ts.length := by
  cases h with
  | intro _ hbefore _ hbehind _ =>
    have hbefore := hbefore.length_le
    have hbehind := hbehind.length_le
    simp only [List.length_cons] at *
    omega

lemma Atom.length_lt {a : Argument} (h : Atom ts a ws rest) : rest.length < ts.length := by
  cases h with
  | reference h => exact h.length_lt
  | _ => exact Nat.lt_succ_self _

lemma Arguments.length_lt {as : List Argument} (h : Arguments ts as ws rest) :
    rest.length < ts.length := by
  induction h with
  | last hbefore ha hbehind _ =>
    have hbefore := hbefore.length_le
    have ha := ha.length_lt
    have hbehind := hbehind.length_le
    simp only [List.length_cons] at *
    omega
  | more hbefore ha hbehind _ _ ih =>
    have hbefore := hbefore.length_le
    have ha := ha.length_lt
    have hbehind := hbehind.length_le
    simp only [List.length_cons] at *
    omega

lemma Call.length_lt (h : Call functions ts v ws rest) : rest.length < ts.length := by
  cases h with
  | empty _ hblanks =>
    have hblanks := hblanks.length_le
    simp only [List.length_cons] at *
    omega
  | applied _ hargs => exact Nat.lt_succ_of_lt hargs.length_lt

lemma Item.length_lt (h : Item functions ts v ws rest) : rest.length < ts.length := by
  cases h with
  | atom h => exact h.length_lt
  | call h => exact h.length_lt

lemma Items.length_le {vs : List Value} (h : Items functions ts vs ws rest) :
    rest.length ≤ ts.length := by
  induction h with
  | done => exact Nat.le_refl _
  | blank _ _ ih => exact Nat.le_succ_of_le ih
  | comma _ _ ih => exact Nat.le_succ_of_le ih
  | item h _ ih => exact Nat.le_trans ih (Nat.le_of_lt h.length_lt)

lemma End.length_le (h : End ts rest) : rest.length ≤ ts.length := by
  cases h with
  | semicolon => exact Nat.le_succ _
  | brace => exact Nat.le_refl _

lemma Declaration.length_lt {key : String} (h : Declaration functions ts key v ws rest) :
    rest.length < ts.length := by
  cases h with
  | intro _ hbefore _ hbehind hfirst hothers hend _ =>
    have hbefore := hbefore.length_le
    have hbehind := hbehind.length_le
    have hfirst := hfirst.length_lt
    have hothers := hothers.length_le
    have hend := hend.length_le
    simp only [List.length_cons] at *
    omega

lemma Group.length_lt {engine : PredicateEngine P} {q : P} (h : Group engine ts q rest) :
    rest.length < ts.length := by
  cases h with
  | intro =>
    simp only [List.length_cons, List.length_append]
    omega

lemma Simple.length_lt {x : SelectorPart P} (h : Simple ts x rest) : rest.length < ts.length := by
  cases h <;> simp only [List.length_cons] <;> omega

lemma Parts.length_le {engine : PredicateEngine P} {filtered filtered' : Bool}
    {ps : List (SelectorPart P)} (h : Parts engine filtered ts ps filtered' rest) :
    rest.length ≤ ts.length := by
  induction h with
  | done => exact Nat.le_refl _
  | blank _ _ ih => exact Nat.le_succ_of_le ih
  | simple h _ ih => exact Nat.le_trans ih (Nat.le_of_lt h.length_lt)
  | narrowing h _ ih => exact Nat.le_trans ih (Nat.le_of_lt h.length_lt)
  | widening _ hblanks h _ ih =>
    have hblanks := hblanks.length_le
    have h := h.length_lt
    simp only [List.length_cons]
    omega

lemma Selectors.length_lt {engine : PredicateEngine P} {ss : List (Selector P)}
    (h : Selectors engine ts ss rest) : rest.length < ts.length := by
  induction h with
  | last hps => exact hps.length_le
  | more hps _ _ _ _ _ ih => exact Nat.lt_trans ih hps.length_le

lemma Body.length_lt {d : Dialect P} {decls : List (String × Value)} {rs : List (Rule P)}
    (h : Body d ts decls rs ws rest) : rest.length < ts.length := by
  induction h with
  | done => exact Nat.lt_succ_self _
  | blank _ _ ih => exact Nat.lt_succ_of_lt ih
  | declaration h _ ih => exact Nat.lt_trans ih h.length_lt
  | rule _ _ hselectors _ _ _ ih ih' => exact Nat.lt_trans ih' (Nat.lt_trans ih hselectors.length_lt)

end

end Grammar

end MapStyle
