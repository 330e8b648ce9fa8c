import MapStyle.Proofs.Evaluation.Presence
import MapStyle.Proofs.Numbers.Brackets
import MapStyle.Proofs.Reading.Opened

/-!
# What becomes of the numbers of a stylesheet

Each numeric token of an accepted stylesheet is text of a filter or stands in a declaration, as one of
its values or as an argument of a call among them. In a declaration it is read as one literal, which
goes into the value that the key has in the stylesheet.
-/

namespace MapStyle

open Grammar

variable {P : Type}

lemma Literal.isNumeric_of_parseNumber? {text : String} {l : Literal} (h : parseNumber? text = some l) :
    l.isNumeric := by
  unfold parseNumber? at h
  dsimp only at h
  split at h
  · cases h
    rfl
  · obtain ⟨n, -, rfl⟩ := Option.map_eq_some_iff.mp h
    rfl

/-- A number is read as what it stands for, or as its text if it stands for nothing. -/
lemma Token.numberLiteral_spec {t : Token} (hnumber : t.kind = .number) :
    if t.isRefusedNumber then t.numberLiteral = .string t.text
    else Literal.parseNumber? (Text.dropEnding "px" t.text) = some t.numberLiteral ∧
      t.numberLiteral.isNumeric := by
  cases hparse : Literal.parseNumber? (Text.dropEnding "px" t.text) with
  | none => simp [isRefusedNumber, numberLiteral, hnumber, hparse]
  | some l => simp [isRefusedNumber, numberLiteral, hparse, Literal.isNumeric_of_parseNumber? hparse]

/-- An open block of a reader becomes a block of the stylesheet, with a value declared for a key in it and
with what is declared behind that. -/
def Sheet.Holds (policy : DuplicateKeys) (s : Sheet P) (m : Machine P) (key : String) (v : Value) :
    Prop :=
  match m.fragments with
  | [] => False
  | .rule r :: _ => ∃ q ∈ s.rules, q.Somewhere fun q => ∃ later nested,
    q = Machine.extend policy { r with properties := policy.declare key v r.properties } later nested
  | .map block :: _ => ∃ later, ∃ blocks : List Properties, s.map = blocks.foldl policy.join
    (policy.join m.map (policy.declareAll later (policy.declare key v block)))

namespace Machine

variable {d : Dialect P} {p : Parsed P} {m n m' : Machine P} {mode : Mode} {key : String}
  {vs : List Value} {v : Value} {ws : List Warning} {t : Token} {ts us back front : List Token}

/-! ### Up to a number -/

/-- To show something of a state and the tokens that are left, it may be supposed of what one step of the
reader leads to. -/
theorem advance_induction {motive : Machine P → List Token → Prop}
    (next : ∀ m ts, (∀ m' ts', m.control ≠ [] → advance d m ts = .ok (m', ts') → motive m' ts') →
      motive m ts) (m : Machine P) (ts : List Token) : motive m ts := by
  induction m, ts using read_induction (d := d) with
  | done m ts hcontrol => exact next m ts fun _ _ hne _ => absurd hcontrol hne
  | ends m mode below hcontrol hopened ih =>
    refine next m [] fun m' ts' _ hadvance => ?_
    rw [advance_nil hcontrol hopened, Token.map_eq_ok_iff] at hadvance
    obtain ⟨_, hend, heq⟩ := hadvance
    cases heq
    exact ih hend
  | steps m mode below t ts hcontrol hopened ih =>
    refine next m (t :: ts) fun m' ts' _ hadvance => ?_
    rw [advance_cons hcontrol hopened, Token.map_eq_ok_iff] at hadvance
    obtain ⟨o, hstep, heq⟩ := hadvance
    obtain ⟨rfl, rfl⟩ := Prod.mk.inj heq
    exact ih o hstep
  | opens m below ts hcontrol hunopened ih =>
    refine next m ts fun m' ts' _ hadvance => ih m' ts' ?_
    rwa [advance_of_unopened hcontrol hunopened] at hadvance

lemma exists_advance (hread : read d m ts = .ok p) :
    ∃ m' ts', advance d m ts = .ok (m', ts') ∧ read d m' ts' = .ok p := by
  rw [read_advance] at hread
  cases hadvance : advance d m ts with
  | error e =>
    rw [hadvance] at hread
    cases hread
  | ok next =>
    rw [hadvance] at hread
    exact ⟨next.1, next.2, rfl, hread⟩

lemma eq_nil_of_aligned {context : List (Frame P)} {fragments : List (Fragment P)}
    (h : Aligned [] context fragments ts) : ts = [] := by
  cases h with
  | done => rfl
  | nest h => cases h

/-- A good reading comes to each number, and is then inside brackets if the number is. -/
lemma exists_reaches_number (hread : read d m us = .ok p)
    (halign : Aligned m.control m.context m.fragments us) (hus : us = front ++ t :: back)
    (hnumber : t.kind = .number) :
    ∃ n, Reaches d m us n (t :: back) ∧ n.inBrackets = front.foldl Token.bracketBehind m.inBrackets := by
  induction m, us using advance_induction (d := d) generalizing front with
  | next m us ih =>
    have hcontrol : m.control ≠ [] := by
      intro hnil
      rw [hnil] at halign
      rw [eq_nil_of_aligned halign] at hus
      simp at hus
    obtain ⟨m', us', hadvance, hread'⟩ := exists_advance hread
    have halign' := aligned_advance halign hadvance
    obtain ⟨more, hmore, hbrackets, htaken⟩ := inBrackets_advance halign hadvance
    obtain ⟨others, rfl, hus'⟩ | ⟨others, rfl, hback⟩ :=
      List.append_eq_append_iff.mp (hmore.symm.trans hus)
    · obtain ⟨n, hreaches, hn⟩ := ih m' us' hcontrol hadvance hread' halign' hus'
      refine ⟨n, .head hadvance hreaches, ?_⟩
      rw [hn, hbrackets, List.foldl_append]
    · cases others with
      | nil =>  -- the step ends right in front of the number
        rw [List.append_nil] at hbrackets
        obtain rfl : t :: back = us' := hback
        exact ⟨m', .single hadvance, hbrackets⟩
      | cons u others =>
        obtain ⟨rfl, rfl⟩ := List.cons.inj hback
        have hone := htaken t (by simp) hnumber
        have hfront : front = [] := by
          cases front with
          | nil => rfl
          | cons x front => simp at hone
        subst hfront
        exact ⟨m, hus ▸ .refl, rfl⟩

/-! ### At a number -/

variable {control : List Mode} {context : List (Frame P)} {fragments : List (Fragment P)}
  {rules : List (Rule P)} {map : Properties} {decl : Declaration} {c : OpenCall}

/-- No rule and no selector goes on with a number, and neither does the top level or a `Map` block. -/
lemma not_accepts_number (hnumber : t.kind = .number)
    (hmode : mode = .root ∨ mode = .rule ∨ mode = .map)
    (hopened : mode = .map → inMapBody ⟨mode :: control, context, fragments, rules, map, ws, {}⟩) :
    ¬ Accepts d p (mode :: control) context fragments rules map ws (t :: back) := by
  obtain ⟨kind, raw, text, location⟩ := t
  obtain rfl : kind = .number := hnumber
  rw [accepts_cons hopened]
  rcases hmode with rfl | rfl | rfl
  · simp [step, stepRoot, Token.isDelimiter, Token.isKeyword, Token.startsSelector]
  · simp only [step, stepRule, stepBody, stepSelector, stepSelectorPart]
    split
    · simp [Token.isDelimiter, Token.startsSelector]
    · split <;> simp [Token.isDelimiter]
  · simp [step, stepMap, Token.isWhitespace, Token.isDelimiter]

/-- Over a number, a declaration that has its colon goes on with one more value. -/
lemma accepts_declaration_number (hnumber : t.kind = .number) :
    Accepts d p (.declaration :: control) (.declaration decl :: context) fragments rules map ws (t :: back) ↔
      decl.separated ∧ Accepts d p (.declaration :: control)
        (.declaration { decl with values := decl.values ++ [.literal t.numberLiteral] } :: context)
        fragments rules map (ws ++ t.numberWarnings) back := by
  rw [accepts_cons (by rintro ⟨⟩)]
  simp [step, stepDeclaration, hnumber, readNumber_eq, pushValue, updateDeclaration, requireColon]

/-- Over a number, a call in which an argument may follow goes on with one more argument. -/
lemma accepts_call_number (hnumber : t.kind = .number) :
    Accepts d p (.call :: control) (.call c :: context) fragments rules map ws (t :: back) ↔
      c.expectsArgument ∧ Accepts d p (.call :: control)
        (.call { c with args := c.args ++ [.literal t.numberLiteral], expectsArgument := false } :: context)
        fragments rules map (ws ++ t.numberWarnings) back := by
  rw [accepts_cons (by rintro ⟨⟩)]
  simp [step, stepCall, stepArguments, hnumber, readNumber_eq, pushArgument, updateCall, requireArgument]

/-- The end of a call puts its value into a declaration that has its colon. -/
lemma separated_of_leads_closeCall {last : Location}
    (h : Leads d p .call (.declaration :: control) t ts
      ((closeCall d.functions ⟨.call :: .declaration :: control,
        .call c :: .declaration decl :: context, fragments, rules, map, ws, last⟩ t).map .close)) :
    decl.separated := by
  cases hv : d.functions.build c.name c.args <;>
    simp [closeCall, hv, pushValue, updateDeclaration, requireColon] at h
  exact h.2.1

/-- A call goes into a declaration that has its colon. -/
lemma separated_of_accepts_call
    (h : Accepts d p (.call :: .declaration :: control) (.call c :: .declaration decl :: context)
      fragments rules map ws ts) : decl.separated := by
  -- an accepted call comes to its parenthesis, and its value goes into the declaration behind the colon only
  induction hn : ts.length using Nat.strongRecOn generalizing ts c ws with
  | ind n ih =>
    subst hn
    cases ts with
    | nil =>
      rw [accepts_nil (by rintro ⟨⟩)] at h
      cases h.1
    | cons t ts =>
      have hlt := Nat.lt_succ_self ts.length
      rw [accepts_cons (by rintro ⟨⟩)] at h
      obtain ⟨kind, raw, text, location⟩ := t
      cases kind with
      | whitespace => exact ih _ hlt h rfl
      | functionStart | operator => cases h
      | delimiter =>
        simp only [step, stepCall, stepArguments, updateCall] at h
        split at h
        · simp only [map_ite, map_error, map_ok, leads_error_ite, leads_stay] at h
          exact ih _ hlt h.2 rfl
        split at h
        · next hbracket =>
          subst hbracket
          simp only [requireArgument, map_ite, map_error, map_ok, leads_ite_error, leads_enter] at h
          rw [and_congr_right (accepts_reference_of_call rfl)] at h
          obtain ⟨-, name, rest, hreference, h⟩ := h
          exact ih _ hreference.length_lt h rfl
        split at h
        · exact separated_of_leads_closeCall h
        · cases h
      | _ =>
        simp only [step, stepCall, stepArguments, readNumber_eq, pushArgument, updateCall, requireArgument,
          map_ite, map_error, map_ok, leads_ite_error, leads_stay] at h
        exact ih _ hlt h.2 rfl

/-- Where a number may be read: in the text of a filter, among the values of a declaration, and where an
argument of a call is to come. -/
inductive AtNumber : List Mode → List (Frame P) → List (Fragment P) → Prop
  | filter {control : List Mode} {context : List (Frame P)} {fragments : List (Fragment P)}
      (text : String) (opening : Token) : AtNumber control (.filterText text opening :: context) fragments
  | value {control : List Mode} {context : List (Frame P)} {fragments : List (Fragment P)}
      (h : Block control context fragments) (key : String) (vs : List Value) :
      AtNumber (.declaration :: control) (.declaration ⟨some key, true, vs⟩ :: context) fragments
  | argument {control : List Mode} {context : List (Frame P)} {fragments : List (Fragment P)}
      (h : Block control context fragments) (key : String) (vs : List Value) (name : String)
      (args : List Argument) (opening : Token) : AtNumber (.call :: .declaration :: control)
        (.call ⟨name, args, true, opening⟩ :: .declaration ⟨some key, true, vs⟩ :: context) fragments

/-- A number is accepted in these places only. -/
lemma atNumber_of_accepts (hnumber : t.kind = .number) (halign : Aligned control context fragments (t :: back))
    (h : Accepts d p control context fragments rules map ws (t :: back)) :
    AtNumber control context fragments := by
  have hdelimiter : ∀ text, ¬ t.isDelimiter text := by
    intro text
    simp [Token.isDelimiter, hnumber]
  cases halign with
  | nest hnest =>
    cases hnest with
    | top => exact absurd h (not_accepts_number hnumber (.inl rfl) (by rintro ⟨⟩))
    | rule => exact absurd h (not_accepts_number hnumber (.inr (.inl rfl)) (by rintro ⟨⟩))
  | map => exact absurd h (not_accepts_number hnumber (.inr (.inr rfl)) fun _ => rfl)
  | mapKeyword hkeyword => simp [Token.isKeyword, hnumber] at hkeyword
  | ruleBrace hbrace | mapBrace hbrace => exact absurd hbrace (hdelimiter _)
  | selectors => exact absurd h (not_accepts_number hnumber (.inr (.inl rfl)) (by rintro ⟨⟩))
  | filter hnest hframes =>
    cases hframes with
    | text text opening | commaText text opening => exact .filter text opening
    | none | comma =>  -- the number ends the filters, and stands where a part of a selector is to come
      rw [accepts_cons (by rintro ⟨⟩)] at h
      simp [step, stepFilter, Token.isWhitespace, hdelimiter, hnumber, atComma, dropFrame, nextSelector] at h
      exact absurd h (not_accepts_number hnumber (.inr (.inl rfl)) (by rintro ⟨⟩))
  | declarationKey _ hkey => cases hnumber.symm.trans hkey
  | @declaration _ _ _ decl _ hblock hkey =>
    have hseparated := ((accepts_declaration_number hnumber).mp h).1
    obtain ⟨key, separated, values⟩ := decl
    obtain ⟨key, rfl⟩ := Option.isSome_iff_exists.mp hkey
    obtain rfl : separated = true := hseparated
    exact .value hblock key values
  | callName _ _ hname => cases hnumber.symm.trans hname
  | @call _ _ _ decl call _ hblock hkey =>
    have hseparated := separated_of_accepts_call h
    have hexpects := ((accepts_call_number hnumber).mp h).1
    obtain ⟨key, separated, values⟩ := decl
    obtain ⟨name, args, expectsArgument, opening⟩ := call
    obtain ⟨key, rfl⟩ := Option.isSome_iff_exists.mp hkey
    obtain rfl : separated = true := hseparated
    obtain rfl : expectsArgument = true := hexpects
    exact .argument hblock key values name args opening
  | referenceBracket _ _ hbracket | argumentBracket _ _ hbracket => exact absurd hbracket (hdelimiter _)
  | reference | argument =>
    rw [accepts_cons (by rintro ⟨⟩)] at h
    simp [step, stepReference, Token.isWhitespace, hdelimiter, hnumber] at h

/-! ### Behind a number -/

/-- The block of a declaration becomes one of the sheet. -/
lemma holds_of_acceptsDeclared {v : Value} (hblock : Block m.control m.context m.fragments)
    (h : AcceptsDeclared d p m key v ws ts) : p.sheet.Holds d.duplicateKeys m key v := by
  obtain ⟨control, context, fragments, rules, map, warnings, last⟩ := m
  dsimp only at hblock
  cases hblock with
  | @rule control context fragments hnest r =>
    let outer : Machine P := ⟨control, context, fragments, rules, map, warnings, last⟩
    exact somewhere_of_acceptsBody (m := outer)
      (r := { r with properties := d.duplicateKeys.declare key v r.properties }) hnest
      (fun decls rs => .here ⟨decls, rs, rfl⟩) h
  | map block =>
    obtain ⟨later, ws', rest, -, htop⟩ := acceptsMap_iff.mp h
    obtain ⟨rs, blocks, ws'', -, -, rfl⟩ := acceptsTop_iff.mp htop
    exact ⟨later, blocks, rfl⟩

/-- Behind a value, a declaration is read to its end, and the sheet holds what its values make up. -/
lemma exists_holds_of_acceptsValues (hblock : Block control context m.fragments) (hvs : vs ≠ [])
    (h : AcceptsValues d p { m with control, context } key vs ws ts) :
    ∃ others ws' us rest v, Items d.functions ts others ws' us ∧ End us rest ∧
      Combined (vs ++ others) v ∧ p.sheet.Holds d.duplicateKeys m key v := by
  obtain ⟨others, ws', us, rest, v, hothers, hend, hv, hdeclared⟩ := (acceptsValues_iff hvs).mp h
  have hsheet := holds_of_acceptsDeclared (m := { m with control, context }) hblock hdeclared
  exact ⟨others, ws', us, rest, v, hothers, hend, hv, hsheet⟩

/-- Of arguments that start with a number the first is the number. -/
lemma exists_eq_cons_of_arguments {as : List Argument} {us : List Token} (hnumber : t.kind = .number)
    (h : Arguments (t :: ts) as ws us) : ∃ more, as = .literal t.numberLiteral :: more := by
  have hfirst {us vs : List Token} {a : Argument} {ws : List Warning} (hblanks : Blanks (t :: ts) us)
      (ha : Atom us a ws vs) : a = .literal t.numberLiteral := by
    cases hblanks with
    | none =>
      cases ha with
      | number => rfl
      | word hword => simp [Token.IsWord, hnumber] at hword
      | color hcolor => cases hnumber.symm.trans hcolor
      | reference href => simpa [Token.isDelimiter, hnumber] using href.isDelimiter
    | more hblank => simp [Token.isWhitespace, hnumber] at hblank
  cases h with
  | last hbefore ha => exact ⟨[], by rw [hfirst hbefore ha]⟩
  | more hbefore ha => exact ⟨_, by rw [hfirst hbefore ha]⟩

/-- Over a number, a reader goes on with a literal in the declaration at hand: as the next of its values, or
as the next argument of a call that becomes one. With the values in front of it and with those that are
read behind it, this makes the value of the declaration, which goes into the stylesheet. -/
inductive Enters (d : Dialect P) (s : Sheet P) (m n : Machine P) (t : Token) (back : List Token)
    (l : Literal) : Prop
  | value {below : List (Frame P)} {key : String} {vs others : List Value} {v : Value}
      {ws : List Warning} {us rest : List Token}
      (hbefore : m.context = .declaration ⟨some key, true, vs⟩ :: below)
      (hbehind : n.context = .declaration ⟨some key, true, vs ++ [.literal l]⟩ :: below)
      (hothers : Items d.functions back others ws us) (hend : End us rest)
      (hv : Combined (vs ++ .literal l :: others) v) (hsheet : s.Holds d.duplicateKeys m key v)
  | argument {below : List (Frame P)} {key name : String} {args more : List Argument} {opening : Token}
      {vs others : List Value} {w v : Value} {ws ws' : List Warning} {us us' rest : List Token}
      (hbefore : m.context =
        .call ⟨name, args, true, opening⟩ :: .declaration ⟨some key, true, vs⟩ :: below)
      (hbehind : n.context =
        .call ⟨name, args ++ [.literal l], false, opening⟩ :: .declaration ⟨some key, true, vs⟩ :: below)
      (hmore : Arguments (t :: back) (.literal l :: more) ws us)
      (hw : d.functions.build name (args ++ .literal l :: more) = .ok w)
      (hothers : Items d.functions us others ws' us') (hend : End us' rest)
      (hv : Combined (vs ++ w :: others) v) (hsheet : s.Holds d.duplicateKeys m key v)

/-- A number among the values of a declaration becomes one of them. -/
lemma enters_value (hnumber : t.kind = .number) (hblock : Block control context m.fragments)
    (hcontrol : m.control = .declaration :: control)
    (hcontext : m.context = .declaration ⟨some key, true, vs⟩ :: context)
    (hread : read d m (t :: back) = .ok p) :
    ∃ n, advance d m (t :: back) = .ok (n, back) ∧ Enters d p.sheet m n t back t.numberLiteral := by
  have hadvance : advance d m (t :: back) = _ := advance_cons hcontrol (by rintro ⟨⟩)
  rw [step, stepDeclaration, hnumber] at hadvance
  simp only [readNumber_eq, pushValue, updateDeclaration, hcontext, requireColon, if_pos, map_ok] at hadvance
  refine ⟨_, hadvance, ?_⟩
  have haccepts := (accepts_iff_read m _).mpr hread
  rw [hcontrol, hcontext] at haccepts
  obtain ⟨others, ws, us, rest, v, hothers, hend, hv, hsheet⟩ :=
    exists_holds_of_acceptsValues hblock (by simp) ((accepts_declaration_number hnumber).mp haccepts).2
  rw [List.append_assoc] at hv
  exact .value hcontext rfl hothers hend hv hsheet

/-- A number among the arguments of a call becomes one of them, and the call becomes a value. -/
lemma enters_argument {name : String} {args : List Argument} {opening : Token}
    (hnumber : t.kind = .number) (hblock : Block control context m.fragments)
    (hcontrol : m.control = .call :: .declaration :: control)
    (hcontext : m.context =
      .call ⟨name, args, true, opening⟩ :: .declaration ⟨some key, true, vs⟩ :: context)
    (hread : read d m (t :: back) = .ok p) :
    ∃ n, advance d m (t :: back) = .ok (n, back) ∧ Enters d p.sheet m n t back t.numberLiteral := by
  have hadvance : advance d m (t :: back) = _ := advance_cons hcontrol (by rintro ⟨⟩)
  rw [step, stepCall, hcontext] at hadvance
  simp only [stepArguments, hnumber, readNumber_eq, pushArgument, updateCall, requireArgument, if_pos,
    map_ok] at hadvance
  refine ⟨_, hadvance, ?_⟩
  have haccepts := (accepts_iff_read m _).mpr hread
  rw [hcontrol, hcontext] at haccepts
  have harguments : AcceptsArguments d p { m with control, context } key vs ⟨name, args, true, opening⟩
      m.warnings (t :: back) := haccepts
  obtain ⟨as, ws, us, w, has, hw, hvalues⟩ | ⟨-, u, rest, w, hblanks, hclose, -⟩ :=
    acceptsArguments_iff.mp harguments
  · obtain ⟨more, rfl⟩ := exists_eq_cons_of_arguments hnumber has
    obtain ⟨others, ws', us', rest, v, hothers, hend, hv, hsheet⟩ :=
      exists_holds_of_acceptsValues hblock (by simp) hvalues
    rw [List.append_assoc] at hv
    exact .argument hcontext rfl has hw hothers hend hv hsheet
  · cases hblanks with
    | none => simp [Token.isDelimiter, hnumber] at hclose
    | more hblank => simp [Token.isWhitespace, hnumber] at hblank

/-- At a number, an accepting reader is in the text of a filter, or the number enters a declaration. -/
lemma filterText_or_enters (hnumber : t.kind = .number)
    (halign : Aligned m.control m.context m.fragments (t :: back))
    (hread : read d m (t :: back) = .ok p) :
    if m.inBrackets then ∃ text opening below, m.context = .filterText text opening :: below
    else ∃ n, advance d m (t :: back) = .ok (n, back) ∧
      Enters d p.sheet m n t back t.numberLiteral := by
  have hat := atNumber_of_accepts hnumber halign ((accepts_iff_read m _).mpr hread)
  obtain ⟨control, context, fragments, rules, map, warnings, last⟩ := m
  dsimp only at hat
  cases hat with
  | filter text opening => exact ⟨text, opening, _, rfl⟩
  | value hblock => exact enters_value hnumber hblock rfl rfl hread
  | argument hblock => exact enters_argument hnumber hblock rfl rfl hread

end Machine

namespace Dialect

variable {d : Dialect P} {p : Parsed P} {ts : List Token}

/-- The warnings of an accepted stylesheet are about the numeric tokens outside square brackets that stand for
no number, in their order. Each number in brackets is read as text of a filter. Each other one enters the
declaration around it as one literal: its own text if there is a warning about it, else the number that
it stands for. -/
theorem numbers_of_parseTokens (h : d.parseTokens ts = .ok p) :
    p.warnings = ((Token.outside false ts).filter Token.isRefusedNumber).map Token.warning ∧
    ∀ front t back, ts = front ++ t :: back → t.kind = .number →
      ∃ m, Machine.Reaches d {} ts m (t :: back) ∧
        if Token.bracketed front then ∃ text opening below, m.context = .filterText text opening :: below
        else ∃ n l, Machine.advance d m (t :: back) = .ok (n, back) ∧
          Machine.Enters d p.sheet m n t back l ∧
          if t.isRefusedNumber then l = .string t.text
          else Literal.parseNumber? (Text.dropEnding "px" t.text) = some l ∧ l.isNumeric := by
  refine ⟨warnings_of_parseTokens h, fun front t back hts hnumber => ?_⟩
  rw [Machine.parseTokens_eq_read] at h
  obtain ⟨m, hreaches, hbrackets⟩ := Machine.exists_reaches_number h (.nest .top) hts hnumber
  have hplace := Machine.filterText_or_enters hnumber hreaches.aligned (hreaches.read_eq.trans h)
  refine ⟨m, hreaches, ?_⟩
  have hbracketed : m.inBrackets = Token.bracketed front := hbrackets
  rw [← hbracketed]
  split
  · next hin => rwa [if_pos hin] at hplace
  · next hout =>
    rw [if_neg hout] at hplace
    obtain ⟨n, hadvance, henters⟩ := hplace
    exact ⟨n, _, hadvance, henters, Token.numberLiteral_spec hnumber⟩

/-- The tokens of `[2]{width:3em;fill:rgb(4px,0,0)}`. -/
def widthTokens : List Token :=
  [⟨.delimiter, "[", "[", {}⟩, ⟨.number, "2", "2", {}⟩, ⟨.delimiter, "]", "]", {}⟩,
    ⟨.delimiter, "\x7b", "\x7b", {}⟩, ⟨.identifier, "width", "width", {}⟩, ⟨.delimiter, ":", ":", {}⟩,
    ⟨.number, "3em", "3em", {}⟩, ⟨.delimiter, ";", ";", {}⟩, ⟨.identifier, "fill", "fill", {}⟩,
    ⟨.delimiter, ":", ":", {}⟩, ⟨.functionStart, "rgb(", "rgb", {}⟩, ⟨.number, "4px", "4px", {}⟩,
    ⟨.delimiter, ",", ",", {}⟩, ⟨.number, "0", "0", {}⟩, ⟨.delimiter, ",", ",", {}⟩,
    ⟨.number, "0", "0", {}⟩, ⟨.delimiter, ")", ")", {}⟩, ⟨.delimiter, "\x7d", "\x7d", {}⟩]

/-- The number in brackets is text of a filter, the one with another unit is a word with a warning, and the one in
the call is its first argument. -/
theorem numbers_of_widthTokens :
    ∃ p, parseTokens { engine := Presence.parse } widthTokens = .ok p ∧ p.warnings = [⟨"3em", {}⟩] ∧
      (∃ m text opening below, Machine.Reaches { engine := Presence.parse } {} widthTokens m
        (widthTokens.drop 1) ∧ m.context = .filterText text opening :: below) ∧
      (∃ m n, Machine.Reaches { engine := Presence.parse } {} widthTokens m (widthTokens.drop 6) ∧
        Machine.Enters { engine := Presence.parse } p.sheet m n ⟨.number, "3em", "3em", {}⟩
          (widthTokens.drop 7) (.string "3em")) ∧
      ∃ m n, Machine.Reaches { engine := Presence.parse } {} widthTokens m (widthTokens.drop 11) ∧
        Machine.Enters { engine := Presence.parse } p.sheet m n ⟨.number, "4px", "4px", {}⟩
          (widthTokens.drop 12) (.integer 4) := by
  have hok : (parseTokens { engine := Presence.parse } widthTokens).isOk := by decide +kernel
  obtain ⟨p, hp⟩ := exists_eq_ok_of_isOk hok
  obtain ⟨hwarnings, hnumbers⟩ := numbers_of_parseTokens hp
  refine ⟨p, hp, hwarnings.trans (by decide +kernel), ?_, ?_, ?_⟩
  · obtain ⟨m, hreaches, hplace⟩ := hnumbers (widthTokens.take 1) _ _ rfl rfl
    rw [if_pos (by decide)] at hplace
    obtain ⟨text, opening, below, hcontext⟩ := hplace
    exact ⟨m, text, opening, below, hreaches, hcontext⟩
  · obtain ⟨m, hreaches, hplace⟩ := hnumbers (widthTokens.take 6) _ _ rfl rfl
    rw [if_neg (by decide)] at hplace
    obtain ⟨n, l, -, henters, hl⟩ := hplace
    rw [if_pos (by decide +kernel)] at hl
    exact ⟨m, n, hreaches, hl ▸ henters⟩
  · obtain ⟨m, hreaches, hplace⟩ := hnumbers (widthTokens.take 11) _ _ rfl rfl
    rw [if_neg (by decide)] at hplace
    obtain ⟨n, l, -, henters, hl⟩ := hplace
    rw [if_neg (by decide +kernel)] at hl
    have hfour : Literal.parseNumber? (Text.dropEnding "px" "4px") = some (.integer 4) := by rfl
    exact ⟨m, n, hreaches, Option.some.inj (hl.1.symm.trans hfour) ▸ henters⟩

end Dialect

end MapStyle
