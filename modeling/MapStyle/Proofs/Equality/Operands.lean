import MapStyle.Cql.Expr
import MapStyle.Proofs.Decimals.Shortest
import MapStyle.Proofs.Printing.Expression

/-!
# Operands with the same text

The text of an operand tells its kind, if names and colours are written without escapes: strings stand between
quotes, colours begin with `#`, and names do not look like numbers. Operands with the same text have the same
value on every candidate, or numbers that compare in the same way (`Operand.agrees_of_display`).
-/

namespace MapStyle

open Decimal

/-! ### Values that cannot be told apart -/

namespace Literal

/-- The truth value that a value is. -/
def asBool? : Literal → Option Bool
  | boolean b => some b
  | _ => none

/-- Comparing two values looks at nothing but their views as numbers, as truth values and as texts. -/
lemma compare?_eq (l r : Literal) : l.compare? r =
    match l.asFloat?, r.asFloat? with
    | some x, some y =>
      if x < y then some .lt else if x == y then some .eq else if y < x then some .gt else none
    | _, _ =>
      match l.asBool?, r.asBool? with
      | some a, some b => some (compare a b)
      | _, _ =>
        match l.asText?, r.asText? with
        | some s, some t => some (compare s t)
        | _, _ => none := by
  cases l <;> cases r <;> rfl

/-- Values with the same text and the same views. -/
structure Agrees (l m : Literal) : Prop where
  display_eq : l.display = m.display
  asFloat?_eq : l.asFloat? = m.asFloat?
  asBool?_eq : l.asBool? = m.asBool?
  asText?_eq : l.asText? = m.asText?

variable {l m l' m' : Literal}

lemma Agrees.refl (l : Literal) : l.Agrees l :=
  ⟨rfl, rfl, rfl, rfl⟩

lemma Agrees.compare? (h : l.Agrees l') (h' : m.Agrees m') : l.compare? m = l'.compare? m' := by
  rw [compare?_eq, compare?_eq, h.asFloat?_eq, h.asBool?_eq, h.asText?_eq, h'.asFloat?_eq, h'.asBool?_eq,
    h'.asText?_eq]

lemma agrees_integer_float {n : Int64} {x : Float} (h : display (integer n) = display (float x)) :
    (integer n).Agrees (float x) := by
  have hlt : n.toInt.natAbs < 2 ^ 64 := by
    have hmin : -2 ^ 63 ≤ n.toInt := n.minValue_le_toInt
    have hmax : n.toInt ≤ 2 ^ 63 - 1 := n.toInt_le
    omega
  have hfloat := ofInt_eq_of_text hlt h.symm
  exact ⟨h, congrArg some hfloat, rfl, rfl⟩

/-- Numbers with the same text agree. -/
lemma agrees_of_isNumeric (hl : l.isNumeric) (hm : m.isNumeric) (h : l.display = m.display) : l.Agrees m := by
  cases l with
  | integer n =>
    cases m with
    | integer k =>
      have hread := congrArg readInt? (congrArg String.toList h)
      rw [display, display, readInt?_toString, readInt?_toString, Option.some_inj, Int64.toInt_inj] at hread
      exact hread ▸ .refl _
    | float y => exact agrees_integer_float h
    | _ => cases hm
  | float x =>
    cases m with
    | integer k =>
      obtain ⟨hdisplay, hfloat, hbool, htext⟩ := agrees_integer_float h.symm
      exact ⟨hdisplay.symm, hfloat.symm, hbool.symm, htext.symm⟩
    | float y => exact text_injective h ▸ .refl _
    | _ => cases hm
  | _ => cases hl

end Literal

/-! ### Texts without escapes -/

/-- A name that stands for itself: it starts like a name and has no character that would be escaped. -/
structure IsBareName (w : List Char) : Prop where
  starts : Lexeme.startsName w
  isNameChar : ∀ c ∈ w, Lexeme.isNameChar c

section

open Lexeme

lemma startsDigits_cons {d : Char} (hd : d.isDigit) (cs : List Char) : startsDigits (d :: cs) := by
  unfold startsDigits
  split
  · next heq =>
    rw [(List.cons.inj heq).1] at hd
    cases hd
  · next heq => rwa [← (List.cons.inj heq).1]
  · next heq => cases heq

lemma startsNumber_of_startsDigits {cs : List Char} (h : startsDigits cs) : startsNumber cs := by
  unfold startsNumber
  split
  · cases h
  · cases h
  · exact h

lemma startsDigits_of_mantissa {whole fraction mantissa : List Char} (h : Mantissa whole fraction mantissa)
    (cs : List Char) : startsDigits (mantissa ++ cs) := by
  cases h with
  | plain h =>
    obtain ⟨d, ds, rfl⟩ := List.exists_cons_of_ne_nil h.ne_nil
    exact startsDigits_cons (h.isDigit d List.mem_cons_self) _
  | pointed h =>
    cases whole with
    | nil =>
      obtain ⟨d, ds, rfl⟩ := List.exists_cons_of_ne_nil h.ne_nil
      exact h.isDigit d List.mem_cons_self
    | cons d ds => exact startsDigits_cons (h.isDigit d List.mem_cons_self) _

/-- A numeral starts like a number. -/
lemma startsNumber_of_writes {cs : List Char} {n : Numeral} (h : Writes cs n) : startsNumber cs := by
  obtain ⟨hmantissa, -, hsign⟩ := h
  have hdigits := startsDigits_of_mantissa hmantissa
  cases hsign with
  | bare => exact startsNumber_of_startsDigits (hdigits _)
  | plus => exact hdigits _
  | minus => exact hdigits _

end

lemma IsBareName.ne_nil {w : List Char} (hw : IsBareName w) : w ≠ [] := by
  rintro rfl
  cases hw.starts

lemma IsBareName.not_writes {w : List Char} (hw : IsBareName w) (n : Numeral) : ¬ Writes w n := by
  intro h
  obtain ⟨c, w, rfl⟩ := List.exists_cons_of_ne_nil h.ne_nil
  exact Lexeme.not_startsNumber_of_startsName hw.starts (startsNumber_of_writes h)

namespace Cql

/-- An operand that is written without escapes, and that is not called like an infinite number. -/
def Operand.IsUnescaped : Operand → Prop
  | .reference name => IsBareName name.toList ∧ name ≠ "inf" ∧ name ≠ "-inf"
  | .literal (.color s) => ∀ c ∈ s.toList.tail, Lexeme.isNameChar c
  | .literal _ => True

/-- What the engine reads as an operand, if it is written without escapes: names are not the words for the two
truth values, numbers are numbers, and colours begin with `#`. -/
inductive Operand.IsLegible : Operand → Prop
  | reference {name : String} (hname : IsBareName name.toList) (htrue : ¬ Text.sameWord name "true")
      (hfalse : ¬ Text.sameWord name "false") (hinfinite : name ≠ "inf" ∧ name ≠ "-inf") :
      IsLegible (.reference name)
  | integer (n : Int64) : IsLegible (.literal (.integer n))
  | float {x : Float} (hx : Decoded.ofFloat x ≠ .notANumber) : IsLegible (.literal (.float x))
  | boolean (b : Bool) : IsLegible (.literal (.boolean b))
  | string (s : String) : IsLegible (.literal (.string s))
  | color {s : String} {w : List Char} (hs : s.toList = '#' :: w) (hw : ∀ c ∈ w, Lexeme.isNameChar c) :
      IsLegible (.literal (.color s))

/-! ### Kinds of operands -/

/-- The kinds of operands that a text tells apart. -/
inductive Kind where
  | attribute | number | truth | string | color
deriving DecidableEq

/-- The kind of an operand. -/
def Operand.kind : Operand → Kind
  | .reference _ => .attribute
  | .literal (.integer _) | .literal (.float _) => .number
  | .literal (.boolean _) => .truth
  | .literal (.string _) => .string
  | .literal (.color _) => .color

/-- The kind that a text tells. -/
def Kind.ofText (s : String) : Kind :=
  if s.toList.head? = some '\'' then .string
  else if s.toList.head? = some '#' then .color
  else if s = "TRUE" ∨ s = "FALSE" then .truth
  else if (Numeral.read? s.toList).isSome ∨ s = "inf" ∨ s = "-inf" then .number
  else .attribute

/-- The text of a number is a numeral, or a word for an infinite number. -/
lemma Operand.IsLegible.writes_or_infinite {o : Operand} (h : o.IsLegible) (hnumber : o.kind = .number) :
    (∃ n, Writes o.display.toList n) ∨ o.display = "inf" ∨ o.display = "-inf" := by
  cases h with
  | integer n => exact .inl (readInt?_eq_some_iff.mp (Literal.readInt?_toString n.toInt)).writes
  | @float x hx =>
    cases hdecoded : Decoded.ofFloat x with
    | notANumber => exact absurd hdecoded hx
    | infinite negative =>
      have htext : text x = if negative then "-inf" else "inf" := by rw [text, hdecoded]
      cases negative
      · exact .inr (.inl htext)
      · exact .inr (.inr htext)
    | finite negative y =>
      obtain ⟨n, hn, -⟩ := exists_writes_text hdecoded
      exact .inl ⟨n, hn⟩
  | _ => cases hnumber

namespace Kind

lemma ofText_of_writes {s : String} {n : Numeral} (h : Writes s.toList n) : ofText s = .number := by
  have hchar (c : Char) (hc : ¬ isNumeralChar c) : c ∉ s.toList := fun hmem => hc (h.isNumeralChar c hmem)
  have hquote : s.toList.head? ≠ some '\'' := fun hhead => hchar _ (by decide) (List.mem_of_head? hhead)
  have hhash : s.toList.head? ≠ some '#' := fun hhead => hchar _ (by decide) (List.mem_of_head? hhead)
  have htruth : ¬ (s = "TRUE" ∨ s = "FALSE") := by
    rintro (rfl | rfl)
    · exact hchar 'T' (by decide) (by decide)
    · exact hchar 'F' (by decide) (by decide)
  rw [ofText, if_neg hquote, if_neg hhash, if_neg htruth, if_pos]
  exact .inl (Option.isSome_iff_exists.mpr ⟨n, read?_eq_some_iff.mpr h⟩)

lemma ofText_name {name : String} (hname : IsBareName name.toList) (htrue : ¬ Text.sameWord name "true")
    (hfalse : ¬ Text.sameWord name "false") (hinfinite : name ≠ "inf" ∧ name ≠ "-inf") :
    ofText name = .attribute := by
  have hchar (c : Char) (hc : ¬ Lexeme.isNameChar c) : c ∉ name.toList :=
    fun hmem => hc (hname.isNameChar c hmem)
  have hquote : name.toList.head? ≠ some '\'' := fun hhead => hchar _ (by decide) (List.mem_of_head? hhead)
  have hhash : name.toList.head? ≠ some '#' := fun hhead => hchar _ (by decide) (List.mem_of_head? hhead)
  have htruth : ¬ (name = "TRUE" ∨ name = "FALSE") := by
    rintro (rfl | rfl)
    · exact htrue (by rw [Text.sameWord_eq]; decide)
    · exact hfalse (by rw [Text.sameWord_eq]; decide)
  have hread : Numeral.read? name.toList = none :=
    Option.eq_none_iff_forall_not_mem.mpr fun n hn => hname.not_writes n (read?_eq_some_iff.mp hn)
  rw [ofText, if_neg hquote, if_neg hhash, if_neg htruth, if_neg]
  simp [hread, hinfinite]

lemma ofText_number {o : Operand} (h : o.IsLegible) (hnumber : o.kind = .number) :
    ofText o.display = .number := by
  obtain ⟨n, hn⟩ | htext | htext := h.writes_or_infinite hnumber
  · exact ofText_of_writes hn
  · rw [htext]
    decide +kernel
  · rw [htext]
    decide +kernel

/-- The text of a legible operand tells its kind. -/
lemma ofText_display {o : Operand} (h : o.IsLegible) : ofText o.display = o.kind := by
  cases h with
  | reference hname htrue hfalse hinfinite => exact ofText_name hname htrue hfalse hinfinite
  | integer n => exact ofText_number (.integer n) rfl
  | float hx => exact ofText_number (.float hx) rfl
  | boolean b => cases b <;> decide +kernel
  | string s =>
    refine if_pos ?_
    rw [Operand.display, toList_quote_eq]
    rfl
  | @color s w hs hw =>
    have hhead : (Operand.literal (.color s)).display.toList.head? = some '#' := congrArg List.head? hs
    have hquote : (Operand.literal (.color s)).display.toList.head? ≠ some '\'' := by
      rw [hhead]
      decide
    rw [ofText, if_neg hquote, if_pos hhead]
    rfl

end Kind

/-! ### Where an operand ends -/

/-- A text before which an operand ends: it is empty or goes on with a blank or a closing parenthesis. -/
def EndsOperand (r : List Char) : Prop :=
  ∀ c ∈ r.head?, c = ' ' ∨ c = ')'

/-- A character of an operand that is no string. -/
def isSolid (c : Char) : Bool :=
  c != ' ' && c != '(' && c != ')' && c != '\''

variable {r r' : List Char} {o p : Operand}

lemma doubled_cons (c : Char) (s : List Char) :
    Lexeme.doubled (c :: s) =
      if c = '\'' then '\'' :: '\'' :: Lexeme.doubled s else c :: Lexeme.doubled s := by
  rw [Lexeme.doubled, List.flatMap_cons]
  split <;> rfl

/-- Behind doubled quotes, a single one ends the string. -/
lemma quote_append_ne_doubled_cons {c : Char} (s : List Char) (hr : r.head? ≠ some '\'') :
    '\'' :: r ≠ Lexeme.doubled (c :: s) ++ '\'' :: r' := by
  rw [doubled_cons]
  intro h
  split at h
  · rw [(List.cons.inj h).2] at hr
    exact hr rfl
  · next hc => exact hc (List.cons.inj h).1.symm

/-- Two strings between quotes at the front of a text are the same. -/
lemma doubled_append_inj {s t : List Char} (hr : r.head? ≠ some '\'') (hr' : r'.head? ≠ some '\'')
    (h : Lexeme.doubled s ++ '\'' :: r = Lexeme.doubled t ++ '\'' :: r') : s = t ∧ r = r' := by
  induction s generalizing t with
  | nil =>
    cases t with
    | nil => exact ⟨rfl, (List.cons.inj h).2⟩
    | cons d t => exact absurd h (quote_append_ne_doubled_cons t hr)
  | cons c s ih =>
    cases t with
    | nil => exact absurd h.symm (quote_append_ne_doubled_cons s hr')
    | cons d t =>
      obtain ⟨rfl, htail⟩ : c = d ∧ Lexeme.doubled s ++ '\'' :: r = Lexeme.doubled t ++ '\'' :: r' := by
        rw [doubled_cons, doubled_cons] at h
        split_ifs at h with hc hd hd
        · exact ⟨hc.trans hd.symm, (List.cons.inj (List.cons.inj h).2).2⟩
        · exact absurd (List.cons.inj h).1.symm hd
        · exact absurd (List.cons.inj h).1 hc
        · exact ⟨(List.cons.inj h).1, (List.cons.inj h).2⟩
      obtain ⟨rfl, hrest⟩ := ih htail
      exact ⟨rfl, hrest⟩

lemma quote_injective : Function.Injective Operand.quote := by
  intro s t h
  have hlist := congrArg String.toList h
  rw [toList_quote_eq, toList_quote_eq, List.cons_inj_right] at hlist
  have hend : ([] : List Char).head? ≠ some '\'' := nofun
  exact String.toList_inj.mp (doubled_append_inj hend hend hlist).1

/-- Solid are the characters of a kind that none of the four others is of. -/
lemma isSolid_of {p : Char → Bool} {c : Char} (hp : ∀ d, d = ' ' ∨ d = '(' ∨ d = ')' ∨ d = '\'' → ¬ p d)
    (h : p c) : isSolid c := by
  have hne (d : Char) (hd : d = ' ' ∨ d = '(' ∨ d = ')' ∨ d = '\'') : c ≠ d := by
    rintro rfl
    exact hp c hd h
  simp [isSolid, hne]

lemma isSolid_of_isNameChar {c : Char} (h : Lexeme.isNameChar c) : isSolid c :=
  isSolid_of (by rintro d (rfl | rfl | rfl | rfl) <;> decide) h

lemma isSolid_of_isNumeralChar {c : Char} (h : isNumeralChar c) : isSolid c :=
  isSolid_of (by rintro d (rfl | rfl | rfl | rfl) <;> decide) h

lemma Operand.IsLegible.solid_number (h : o.IsLegible) (hnumber : o.kind = .number) :
    o.display.toList ≠ [] ∧ ∀ c ∈ o.display.toList, isSolid c := by
  obtain ⟨n, hn⟩ | htext | htext := h.writes_or_infinite hnumber
  · exact ⟨hn.ne_nil, fun c hc => isSolid_of_isNumeralChar (hn.isNumeralChar c hc)⟩
  · rw [htext]
    exact ⟨by decide, List.all_eq_true.mp (by decide +kernel)⟩
  · rw [htext]
    exact ⟨by decide, List.all_eq_true.mp (by decide +kernel)⟩

/-- The text of a legible operand that is no string has no blank, parenthesis or quote in it. -/
lemma Operand.IsLegible.solid (h : o.IsLegible) (hstring : o.kind ≠ .string) :
    o.display.toList ≠ [] ∧ ∀ c ∈ o.display.toList, isSolid c := by
  cases h with
  | reference hname =>
    exact ⟨hname.ne_nil, fun c hc => isSolid_of_isNameChar (hname.isNameChar c hc)⟩
  | integer n => exact solid_number (.integer n) rfl
  | float hx => exact solid_number (.float hx) rfl
  | boolean b => cases b <;> exact ⟨by decide, List.all_eq_true.mp (by decide +kernel)⟩
  | string s => exact absurd rfl hstring
  | @color s w hs hw =>
    show s.toList ≠ [] ∧ ∀ c ∈ s.toList, isSolid c
    rw [hs]
    refine ⟨List.cons_ne_nil _ _, List.forall_mem_cons.mpr ⟨by decide, ?_⟩⟩
    exact fun c hc => isSolid_of_isNameChar (hw c hc)

/-- Two runs of solid characters at the front of a text are the same. -/
lemma solid_append_inj {w w' : List Char} (hw : ∀ c ∈ w, isSolid c) (hw' : ∀ c ∈ w', isSolid c)
    (hr : EndsOperand r) (hr' : EndsOperand r') (h : w ++ r = w' ++ r') : w = w' ∧ r = r' := by
  have htake {w r : List Char} (hw : ∀ c ∈ w, isSolid c) (hr : EndsOperand r) :
      (w ++ r).takeWhile isSolid = w := by
    rw [List.takeWhile_append_of_pos hw]
    cases r with
    | nil => exact List.append_nil w
    | cons c r =>
      have hc : ¬ isSolid c := by
        obtain rfl | rfl := hr c rfl <;> decide
      rw [List.takeWhile_cons_of_neg hc, List.append_nil]
  obtain rfl : w = w' := by rw [← htake hw hr, h, htake hw' hr']
  exact ⟨rfl, List.append_cancel_left h⟩

lemma EndsOperand.head?_ne (hr : EndsOperand r) : r.head? ≠ some '\'' := by
  intro hhead
  obtain h | h := hr _ hhead <;> cases h

lemma Operand.exists_string (h : o.kind = .string) : ∃ s, o = .literal (.string s) := by
  match o with
  | .literal (.string s) => exact ⟨s, rfl⟩

/-- Operands that are no strings begin with a solid character. -/
lemma Operand.IsLegible.append_ne_cons (ho : o.IsLegible) (hstring : o.kind ≠ .string) {c : Char}
    (hc : ¬ isSolid c) (cs : List Char) : o.display.toList ++ r ≠ c :: cs := by
  obtain ⟨hne, hsolid⟩ := ho.solid hstring
  obtain ⟨d, w, hw⟩ := List.exists_cons_of_ne_nil hne
  rw [hw, List.cons_append]
  intro heq
  exact hc ((List.cons.inj heq).1 ▸ hsolid d (hw ▸ List.mem_cons_self))

lemma toList_display_string (s : String) : (Operand.literal (.string s)).display.toList =
    '\'' :: (Lexeme.doubled s.toList ++ ['\'']) :=
  toList_quote_eq s

/-- No operand begins with a parenthesis. -/
lemma Operand.IsLegible.append_ne_paren (ho : o.IsLegible) (cs : List Char) :
    o.display.toList ++ r ≠ '(' :: cs := by
  by_cases hstring : o.kind = .string
  · obtain ⟨s, rfl⟩ := exists_string hstring
    rw [toList_display_string, List.cons_append]
    intro heq
    cases (List.cons.inj heq).1
  · exact ho.append_ne_cons hstring (by decide) cs

/-- Legible operands at the front of a text have the same text. -/
theorem Operand.IsLegible.append_inj (ho : o.IsLegible) (hp : p.IsLegible) (hr : EndsOperand r)
    (hr' : EndsOperand r') (h : o.display.toList ++ r = p.display.toList ++ r') :
    o.display = p.display ∧ r = r' := by
  have hquoted (s : String) (r : List Char) : (Operand.literal (.string s)).display.toList ++ r =
      '\'' :: (Lexeme.doubled s.toList ++ '\'' :: r) := by
    rw [toList_display_string, List.cons_append, List.append_assoc, List.singleton_append]
  by_cases hstring : o.kind = .string <;> by_cases hstring' : p.kind = .string
  · obtain ⟨s, rfl⟩ := exists_string hstring
    obtain ⟨t, rfl⟩ := exists_string hstring'
    rw [hquoted, hquoted] at h
    obtain ⟨htext, hrest⟩ := doubled_append_inj hr.head?_ne hr'.head?_ne (List.cons.inj h).2
    exact ⟨by rw [String.toList_inj.mp htext], hrest⟩
  · obtain ⟨s, rfl⟩ := exists_string hstring
    exact absurd (h.symm.trans (hquoted s r)) (hp.append_ne_cons hstring' (by decide) _)
  · obtain ⟨t, rfl⟩ := exists_string hstring'
    exact absurd (h.trans (hquoted t r')) (ho.append_ne_cons hstring (by decide) _)
  · obtain ⟨htext, hrest⟩ := solid_append_inj (ho.solid hstring).2 (hp.solid hstring').2 hr hr' h
    exact ⟨String.toList_inj.mp htext, hrest⟩

/-! ### What an operand is -/

/-- Operands with the same value on every candidate, or with literals that cannot be told apart. -/
inductive Operand.Agrees : Operand → Operand → Prop
  | reference (name : String) : Agrees (.reference name) (.reference name)
  | literal {l m : Literal} (h : l.Agrees m) : Agrees (.literal l) (.literal m)

/-- Legible operands with the same text agree. -/
theorem Operand.agrees_of_display (ho : o.IsLegible) (hp : p.IsLegible)
    (h : o.display = p.display) : o.Agrees p := by
  -- the text tells the kind, and within a kind the operand
  have hkind : o.kind = p.kind := by rw [← Kind.ofText_display ho, ← Kind.ofText_display hp, h]
  cases ho with
  | @reference name =>
    cases hp with
    | reference =>
      obtain rfl : name = _ := h
      exact .reference name
    | _ => cases hkind
  | integer n =>
    cases hp with
    | integer | float => exact .literal (Literal.agrees_of_isNumeric rfl rfl h)
    | _ => cases hkind
  | float hx =>
    cases hp with
    | integer | float => exact .literal (Literal.agrees_of_isNumeric rfl rfl h)
    | _ => cases hkind
  | boolean b =>
    cases hp with
    | boolean b' =>
      obtain rfl : b = b' := by cases b <;> cases b' <;> first | rfl | exact absurd h (by decide)
      exact .literal (.refl _)
    | _ => cases hkind
  | string s =>
    cases hp with
    | string t =>
      obtain rfl : s = t := quote_injective h
      exact .literal (.refl _)
    | _ => cases hkind
  | @color s =>
    cases hp with
    | color =>
      obtain rfl : s = _ := h
      exact .literal (.refl _)
    | _ => cases hkind

end Cql

end MapStyle
