import MapStyle.Lexeme.Basic
import MapStyle.Lexeme.Piece

/-!
# Cutting a text into lexemes

A text is cut from front to back, each time by the longest lexeme that its first characters allow.
The cutting never fails: what is malformed is a lexeme of its own. The main statement is that the
raw texts of the lexemes, joined, are the text (`flatMap_raw_ofText`).
-/

namespace MapStyle.Lexeme

/-! ### Escapes and names -/

/-- One blank, where a carriage return and a line feed count as one. -/
def oneBlank : List Char → Piece Unit
  | '\r' :: '\n' :: cs => ⟨(), ['\r', '\n'], cs⟩
  | c :: cs => if isSpace c then ⟨(), [c], cs⟩ else ⟨(), [], c :: cs⟩
  | [] => ⟨(), [], []⟩

@[simp] theorem source_oneBlank (cs : List Char) : (oneBlank cs).source = cs := by
  unfold oneBlank
  split
  · rfl
  · split <;> rfl
  · rfl

/-- The character behind a backslash: up to six hexadecimal digits and one blank, or any character
as itself. -/
def escape : List Char → Piece Char
  | [] => ⟨replacement, [], []⟩
  | c :: cs =>
    if isHexDigit c then
      let digits := ((c :: cs).takeWhile isHexDigit).take 6
      let code := digits.foldl (fun n d => 16 * n + hexValue d) 0
      ((oneBlank ((c :: cs).drop digits.length)).map fun _ => ofCodePoint code).after digits
    else ⟨if c = '\x00' then replacement else c, [c], cs⟩

theorem append_drop_of_prefix {u cs : List Char} (h : u <+: cs) : u ++ cs.drop u.length = cs := by
  obtain ⟨t, rfl⟩ := h
  simp

@[simp] theorem source_escape (cs : List Char) : (escape cs).source = cs := by
  unfold escape
  split
  · rfl
  · split
    · simp only [Piece.source_after, Piece.source_map, source_oneBlank]
      exact append_drop_of_prefix ((List.take_prefix _ _).trans (List.takeWhile_prefix _))
    · rfl

/-- Whether a text starts with a line break. -/
def startsNewline : List Char → Bool
  | c :: _ => isNewline c
  | [] => false

/-- Whether a text starts with a name. Behind a hyphen any backslash counts. -/
def startsName : List Char → Bool
  | ['-'] => false
  | '-' :: c :: _ => isNameStart c || c == '-' || c == '\\'
  | '\\' :: cs => !startsNewline cs
  | c :: _ => isNameStart c
  | [] => false

/-- The name at the front of a text, possibly empty, with its escapes replaced. -/
def name : List Char → Piece (List Char)
  | [] => ⟨[], [], []⟩
  | c :: cs =>
    if isNameChar c then ((name cs).map (c :: ·)).after [c]
    else if c = '\x00' then ((name cs).map (replacement :: ·)).after [c]
    else if c = '\\' && !startsNewline cs then
      let e := escape cs
      ((name e.rest).map (e.value :: ·)).after (c :: e.raw)
    else ⟨[], [], c :: cs⟩
termination_by cs => cs.length
decreasing_by
  all_goals simp_wf
  have := Piece.rest_length_le (source_escape cs)
  omega

@[simp] theorem source_name (cs : List Char) : (name cs).source = cs := by
  fun_induction name cs with
  | case1 => rfl
  | case2 c cs _ ih => simp [ih]
  | case3 cs _ ih => simp [ih]
  | case4 c cs _ _ _ e ih =>
    have := source_escape cs
    simp only [Piece.source_after, Piece.source_map, ih, List.cons_append]
    exact congrArg (c :: ·) this
  | case5 => rfl

/-! ### Strings, addresses and comments -/

/-- The text of a string up to its closing quote. A string that meets a line break is broken; one
that meets the end of the text is not. -/
def stringBody (quote : Char) : List Char → Piece (Bool × List Char)
  | [] => ⟨(true, []), [], []⟩
  | c :: cs =>
    if c = quote then ⟨(true, []), [c], cs⟩
    else if isNewline c then ⟨(false, []), [], c :: cs⟩
    else if c = '\\' then
      if cs.isEmpty then ⟨(true, []), [c], []⟩
      else if startsNewline cs then
        let b := oneBlank cs
        (stringBody quote b.rest).after (c :: b.raw)
      else
        let e := escape cs
        ((stringBody quote e.rest).map fun s => (s.1, e.value :: s.2)).after (c :: e.raw)
    else
      let shown := if c = '\x00' then replacement else c
      ((stringBody quote cs).map fun s => (s.1, shown :: s.2)).after [c]
termination_by cs => cs.length
decreasing_by
  all_goals simp_wf
  · have := Piece.rest_length_le (source_oneBlank cs)
    omega
  · have := Piece.rest_length_le (source_escape cs)
    omega

@[simp] theorem source_stringBody (quote : Char) (cs : List Char) :
    (stringBody quote cs).source = cs := by
  fun_induction stringBody quote cs with
  | case1 => rfl
  | case2 => rfl
  | case3 => rfl
  | case4 cs h => simp [List.isEmpty_iff.1 h]
  | case5 cs _ _ b _ _ ih =>
    have := source_oneBlank cs
    simp only [Piece.source_after, ih, List.cons_append]
    exact congrArg ('\\' :: ·) this
  | case6 cs _ _ e _ _ ih =>
    have := source_escape cs
    simp only [Piece.source_after, Piece.source_map, ih, List.cons_append]
    exact congrArg ('\\' :: ·) this
  | case7 c cs _ _ _ _ ih => simp [ih]

/-- What is read behind `url(`. -/
inductive Address where
  | proper (characters : List Char)
  | broken (contents : List Char)

/-- An address with one more character in front, which was written as `raw`. -/
def Address.cons (raw : List Char) (c : Char) : Address → Address
  | proper cs => proper (c :: cs)
  | broken contents => broken (raw ++ contents)

/-- The contents of a broken address up to its closing parenthesis. A backslash hides a parenthesis
or another backslash. -/
def brokenAddress : List Char → Piece (List Char)
  | [] => ⟨[], [], []⟩
  | ')' :: cs => ⟨[], [')'], cs⟩
  | '\\' :: ')' :: cs => ((brokenAddress cs).map (['\\', ')'] ++ ·)).after ['\\', ')']
  | '\\' :: '\\' :: cs => ((brokenAddress cs).map (['\\', '\\'] ++ ·)).after ['\\', '\\']
  | c :: cs => ((brokenAddress cs).map (c :: ·)).after [c]

@[simp] theorem source_brokenAddress (cs : List Char) : (brokenAddress cs).source = cs := by
  fun_induction brokenAddress cs <;> simp_all

/-- An address that has turned out to be broken by its next character. -/
def breakAddress : List Char → Piece Address
  | [] => ⟨.broken [], [], []⟩
  | c :: cs => ((brokenAddress cs).map fun contents => Address.broken (c :: contents)).after [c]

@[simp] theorem source_breakAddress (cs : List Char) : (breakAddress cs).source = cs := by
  cases cs <;> simp [breakAddress]

/-- The end of an address behind blanks: only the closing parenthesis or the end of the text may
follow. -/
def addressEnd (blanks : List Char) : List Char → Piece Address
  | [] => ⟨.proper [], [], []⟩
  | ')' :: cs => ⟨.proper [], [')'], cs⟩
  | cs => (breakAddress cs).map fun
    | .broken contents => .broken (blanks ++ contents)
    | a => a

@[simp] theorem source_addressEnd (blanks cs : List Char) :
    (addressEnd blanks cs).source = cs := by
  unfold addressEnd
  split <;> simp

/-- A bare address up to its closing parenthesis. -/
def addressBody : List Char → Piece Address
  | [] => ⟨.proper [], [], []⟩
  | c :: cs =>
    if c = ')' then ⟨.proper [], [c], cs⟩
    else if isSpace c then
      let blanks := c :: cs.takeWhile isSpace
      (addressEnd blanks (cs.dropWhile isSpace)).after blanks
    else if isUnprintable c || c = '"' || c = '\'' || c = '(' then breakAddress (c :: cs)
    else if c = '\\' then
      if startsNewline cs then breakAddress (c :: cs)
      else
        let e := escape cs
        ((addressBody e.rest).map (Address.cons (c :: e.raw) e.value)).after (c :: e.raw)
    else
      let shown := if c = '\x00' then replacement else c
      ((addressBody cs).map (Address.cons [c] shown)).after [c]
termination_by cs => cs.length
decreasing_by
  all_goals simp_wf
  have := Piece.rest_length_le (source_escape cs)
  omega

@[simp] theorem source_addressBody (cs : List Char) : (addressBody cs).source = cs := by
  fun_induction addressBody cs with
  | case1 => rfl
  | case2 => rfl
  | case3 c cs _ _ blanks =>
    simp [blanks, List.takeWhile_append_dropWhile]
  | case4 => simp
  | case5 => simp
  | case6 cs _ e _ _ _ ih =>
    have := source_escape cs
    simp only [Piece.source_after, Piece.source_map, ih, List.cons_append]
    exact congrArg ('\\' :: ·) this
  | case7 c cs _ _ _ _ _ ih => simp [ih]

/-- The address behind `url(`. There is none if a quoted string follows. -/
def address? (cs : List Char) : Option (Piece Address) :=
  let blanks := cs.takeWhile isSpace
  match cs.dropWhile isSpace with
  | '"' :: _ => none
  | '\'' :: _ => none
  | rest => some ((addressBody rest).after blanks)

theorem source_address? {cs : List Char} {p : Piece Address} (h : address? cs = some p) :
    p.source = cs := by
  unfold address? at h
  split at h
  · cases h
  · cases h
  · cases h
    simp [List.takeWhile_append_dropWhile]

/-- A comment up to its end, behind its first two characters. -/
def commentBody : List Char → Piece Unit
  | [] => ⟨(), [], []⟩
  | '*' :: '/' :: cs => ⟨(), ['*', '/'], cs⟩
  | c :: cs => (commentBody cs).after [c]

@[simp] theorem source_commentBody (cs : List Char) : (commentBody cs).source = cs := by
  fun_induction commentBody cs <;> simp_all

/-! ### Numbers -/

/-- Whether a text starts with a digit, or with a point and a digit. -/
def startsDigits : List Char → Bool
  | '.' :: c :: _ => c.isDigit
  | c :: _ => c.isDigit
  | [] => false

/-- Whether a text starts with a number. -/
def startsNumber : List Char → Bool
  | '+' :: cs => startsDigits cs
  | '-' :: cs => startsDigits cs
  | cs => startsDigits cs

/-- An optional sign. -/
def sign : List Char → Piece (Option Char)
  | '+' :: cs => ⟨some '+', ['+'], cs⟩
  | '-' :: cs => ⟨some '-', ['-'], cs⟩
  | cs => ⟨none, [], cs⟩

@[simp] theorem source_sign (cs : List Char) : (sign cs).source = cs := by
  unfold sign
  split <;> rfl

/-- The digits at the front of a text. -/
def digits (cs : List Char) : Piece (List Char) :=
  ⟨cs.takeWhile Char.isDigit, cs.takeWhile Char.isDigit, cs.dropWhile Char.isDigit⟩

@[simp] theorem source_digits (cs : List Char) : (digits cs).source = cs := by
  simp [digits, List.takeWhile_append_dropWhile]

/-- A point and the digits behind it, where there are any. -/
def fraction : List Char → Piece (List Char)
  | '.' :: c :: cs => if c.isDigit then (digits (c :: cs)).after ['.'] else ⟨[], [], '.' :: c :: cs⟩
  | cs => ⟨[], [], cs⟩

@[simp] theorem source_fraction (cs : List Char) : (fraction cs).source = cs := by
  unfold fraction
  split
  · split <;> simp
  · rfl

/-- An exponent: its mark, a sign, and digits, where all of it is there. The value tells whether the
sign is a minus. -/
def exponent : List Char → Piece (Option (Bool × List Char))
  | [] => ⟨none, [], []⟩
  | c :: cs =>
    let s := sign cs
    let ds := digits s.rest
    if (c = 'e' || c = 'E') && !ds.value.isEmpty then
      ⟨some (s.value == some '-', ds.value), c :: (s.raw ++ ds.raw), ds.rest⟩
    else ⟨none, [], c :: cs⟩

@[simp] theorem source_exponent (cs : List Char) : (exponent cs).source = cs := by
  unfold exponent
  split
  · rfl
  · rename_i c cs
    dsimp only
    split
    · have hs := source_sign cs
      have hd := source_digits (sign cs).rest
      simp only [Piece.source] at hs hd
      simp [hd, hs]
    · rfl

/-- A number at the front of a text that starts with one. -/
def writtenNumber (cs : List Char) : Piece WrittenNumber :=
  let s := sign cs
  let w := digits s.rest
  let f := fraction w.rest
  let e := exponent f.rest
  ⟨⟨s.value, w.value, f.value, e.value⟩, s.raw ++ w.raw ++ f.raw ++ e.raw, e.rest⟩

@[simp] theorem source_writtenNumber (cs : List Char) : (writtenNumber cs).source = cs := by
  have hs := source_sign cs
  have hw := source_digits (sign cs).rest
  have hf := source_fraction (digits (sign cs).rest).rest
  have he := source_exponent (fraction (digits (sign cs).rest).rest).rest
  simp only [Piece.source] at hs hw hf he
  simp [writtenNumber, hs, hw, hf, he]

/-- A number with the percent sign or unit behind it. -/
def numeric (cs : List Char) : Piece Lexeme :=
  let n := writtenNumber cs
  match n.rest with
  | '%' :: rest => ⟨percentage n.value, n.raw ++ ['%'], rest⟩
  | rest =>
    if startsName rest then
      let u := name rest
      ⟨dimension n.value (String.ofList u.value), n.raw ++ u.raw, u.rest⟩
    else ⟨number n.value, n.raw, rest⟩

@[simp] theorem source_numeric (cs : List Char) : (numeric cs).source = cs := by
  have hn := source_writtenNumber cs
  simp only [Piece.source] at hn
  unfold numeric
  dsimp only
  split
  · rename_i h
    simp [← h, hn]
  · split
    · rename_i h _
      have hu := source_name (writtenNumber cs).rest
      simp only [Piece.source] at hu
      simp [hu, hn]
    · simp [hn]

/-! ### One lexeme -/

/-- A name, or the start of a function, or an address. -/
def wordLike (cs : List Char) : Piece Lexeme :=
  let n := name cs
  let s := String.ofList n.value
  match n.rest with
  | '(' :: rest =>
    let start := n.raw ++ ['(']
    if s.toLower == "url" then
      match address? rest with
      | some a =>
        (a.map fun
          | .proper value => url (String.ofList value)
          | .broken contents => brokenUrl (String.ofList contents)).after start
      | none => ⟨function s, start, rest⟩
    else ⟨function s, start, rest⟩
  | rest => ⟨word s, n.raw, rest⟩

@[simp] theorem source_wordLike (cs : List Char) : (wordLike cs).source = cs := by
  have hn := source_name cs
  simp only [Piece.source] at hn
  unfold wordLike
  dsimp only
  split
  · rename_i rest h
    have hr : (name cs).raw ++ '(' :: rest = cs := by rw [← h, hn]
    split
    · split
      · rename_i a ha
        simp [source_address? ha, hr]
      · simp [hr]
    · simp [hr]
  · simp [hn]

/-- A hash sign, with a name behind it or alone. -/
def hashLike (cs : List Char) : Piece Lexeme :=
  let n := name cs
  let s := String.ofList n.value
  if startsName cs then ⟨idHash s, '#' :: n.raw, n.rest⟩
  else
    match cs with
    | c :: _ =>
      if c.isDigit || c = '-' then ⟨hash s, '#' :: n.raw, n.rest⟩ else ⟨delimiter '#', ['#'], cs⟩
    | [] => ⟨delimiter '#', ['#'], cs⟩

@[simp] theorem source_hashLike (cs : List Char) : (hashLike cs).source = '#' :: cs := by
  have hn := source_name cs
  simp only [Piece.source] at hn
  unfold hashLike
  dsimp only
  split
  · simp [hn]
  · split
    · split <;> simp [hn]
    · simp

/-- An at sign, with a name behind it or alone. -/
def atLike (cs : List Char) : Piece Lexeme :=
  if startsName cs then
    let n := name cs
    ⟨atWord (String.ofList n.value), '@' :: n.raw, n.rest⟩
  else ⟨delimiter '@', ['@'], cs⟩

@[simp] theorem source_atLike (cs : List Char) : (atLike cs).source = '@' :: cs := by
  have hn := source_name cs
  simp only [Piece.source] at hn
  unfold atLike
  split <;> simp [hn]

/-- A quoted string. -/
def quoted (quote : Char) (cs : List Char) : Piece Lexeme :=
  ((stringBody quote cs).map fun s =>
    if s.1 then string (String.ofList s.2) else brokenString (String.ofList s.2)).after [quote]

@[simp] theorem source_quoted (quote : Char) (cs : List Char) :
    (quoted quote cs).source = quote :: cs := by
  simp [quoted]

/-- A sign that an equals sign turns into a matcher. -/
def matcherLike (c : Char) : List Char → Piece Lexeme
  | '=' :: cs => ⟨matcher c, [c, '='], cs⟩
  | cs => ⟨delimiter c, [c], cs⟩

@[simp] theorem source_matcherLike (c : Char) (cs : List Char) :
    (matcherLike c cs).source = c :: cs := by
  unfold matcherLike
  split <;> rfl

/-- The lexeme that starts with a character, given what follows it. -/
def next (c : Char) (cs : List Char) : Piece Lexeme :=
  if isSpace c then ⟨blank, c :: cs.takeWhile isSpace, cs.dropWhile isSpace⟩
  else if startsNumber (c :: cs) then numeric (c :: cs)
  else
    match c, cs with
    | '/', '*' :: rest => ((commentBody rest).map fun _ => comment).after ['/', '*']
    | '<', '!' :: '-' :: '-' :: rest => ⟨markupOpener, ['<', '!', '-', '-'], rest⟩
    | '-', '-' :: '>' :: rest => ⟨markupCloser, ['-', '-', '>'], rest⟩
    | '"', _ => quoted '"' cs
    | '\'', _ => quoted '\'' cs
    | '#', _ => hashLike cs
    | '@', _ => atLike cs
    | '(', _ => ⟨opener .paren, [c], cs⟩
    | '[', _ => ⟨opener .square, [c], cs⟩
    | '{', _ => ⟨opener .curly, [c], cs⟩
    | ')', _ => ⟨closer .paren, [c], cs⟩
    | ']', _ => ⟨closer .square, [c], cs⟩
    | '}', _ => ⟨closer .curly, [c], cs⟩
    | ':', _ => ⟨colon, [c], cs⟩
    | ';', _ => ⟨semicolon, [c], cs⟩
    | ',', _ => ⟨comma, [c], cs⟩
    | '~', _ => matcherLike c cs
    | '|', _ => matcherLike c cs
    | '^', _ => matcherLike c cs
    | '$', _ => matcherLike c cs
    | '*', _ => matcherLike c cs
    | _, _ => if startsName (c :: cs) then wordLike (c :: cs) else ⟨delimiter c, [c], cs⟩

theorem source_next (c : Char) (cs : List Char) : (next c cs).source = c :: cs := by
  unfold next
  split
  · simp [List.takeWhile_append_dropWhile]
  · split
    · simp
    · split <;> first | rfl | simp | (split <;> simp)

/-! ### The whole text -/

theorem raw_name_ne_nil {cs : List Char} (h : startsName cs) : (name cs).raw ≠ [] := by
  unfold startsName at h
  split at h
  · cases h
  · simp [name, isNameChar]
  · rw [name]
    simp_all [isNameChar]
  · rw [name]
    simp only [isNameStart, Bool.or_eq_true] at h
    split
    · simp
    · split
      · simp
      · simp_all [isNameChar, Char.isAlphanum]
        omega
  · cases h

theorem raw_writtenNumber_ne_nil {cs : List Char} (h : startsNumber cs) :
    (writtenNumber cs).raw ≠ [] := by
  unfold startsNumber at h
  split at h
  · simp [writtenNumber, sign]
  · simp [writtenNumber, sign]
  · unfold startsDigits at h
    split at h
    · rename_i c cs _ _
      simp [writtenNumber, sign, digits, fraction, h]
    · simp_all [writtenNumber, sign, digits]
    · cases h

theorem raw_numeric_ne_nil {cs : List Char} (h : startsNumber cs) : (numeric cs).raw ≠ [] := by
  have := raw_writtenNumber_ne_nil h
  unfold numeric
  dsimp only
  split
  · simp
  · split <;> simp [this]

theorem raw_wordLike_ne_nil {cs : List Char} (h : startsName cs) : (wordLike cs).raw ≠ [] := by
  have := raw_name_ne_nil h
  unfold wordLike
  dsimp only
  split
  · split
    · split <;> simp
    · simp
  · simpa using this

@[simp] theorem raw_quoted_ne_nil (quote : Char) (cs : List Char) :
    (quoted quote cs).raw ≠ [] := by
  simp [quoted]

@[simp] theorem raw_hashLike_ne_nil (cs : List Char) : (hashLike cs).raw ≠ [] := by
  unfold hashLike
  dsimp only
  split
  · simp
  · split
    · split <;> simp
    · simp

@[simp] theorem raw_atLike_ne_nil (cs : List Char) : (atLike cs).raw ≠ [] := by
  unfold atLike
  split <;> simp

@[simp] theorem raw_matcherLike_ne_nil (c : Char) (cs : List Char) :
    (matcherLike c cs).raw ≠ [] := by
  unfold matcherLike
  split <;> simp

theorem raw_next_ne_nil (c : Char) (cs : List Char) : (next c cs).raw ≠ [] := by
  unfold next
  split
  · simp
  · split
    · exact raw_numeric_ne_nil (by assumption)
    · split
      case h_22 =>
        split
        · exact raw_wordLike_ne_nil (by assumption)
        · simp
      all_goals simp

/-- The lexemes of a text, each with the characters that it took. -/
def ofText : List Char → List (Lexeme × List Char)
  | [] => []
  | c :: cs =>
    let p := next c cs
    (p.value, p.raw) :: ofText p.rest
termination_by cs => cs.length
decreasing_by exact Piece.rest_length_lt (source_next c cs) (raw_next_ne_nil c cs)

/-- No character is lost and none is added. -/
theorem flatMap_raw_ofText (cs : List Char) : (ofText cs).flatMap (·.2) = cs := by
  fun_induction ofText cs with
  | case1 => rfl
  | case2 c cs p ih =>
    have := source_next c cs
    simp only [List.flatMap_cons, ih]
    exact this

end MapStyle.Lexeme
