import MapStyle.Function
import MapStyle.Proofs.Accumulation.Policies
import MapStyle.Proofs.FilterTexts.Slices
import MapStyle.Proofs.Pointwise

/-!
# How colours are spelled

Which texts stand for a colour, without saying how they are read: hexadecimal digits behind `#`, or a name, in
either case and with blanks around it. Exactly these are read (`parse?_eq_some_iff`), and what is written for a
colour is one of them (`parse?_display`). The function for colours with an alpha channel gives the texts with
eight digits, those of all colours and no others (`exists_rgba_eq_ok_iff`).
-/

namespace MapStyle

namespace Text

lemma not_isBlank_of_toLower {c : Char} (h : ¬ isBlank c.toLower) : ¬ isBlank c := by
  by_cases hupper : c.val ≥ 'A'.val ∧ c.val ≤ 'Z'.val
  · intro hblank
    obtain ⟨hA, hZ⟩ := hupper
    rw [ge_iff_le, UInt32.le_iff_toNat_le] at hA
    rw [UInt32.le_iff_toNat_le] at hZ
    have hA' : 'A'.val.toNat = 65 := rfl
    have hZ' : 'Z'.val.toNat = 90 := rfl
    have hc : c.val.toNat = c.toNat := rfl
    simp only [isBlank, Bool.or_eq_true, Bool.and_eq_true, decide_eq_true_eq, beq_iff_eq] at hblank
    omega
  · have hlower : c.toLower = c := dif_neg hupper
    rwa [hlower] at h

/-- Trimming takes blanks away and nothing else. -/
lemma exists_append_trimChars (cs : List Char) : ∃ before after, (∀ c ∈ before, isBlank c) ∧
    (∀ c ∈ after, isBlank c) ∧ cs = before ++ (trimChars cs ++ after) := by
  refine ⟨cs.takeWhile isBlank, (cs.dropWhile isBlank).rtakeWhile isBlank, fun c => List.mem_takeWhile_imp,
    fun c => List.mem_rtakeWhile_imp, ?_⟩
  have hback : trimChars cs = (cs.dropWhile isBlank).rdropWhile isBlank := rfl
  rw [hback, List.rdropWhile_append_rtakeWhile, List.takeWhile_append_dropWhile]

end Text

namespace Rgba

/-! ### What is written -/

/-- A hexadecimal digit in either case, and its value. -/
structure IsHex (d : Char) (n : UInt8) : Prop where
  lt : n < 16
  eq : d = hexDigit n ∨ d = (hexDigit n).toUpper

/-- Pairs of hexadecimal digits, and the bytes that they are. -/
inductive Bytes : List Char → List UInt8 → Prop
  | nil : Bytes [] []
  | cons {d d' : Char} {n n' : UInt8} {ds : List Char} {vs : List UInt8} (high : IsHex d n) (low : IsHex d' n')
      (h : Bytes ds vs) : Bytes (d :: d' :: ds) ((16 * n + n') :: vs)

/-- The channels of a colour. Without an alpha channel the colour is solid. -/
inductive Channels : List UInt8 → Rgba → Prop
  | solid {red green blue : UInt8} : Channels [red, green, blue] (Rgba.solid red green blue)
  | full {red green blue alpha : UInt8} : Channels [red, green, blue, alpha] ⟨red, green, blue, alpha⟩

/-- Each digit twice. -/
def doubled (ds : List Char) : List Char :=
  ds.flatMap fun d => [d, d]

/-- A spelling of a colour: two digits for each channel behind `#`, or one that stands for itself twice, or
a name in any case. -/
inductive Spells : List Char → Rgba → Prop
  | long {ds : List Char} {vs : List UInt8} {c : Rgba} (hds : Bytes ds vs) (hvs : Channels vs c) :
      Spells ('#' :: ds) c
  | short {ds : List Char} {vs : List UInt8} {c : Rgba} (hds : Bytes (doubled ds) vs) (hvs : Channels vs c) :
      Spells ('#' :: ds) c
  | name {word : String} {cs : List Char} {c : Rgba} (hmem : (word, c) ∈ named)
      (hword : Text.sameWord word (String.ofList cs)) : Spells cs c

/-- A text that is a spelling of a colour, with blanks around it. -/
inductive Shows (text : String) (c : Rgba) : Prop
  | intro {before cs after : List Char} (hcs : Spells cs c) (hbefore : ∀ d ∈ before, Text.isBlank d)
      (hafter : ∀ d ∈ after, Text.isBlank d) (htext : text.toList = before ++ (cs ++ after)) : Shows text c

variable {d : Char} {n : UInt8} {ds cs : List Char} {ns vs : List UInt8} {c : Rgba} {text : String}

/-! ### Digits -/

lemma lt_of_hexValue? (h : hexValue? d = some n) : d.toNat < 128 := by
  simp only [hexValue?, Char.le_def, UInt32.le_iff_toNat_le] at h
  have hf : 'f'.val.toNat = 102 := rfl
  have hF : 'F'.val.toNat = 70 := rfl
  have h9 : '9'.val.toNat = 57 := rfl
  change d.val.toNat < 128
  split at h
  · omega
  split at h
  · omega
  split at h
  · omega
  · cases h

/-- What holds of the sixteen digits in both cases. -/
lemma IsHex.of_table {p : Char → UInt8 → Prop} (h : IsHex d n)
    (htable : ∀ i < 16, p (hexDigit (.ofNat i)) (.ofNat i) ∧ p (hexDigit (.ofNat i)).toUpper (.ofNat i)) :
    p d n := by
  have hn := htable n.toNat (UInt8.lt_iff_toNat_lt.mp h.lt)
  rw [UInt8.ofNat_toNat] at hn
  obtain rfl | rfl := h.eq
  · exact hn.1
  · exact hn.2

/-- A digit has the value that it is written for, and no other character has one. -/
theorem hexValue?_eq_some_iff : hexValue? d = some n ↔ IsHex d n := by
  constructor
  · intro h
    have htable : ∀ k < 128, hexValue? (Char.ofNat k) = none ∨ ∃ i < 16,
        hexValue? (Char.ofNat k) = some (.ofNat i) ∧
          (Char.ofNat k = hexDigit (.ofNat i) ∨ Char.ofNat k = (hexDigit (.ofNat i)).toUpper) := by
      decide +kernel
    have hd := htable d.toNat (lt_of_hexValue? h)
    rw [Char.ofNat_toNat, h] at hd
    obtain hd | ⟨i, hi, hn, heq⟩ := hd
    · cases hd
    · obtain rfl := Option.some.inj hn
      exact ⟨UInt8.lt_iff_toNat_lt.mpr (by simpa using by omega), heq⟩
  · intro h
    exact h.of_table (p := fun d n => hexValue? d = some n) (by decide)

lemma mapM_hexValue?_eq_some_iff : ds.mapM hexValue? = some ns ↔ List.Forall₂ IsHex ds ns := by
  simp only [mapM_eq_some_iff, hexValue?_eq_some_iff]

/-- A digit that stands for itself twice. -/
lemma sixteen_mul_add (n : UInt8) : 16 * n + n = 17 * n := by
  rw [show (17 : UInt8) = 16 + 1 from rfl, UInt8.add_mul, UInt8.one_mul]

lemma bytes_doubled_iff :
    Bytes (doubled ds) vs ↔ ∃ ns, List.Forall₂ IsHex ds ns ∧ vs = ns.map (17 * ·) := by
  constructor
  · intro h
    induction ds generalizing vs with
    | nil =>
      cases h
      exact ⟨[], .nil, rfl⟩
    | cons d ds ih =>
      obtain _ | ⟨hn, hn', h⟩ := h
      obtain ⟨ns, hns, rfl⟩ := ih h
      rw [← hexValue?_eq_some_iff] at hn'
      obtain rfl := Option.some.inj (hn'.symm.trans (hexValue?_eq_some_iff.mpr hn))
      exact ⟨_, .cons hn hns, by rw [List.map_cons, sixteen_mul_add]⟩
  · rintro ⟨ns, hns, rfl⟩
    induction hns with
    | nil => exact .nil
    | @cons d n ds ns hn _ ih =>
      rw [List.map_cons, ← sixteen_mul_add]
      exact .cons hn hn ih

/-- The colour that hexadecimal digits stand for. -/
def ofDigits? (ds : List Char) : Option Rgba :=
  (ds.mapM hexValue?).bind ofHexValues?

/-- Digits are a colour if there are two of them for each channel, and also if there is one. -/
lemma ofDigits?_eq_some_iff :
    ofDigits? ds = some c ↔ ∃ vs, (Bytes ds vs ∨ Bytes (doubled ds) vs) ∧ Channels vs c := by
  simp only [ofDigits?, Option.bind_eq_some_iff, mapM_hexValue?_eq_some_iff]
  constructor
  · rintro ⟨ns, hns, hc⟩
    -- by the number of digits: three and four are doubled, six and eight are not
    simp only [ofHexValues?] at hc
    split at hc
    · cases hc
      exact ⟨_, .inr (bytes_doubled_iff.mpr ⟨_, hns, rfl⟩), .solid⟩
    · cases hc
      exact ⟨_, .inr (bytes_doubled_iff.mpr ⟨_, hns, rfl⟩), .full⟩
    · obtain _ | ⟨hr, _ | ⟨hr', _ | ⟨hg, _ | ⟨hg', _ | ⟨hb, _ | ⟨hb', _ | _⟩⟩⟩⟩⟩⟩ := hns
      cases hc
      exact ⟨_, .inl (.cons hr hr' (.cons hg hg' (.cons hb hb' .nil))), .solid⟩
    · obtain _ | ⟨hr, _ | ⟨hr', _ | ⟨hg, _ | ⟨hg', _ | ⟨hb, _ | ⟨hb', _ | ⟨ha, _ | ⟨ha', _ | _⟩⟩⟩⟩⟩⟩⟩⟩ := hns
      cases hc
      exact ⟨_, .inl (.cons hr hr' (.cons hg hg' (.cons hb hb' (.cons ha ha' .nil)))), .full⟩
    · cases hc
  · rintro ⟨vs, hds | hds, hvs⟩
    · cases hvs with
      | solid =>
        obtain _ | ⟨hr, hr', _ | ⟨hg, hg', _ | ⟨hb, hb', _ | _⟩⟩⟩ := hds
        exact ⟨_, .cons hr (.cons hr' (.cons hg (.cons hg' (.cons hb (.cons hb' .nil))))), rfl⟩
      | full =>
        obtain _ | ⟨hr, hr', _ | ⟨hg, hg', _ | ⟨hb, hb', _ | ⟨ha, ha', _ | _⟩⟩⟩⟩ := hds
        exact ⟨_, .cons hr (.cons hr' (.cons hg (.cons hg' (.cons hb (.cons hb' (.cons ha (.cons ha' .nil))))))),
          rfl⟩
    · obtain ⟨ns, hns, rfl⟩ := bytes_doubled_iff.mp hds
      refine ⟨ns, hns, ?_⟩
      match ns, hvs with
      | [_, _, _], .solid => rfl
      | [_, _, _, _], .full => rfl

/-! ### Names -/

/-- The characters of a name in any case. -/
lemma map_toLower_of_sameWord {word : String} (hmem : (word, c) ∈ named)
    (hword : Text.sameWord word (String.ofList cs)) : cs.map Char.toLower = word.toList := by
  have hlower : ∀ entry ∈ named, entry.1.toList.map Char.toLower = entry.1.toList := by decide +kernel
  rw [Text.sameWord_eq, beq_iff_eq, String.toList_ofList] at hword
  rw [← hword]
  exact hlower _ hmem

lemma of_mem_name {word : String} (hmem : (word, c) ∈ named) (hword : Text.sameWord word (String.ofList cs)) :
    cs ≠ [] ∧ ∀ d ∈ cs, ¬ Text.isBlank d ∧ d ≠ '#' := by
  have hne : ∀ entry ∈ named, entry.1.toList ≠ [] := by decide +kernel
  have hletters : ∀ entry ∈ named, entry.1.toList.all fun d => !Text.isBlank d && d != '#' := by decide +kernel
  have hcs := map_toLower_of_sameWord hmem hword
  refine ⟨?_, fun d hd => ?_⟩
  · rintro rfl
    exact hne _ hmem hcs.symm
  · have hletter := List.all_eq_true.mp (hletters _ hmem) d.toLower (hcs ▸ List.mem_map_of_mem hd)
    rw [Bool.and_eq_true, Bool.not_eq_true', bne_iff_ne] at hletter
    refine ⟨Text.not_isBlank_of_toLower (Bool.eq_false_iff.mp hletter.1), ?_⟩
    rintro rfl
    exact hletter.2 rfl

/-- No two names are the same word, so it does not matter which one is found first. -/
lemma find?_named_eq_some_iff :
    (named.find? fun entry => Text.sameWord entry.1 (String.ofList cs)).map (·.2) = some c ↔
      ∃ word, (word, c) ∈ named ∧ Text.sameWord word (String.ofList cs) := by
  have hfound {entry : String × Rgba}
      (hfind : (named.find? fun entry => Text.sameWord entry.1 (String.ofList cs)) = some entry) :
      entry ∈ named ∧ Text.sameWord entry.1 (String.ofList cs) :=
    ⟨List.mem_of_find?_eq_some hfind, by simpa using List.find?_some hfind⟩
  constructor
  · intro h
    obtain ⟨⟨word, c⟩, hfind, rfl⟩ := Option.map_eq_some_iff.mp h
    exact ⟨word, hfound hfind⟩
  · rintro ⟨word, hmem, hword⟩
    have hnodup : (named.map (·.1)).Nodup := by decide +kernel
    have hsome : (named.find? fun entry => Text.sameWord entry.1 (String.ofList cs)).isSome :=
      List.find?_isSome.mpr ⟨_, hmem, hword⟩
    obtain ⟨⟨word', c'⟩, hfind⟩ := Option.isSome_iff_exists.mp hsome
    obtain ⟨hmem', hword'⟩ := hfound hfind
    have hsame : word' = word := String.toList_inj.mp
      ((map_toLower_of_sameWord hmem' hword').symm.trans (map_toLower_of_sameWord hmem hword))
    obtain ⟨-, rfl⟩ := Prod.mk.inj (List.inj_on_of_nodup_map hnodup hmem' hmem hsame)
    rw [hfind, Option.map_some]

/-! ### Reading -/

lemma Bytes.not_isBlank (h : Bytes ds vs) : ∀ d ∈ ds, ¬ Text.isBlank d := by
  induction h with
  | nil => exact List.forall_mem_nil _
  | cons high low _ ih =>
    have hdigit {d n} (h : IsHex d n) : ¬ Text.isBlank d :=
      h.of_table (p := fun d _ => ¬ Text.isBlank d) (by decide)
    exact List.forall_mem_cons.mpr ⟨hdigit high, List.forall_mem_cons.mpr ⟨hdigit low, ih⟩⟩

lemma Spells.isTrimmed (h : Spells cs c) : Text.IsTrimmed cs := by
  have hhash : ¬ Text.isBlank '#' := by decide
  cases h with
  | @long ds _ _ hds =>
    exact .of_forall (List.cons_ne_nil '#' ds) (List.forall_mem_cons.mpr ⟨hhash, hds.not_isBlank⟩)
  | @short ds _ _ hds =>
    refine .of_forall (List.cons_ne_nil '#' ds) (List.forall_mem_cons.mpr ⟨hhash, fun d hd => ?_⟩)
    exact hds.not_isBlank d (List.mem_flatMap.mpr ⟨d, hd, List.mem_cons_self⟩)
  | name hmem hword =>
    obtain ⟨hne, hletters⟩ := of_mem_name hmem hword
    exact .of_forall hne fun d hd => (hletters d hd).1

lemma parse?_of_hash (h : Text.trimChars text.toList = '#' :: ds) : parse? text = ofDigits? ds := by
  rw [parse?, h]
  rfl

lemma parse?_of_not_hash (h : ∀ ds, Text.trimChars text.toList ≠ '#' :: ds) :
    parse? text = (named.find? fun entry =>
      Text.sameWord entry.1 (String.ofList (Text.trimChars text.toList))).map (·.2) := by
  rw [parse?]
  split
  · next heq => exact absurd heq (h _)
  · rfl

lemma parse?_eq_some_iff_spells : parse? text = some c ↔ Spells (Text.trimChars text.toList) c := by
  by_cases hhash : ∃ ds, Text.trimChars text.toList = '#' :: ds
  · obtain ⟨ds, hds⟩ := hhash
    rw [parse?_of_hash hds, hds, ofDigits?_eq_some_iff]
    constructor
    · rintro ⟨vs, hds | hds, hvs⟩
      · exact .long hds hvs
      · exact .short hds hvs
    · rintro (⟨hds, hvs⟩ | ⟨hds, hvs⟩ | ⟨hmem, hword⟩)
      · exact ⟨_, .inl hds, hvs⟩
      · exact ⟨_, .inr hds, hvs⟩
      · exact absurd rfl ((of_mem_name hmem hword).2 '#' List.mem_cons_self).2
  · rw [not_exists] at hhash
    rw [parse?_of_not_hash hhash, find?_named_eq_some_iff]
    generalize Text.trimChars text.toList = cs at hhash
    constructor
    · rintro ⟨word, hmem, hword⟩
      exact .name hmem hword
    · rintro (_ | _ | ⟨hmem, hword⟩)
      · exact absurd rfl (hhash _)
      · exact absurd rfl (hhash _)
      · exact ⟨_, hmem, hword⟩

/-- A text is read as the colour that it shows. -/
theorem parse?_eq_some_iff : parse? text = some c ↔ Shows text c := by
  rw [parse?_eq_some_iff_spells]
  constructor
  · intro h
    obtain ⟨before, after, hbefore, hafter, htext⟩ := Text.exists_append_trimChars text.toList
    exact ⟨h, hbefore, hafter, htext⟩
  · rintro ⟨hcs, hbefore, hafter, htext⟩
    rwa [htext, Text.trimChars_append_left hbefore, Text.trimChars_append hafter, hcs.isTrimmed.trimChars_eq]

/-! ### Writing -/

lemma isHex_hexDigit (h : n < 16) : IsHex (hexDigit n) n :=
  ⟨h, .inl rfl⟩

lemma bytes_flatMap_hexByte (vs : List UInt8) : Bytes (vs.flatMap hexByte) vs := by
  induction vs with
  | nil => exact .nil
  | cons v vs ih =>
    have hhigh : v / 16 < 16 := by
      rw [UInt8.lt_iff_toNat_lt, UInt8.toNat_div]
      exact Nat.div_lt_of_lt_mul v.toNat_lt
    have hlow : v % 16 < 16 := UInt8.mod_lt v (by decide)
    have hbyte : 16 * (v / 16) + v % 16 = v := by
      have hv := v.toNat_lt
      rw [← UInt8.toNat_inj, UInt8.toNat_add, UInt8.toNat_mul, UInt8.toNat_div, UInt8.toNat_mod]
      have hsixteen : UInt8.toNat 16 = 16 := rfl
      rw [hsixteen]
      omega
    have h := Bytes.cons (isHex_hexDigit hhigh) (isHex_hexDigit hlow) ih
    rwa [hbyte] at h

lemma spells_displayWithAlpha (c : Rgba) : Spells c.displayWithAlpha.toList c := by
  have h := bytes_flatMap_hexByte [c.red, c.green, c.blue, c.alpha]
  rw [displayWithAlpha, String.toList_ofList]
  exact .long h .full

lemma spells_display (c : Rgba) : Spells c.display.toList c := by
  rw [display]
  split
  · next halpha =>
    obtain ⟨red, green, blue, alpha⟩ := c
    obtain rfl : alpha = 255 := halpha
    rw [String.toList_ofList]
    exact .long (bytes_flatMap_hexByte [red, green, blue]) .solid
  · exact spells_displayWithAlpha c

/-- The alpha byte is written behind the text that the colour has when it is made solid. -/
lemma displayWithAlpha_eq (c : Rgba) :
    c.displayWithAlpha = (solid c.red c.green c.blue).display ++ String.ofList (hexByte c.alpha) := by
  have hsolid : (solid c.red c.green c.blue).alpha = 255 := rfl
  rw [display, if_pos hsolid, ← String.ofList_append]
  rfl

/-- A spelling without blanks around it. -/
lemma Spells.shows (h : Spells text.toList c) : Shows text c :=
  .intro h (List.forall_mem_nil _) (List.forall_mem_nil _) (by rw [List.append_nil, List.nil_append])

/-- Whichever way a colour is written, it is read as that colour. -/
theorem parse?_display (c : Rgba) : parse? c.display = some c ∧ parse? c.displayWithAlpha = some c := by
  rw [parse?_eq_some_iff, parse?_eq_some_iff]
  exact ⟨(spells_display c).shows, (spells_displayWithAlpha c).shows⟩

/-! ### Colours with an alpha channel -/

/-- A byte as the argument of a function, for a channel from zero to 255. -/
def byteArgument (v : UInt8) : Argument :=
  .literal (.float v.toFloat)

/-- A byte as the argument of a function, for a channel from zero to one. -/
def fractionArgument (v : UInt8) : Argument :=
  .literal (.float (v.toFloat / 255))

lemma byteChannel_byteArgument (v : UInt8) : Function.byteChannel (byteArgument v) = .ok v := by
  have htable : ∀ k < 256, Function.byteChannel (byteArgument (.ofNat k)) = .ok (.ofNat k) := by decide +kernel
  have hv := htable v.toNat v.toNat_lt
  rwa [UInt8.ofNat_toNat] at hv

/-- The division by 255 may round, but multiplying by 255 comes back to the same byte. -/
lemma channel_fractionArgument (v : UInt8) :
    ∃ x, Function.channel 1 (fractionArgument v) = .ok x ∧ Decimal.nearestByte (x * 255) = v := by
  have htable : ∀ k < 256, (Function.channel 1 (fractionArgument (.ofNat k))).map
      (fun x => Decimal.nearestByte (x * 255)) = .ok (.ofNat k) := by decide +kernel
  have hv := htable v.toNat v.toNat_lt
  rw [UInt8.ofNat_toNat] at hv
  cases hx : Function.channel 1 (fractionArgument v) with
  | error e =>
    rw [hx] at hv
    cases hv
  | ok x =>
    rw [hx] at hv
    exact ⟨x, rfl, Except.ok.inj hv⟩

/-- The function for colours with an alpha channel gives the eight-digit texts of all colours. -/
theorem exists_rgba_eq_ok_iff {w : Value} :
    (∃ args, Function.rgba args = .ok w) ↔ ∃ c : Rgba, w = .color c.displayWithAlpha := by
  constructor
  · rintro ⟨args, h⟩
    unfold Function.rgba at h
    split at h
    · obtain ⟨red, -, h⟩ := exists_of_bind_eq_ok h
      obtain ⟨green, -, h⟩ := exists_of_bind_eq_ok h
      obtain ⟨blue, -, h⟩ := exists_of_bind_eq_ok h
      obtain ⟨alpha, -, h⟩ := exists_of_bind_eq_ok h
      exact ⟨_, (Except.ok.inj h).symm⟩
    · cases h
  · rintro ⟨c, rfl⟩
    obtain ⟨x, hx, halpha⟩ := channel_fractionArgument c.alpha
    refine ⟨[byteArgument c.red, byteArgument c.green, byteArgument c.blue, fractionArgument c.alpha], ?_⟩
    simp only [Function.rgba, byteChannel_byteArgument, hx, halpha, bind, Except.bind, pure, Except.pure]

end Rgba

end MapStyle
