import MapStyle.Proofs.Colors.Spellings

/-!
# Colours read by cutting

Hexadecimal digits can be read by cutting their text at byte positions, where a cut goes wrong if it leaves the
text or goes through a character. After a look at all characters and at the number of bytes no cut goes wrong,
whatever the text is, and the outcome is what reading character by character gives (`parseByCuts_eq`). Either way
a colour is read back from what is written for it (`parse?_reads_back`).
-/

namespace MapStyle

namespace Text

/-- A cut that a text does not allow: one of the byte positions is outside the text or inside a character, or
they are out of order. -/
structure BadCut where
  text : String
  start : Nat
  stop : Nat
deriving DecidableEq, Repr

/-- A reading that may cut texts. It has a result, has none, or ends at a bad cut. -/
abbrev Cutting := OptionT (Except BadCut)

/-- The text between two byte positions, if both are at the ends of characters and in order. -/
def cut? (s : String) (start stop : Nat) : Option String := do
  let part ← s.slice? (← s.pos? ⟨start⟩) (← s.pos? ⟨stop⟩)
  pure part.copy

/-- Cuts a text at two byte positions. -/
def cut (s : String) (start stop : Nat) : Cutting String :=
  OptionT.mk <| match cut? s start stop with
    | some part => .ok part
    | none => .error ⟨s, start, stop⟩

lemma pos?_eq_some_iff {s : String} {i : Nat} {p : s.Pos} : s.pos? ⟨i⟩ = some p ↔ p.offset = ⟨i⟩ := by
  rw [String.pos?, String.Slice.pos?]
  constructor
  · intro h
    split at h
    · rw [Option.map_some, Option.some_inj] at h
      rw [← h]
      simp
    · cases h
  · intro h
    have hvalid : String.Pos.Raw.isValidForSlice s.toSlice ⟨i⟩ = true := by
      simpa using h ▸ p.isValid
    rw [dif_pos hvalid, Option.map_some, Option.some_inj]
    apply String.Pos.ext
    simp [h]

/-- A part can be cut out where it stands in the text, with that many bytes in front of it and in it. -/
theorem cut?_eq_some_iff {s t : String} {i j : Nat} : cut? s i j = some t ↔
    ∃ before after, s = before ++ (t ++ after) ∧ before.utf8ByteSize = i ∧ i + t.utf8ByteSize = j := by
  simp only [cut?, Option.bind_eq_bind, Option.bind_eq_some_iff, pos?_eq_some_iff, String.slice?]
  constructor
  · rintro ⟨p, hp, q, hq, part, hpart, hcopy⟩
    split at hpart
    · next hle =>
      obtain rfl := Option.some.inj hpart
      obtain ⟨before, after, hbefore, hafter⟩ :=
        String.copy_slice_eq_iff_splits.mp ⟨hle, Option.some.inj hcopy⟩
      refine ⟨before, after, hbefore.eq_append, ?_, ?_⟩
      · exact congrArg String.Pos.Raw.byteIdx (hbefore.offset_eq_rawEndPos.symm.trans hp)
      · have hstart := congrArg String.Pos.Raw.byteIdx (hbefore.offset_eq_rawEndPos.symm.trans hp)
        have hstop := congrArg String.Pos.Raw.byteIdx (hafter.offset_eq_rawEndPos.symm.trans hq)
        rw [String.byteIdx_rawEndPos] at hstart hstop
        rwa [String.utf8ByteSize_append, hstart] at hstop
    · cases hpart
  · rintro ⟨before, after, hs, rfl, rfl⟩
    have hs' : s = (before ++ t) ++ after := by rw [hs, String.append_assoc]
    let p : s.Pos :=
      ⟨⟨before.utf8ByteSize⟩, String.Pos.Raw.isValid_iff_exists_append.mpr ⟨before, _, hs, rfl⟩⟩
    let q : s.Pos := ⟨⟨before.utf8ByteSize + t.utf8ByteSize⟩,
      String.Pos.Raw.isValid_iff_exists_append.mpr ⟨before ++ t, after, hs', by simp [String.rawEndPos]⟩⟩
    have hp : p.Splits before (t ++ after) := ⟨hs, rfl⟩
    have hq : q.Splits (before ++ t) after := ⟨hs', by simp [String.rawEndPos, q]⟩
    obtain ⟨hle, hcopy⟩ := String.copy_slice_eq_iff_splits.mpr ⟨before, after, hp, hq⟩
    exact ⟨p, rfl, q, rfl, _, dif_pos hle, congrArg some hcopy⟩

/-- Where each character is one byte, byte positions count characters. -/
lemma utf8ByteSize_ofList {cs : List Char} (h : ∀ c ∈ cs, c.utf8Size = 1) :
    (String.ofList cs).utf8ByteSize = cs.length := by
  induction cs with
  | nil => rfl
  | cons c cs ih =>
    obtain ⟨hc, hcs⟩ := List.forall_mem_cons.mp h
    rw [← List.singleton_append, String.ofList_append, ← String.singleton_eq_ofList, String.utf8ByteSize_append,
      String.utf8ByteSize_singleton, hc, ih hcs, List.length_append, List.length_singleton]

lemma cut_append {front part : List Char} (hfront : ∀ c ∈ front, c.utf8Size = 1)
    (hpart : ∀ c ∈ part, c.utf8Size = 1) (rest : List Char) :
    cut (String.ofList (front ++ (part ++ rest))) front.length (front.length + part.length) =
      pure (String.ofList part) := by
  have hcut : cut? (String.ofList (front ++ (part ++ rest))) front.length (front.length + part.length) =
      some (String.ofList part) := by
    rw [cut?_eq_some_iff, String.ofList_append, String.ofList_append]
    exact ⟨_, _, rfl, utf8ByteSize_ofList hfront, by rw [utf8ByteSize_ofList hpart]⟩
  rw [cut, hcut]
  rfl

/-- A cut through a character is a bad cut. -/
example : (cut "é" 0 1).run = .error ⟨"é", 0, 1⟩ := by decide +kernel

end Text

namespace Rgba

open Text

/-! ### The reading -/

/-- One more hexadecimal digit behind a number, unless the number gets too large for a byte. -/
def appendHex? (n : UInt8) (d : Char) : Option UInt8 := do
  let m := 16 * n.toNat + (← hexValue? d).toNat
  if m < 256 then some (.ofNat m) else none

/-- The byte that hexadecimal digits are, one digit or more, with a plus sign in front of them or without
one. -/
def byteOfHex? (text : String) : Option UInt8 :=
  match text.toList with
  | [] | ['+'] => none
  | '+' :: ds => ds.foldlM appendHex? 0
  | ds => ds.foldlM appendHex? 0

/-- The number that is written from a byte position on. -/
def hexAt (digits : String) (start width : Nat) : Cutting UInt8 := do
  let part ← cut digits start (start + width)
  OptionT.mk (.ok (byteOfHex? part))

/-- A channel of one digit, which stands for itself twice. -/
def shortChannel (digits : String) (start : Nat) : Cutting UInt8 :=
  return 17 * (← hexAt digits start 1)

/-- A channel of two digits. -/
def longChannel (digits : String) (start : Nat) : Cutting UInt8 :=
  hexAt digits start 2

/-- Reads the digits behind `#`: if all characters are digits, the number of bytes says where to cut. -/
def readDigits (digits : String) : Cutting Rgba :=
  if digits.toList.all fun d => (hexValue? d).isSome then
    match digits.utf8ByteSize with
    | 3 => return solid (← shortChannel digits 0) (← shortChannel digits 1) (← shortChannel digits 2)
    | 4 => return ⟨← shortChannel digits 0, ← shortChannel digits 1, ← shortChannel digits 2,
        ← shortChannel digits 3⟩
    | 6 => return solid (← longChannel digits 0) (← longChannel digits 2) (← longChannel digits 4)
    | 8 => return ⟨← longChannel digits 0, ← longChannel digits 2, ← longChannel digits 4,
        ← longChannel digits 6⟩
    | _ => failure
  else failure

/-- Reads a colour, with its digits cut apart. -/
def parseByCuts (text : String) : Cutting Rgba :=
  match trimChars text.toList with
  | '#' :: digits => readDigits (String.ofList digits)
  | name => OptionT.mk (.ok ((named.find? fun entry => sameWord entry.1 (String.ofList name)).map (·.2)))

variable {d d' : Char} {n n' : UInt8} {ds : List Char} {ns ns' : List UInt8} {i : Nat}

lemma appendHex?_of_lt (hn : n < 16) (h : IsHex d n') : appendHex? n d = some (16 * n + n') := by
  have hn' := UInt8.lt_iff_toNat_lt.mp hn
  have hd := UInt8.lt_iff_toNat_lt.mp h.lt
  have hsixteen : UInt8.toNat 16 = 16 := rfl
  have hlt : 16 * n.toNat + n'.toNat < 256 := by omega
  rw [appendHex?, hexValue?_eq_some_iff.mpr h]
  simp only [Option.bind_eq_bind, Option.bind_some, if_pos hlt, UInt8.ofNat_add, UInt8.ofNat_mul,
    UInt8.ofNat_toNat]
  rfl

lemma byteOfHex?_cons (h : IsHex d n) (ds : List Char) :
    byteOfHex? (String.ofList (d :: ds)) = ds.foldlM appendHex? n := by
  have hplus : d ≠ '+' := h.of_table (p := fun d _ => d ≠ '+') (by decide)
  have hfirst : appendHex? 0 d = some n := by
    rw [appendHex?_of_lt (by decide) h]
    simp
  rw [byteOfHex?, String.toList_ofList]
  split
  · next heq => cases heq
  · next heq => exact absurd (List.cons.inj heq).1 hplus
  · next heq => exact absurd (List.cons.inj heq).1 hplus
  · rw [List.foldlM_cons, hfirst]
    rfl

lemma all_isSome_iff : (ds.all fun d => (hexValue? d).isSome) ↔ ∃ ns, List.Forall₂ IsHex ds ns := by
  induction ds with
  | nil => exact ⟨fun _ => ⟨[], .nil⟩, fun _ => rfl⟩
  | cons d ds ih =>
    rw [List.all_cons, Bool.and_eq_true, ih, Option.isSome_iff_exists]
    constructor
    · rintro ⟨⟨n, hn⟩, ns, hns⟩
      exact ⟨n :: ns, .cons (hexValue?_eq_some_iff.mp hn) hns⟩
    · rintro ⟨_, _ | ⟨hn, hns⟩⟩
      exact ⟨⟨_, hexValue?_eq_some_iff.mpr hn⟩, _, hns⟩

lemma utf8Size_of_mem (h : List.Forall₂ IsHex ds ns) : ∀ d ∈ ds, d.utf8Size = 1 := by
  induction h with
  | nil => exact List.forall_mem_nil _
  | cons hd _ ih =>
    exact List.forall_mem_cons.mpr ⟨hd.of_table (p := fun d _ => d.utf8Size = 1) (by decide), ih⟩

/-- Digits that are cut out of a row of digits. -/
lemma hexAt_eq (h : List.Forall₂ IsHex ds ns) {part rest : List Char} {width : Nat}
    (hdrop : ds.drop i = part ++ rest) (hwidth : part.length = width) (hpos : 0 < width) :
    hexAt (String.ofList ds) i width = OptionT.mk (.ok (byteOfHex? (String.ofList part))) := by
  have hstart : (ds.take i).length = i := by
    refine List.length_take_of_le ?_
    by_contra hlt
    rw [List.drop_eq_nil_of_le (Nat.le_of_not_le hlt), eq_comm, List.append_eq_nil_iff] at hdrop
    rw [← hwidth, hdrop.1] at hpos
    exact absurd hpos (lt_irrefl _)
  have hds : ds = ds.take i ++ (part ++ rest) := by rw [← hdrop, List.take_append_drop]
  obtain ⟨hfront, hback⟩ := List.forall_mem_append.mp (hds ▸ utf8Size_of_mem h)
  have hcut := cut_append hfront (List.forall_mem_append.mp hback).1 rest
  rw [← hds, hstart, hwidth] at hcut
  rw [hexAt, hcut]
  rfl

lemma shortChannel_eq (h : List.Forall₂ IsHex ds ns) (hi : ns.drop i = n :: ns') :
    shortChannel (String.ofList ds) i = pure (17 * n) := by
  obtain ⟨d, ds', hd, -, hds⟩ := List.forall₂_cons_right_iff.mp (hi ▸ List.forall₂_drop i h)
  have hone : [d].length = 1 := rfl
  rw [← List.singleton_append] at hds
  rw [shortChannel, hexAt_eq h hds hone Nat.one_pos, byteOfHex?_cons hd]
  rfl

lemma longChannel_eq (h : List.Forall₂ IsHex ds ns) (hi : ns.drop i = n :: n' :: ns') :
    longChannel (String.ofList ds) i = pure (16 * n + n') := by
  obtain ⟨d, _, hd, htail, hds⟩ := List.forall₂_cons_right_iff.mp (hi ▸ List.forall₂_drop i h)
  obtain ⟨d', ds', hd', -, rfl⟩ := List.forall₂_cons_right_iff.mp htail
  have htwo : [d, d'].length = 2 := rfl
  have hpair : ds.drop i = [d, d'] ++ ds' := hds
  rw [longChannel, hexAt_eq h hpair htwo Nat.two_pos, byteOfHex?_cons hd, List.foldlM_cons,
    appendHex?_of_lt hd.lt hd']
  rfl

/-- Where a cut is made, the characters are known to be single bytes, and there are enough of them. -/
lemma readDigits_eq (digits : String) : readDigits digits = OptionT.mk (.ok (ofDigits? digits.toList)) := by
  obtain ⟨ds, rfl⟩ : ∃ ds, digits = String.ofList ds := ⟨_, String.ofList_toList.symm⟩
  rw [readDigits, ofDigits?, String.toList_ofList]
  split
  · next hall =>
    obtain ⟨ns, h⟩ := all_isSome_iff.mp hall
    rw [utf8ByteSize_ofList (utf8Size_of_mem h), h.length_eq, mapM_hexValue?_eq_some_iff.mpr h, Option.bind_some]
    -- three, four, six and eight digits are a colour, and no other number of digits is
    obtain _ | ⟨r, _ | ⟨r', _ | ⟨g, _ | ⟨g', _ | ⟨b, _ | ⟨b', _ | ⟨a, _ | ⟨a', _ | ⟨n, ns⟩⟩⟩⟩⟩⟩⟩⟩⟩ := ns
    · rfl
    · rfl
    · rfl
    · simp only [List.length_cons, shortChannel_eq h (i := 0) rfl, shortChannel_eq h (i := 1) rfl,
        shortChannel_eq h (i := 2) rfl]
      rfl
    · simp only [List.length_cons, shortChannel_eq h (i := 0) rfl, shortChannel_eq h (i := 1) rfl,
        shortChannel_eq h (i := 2) rfl, shortChannel_eq h (i := 3) rfl]
      rfl
    · rfl
    · simp only [List.length_cons, longChannel_eq h (i := 0) rfl, longChannel_eq h (i := 2) rfl,
        longChannel_eq h (i := 4) rfl]
      rfl
    · rfl
    · simp only [List.length_cons, longChannel_eq h (i := 0) rfl, longChannel_eq h (i := 2) rfl,
        longChannel_eq h (i := 4) rfl, longChannel_eq h (i := 6) rfl]
      rfl
    · rfl
  · next hall =>
    have hnone : ds.mapM hexValue? = none := by
      refine Option.eq_none_iff_forall_ne_some.mpr fun ns hns => hall ?_
      exact all_isSome_iff.mpr ⟨ns, mapM_hexValue?_eq_some_iff.mp hns⟩
    rw [hnone]
    rfl

/-- These are three bytes, but not three digits. -/
example : (readDigits "1é").run = .ok none := by decide +kernel

lemma parseByCuts_eq (text : String) : parseByCuts text = OptionT.mk (.ok (parse? text)) := by
  rw [parseByCuts]
  split
  · next hdigits => rw [parse?_of_hash hdigits, readDigits_eq, String.toList_ofList]
  · next hname => rw [parse?_of_not_hash hname]

/-- A colour is read back from each text that is written for it. The text with eight digits is that of the
solid colour with the alpha byte behind it, and the function for colours with an alpha channel gives it for each
colour and gives nothing else. A text is read as the colour that it shows, and the text that is then written is
read as that colour again. Digits that are cut apart at byte positions are read the same way: no cut goes wrong,
whatever the text is. -/
theorem parse?_reads_back (c : Rgba) (w : Value) (text digits : String) :
    (parse? c.display = some c ∧ parse? c.displayWithAlpha = some c) ∧
      (c.displayWithAlpha = (solid c.red c.green c.blue).display ++ String.ofList (hexByte c.alpha) ∧
        c.displayWithAlpha.length = 9) ∧
      ((∃ args, Function.rgba args = .ok w) ↔ ∃ c : Rgba, w = .color c.displayWithAlpha) ∧
      (parse? text = some c ↔ Shows text c) ∧
      (parse? text).bind (fun c => parse? c.display) = parse? text ∧
      (readDigits digits).run = .ok (ofDigits? digits.toList) ∧
      (parseByCuts text).run = .ok (parse? text) := by
  refine ⟨parse?_display c, ⟨displayWithAlpha_eq c, ?_⟩, exists_rgba_eq_ok_iff, parse?_eq_some_iff, ?_, ?_, ?_⟩
  · rw [displayWithAlpha, String.length_ofList]
    rfl
  · cases parse? text with
    | none => rfl
    | some c => exact (parse?_display c).1
  · rw [readDigits_eq]
    rfl
  · rw [parseByCuts_eq]
    rfl

end Rgba

end MapStyle
