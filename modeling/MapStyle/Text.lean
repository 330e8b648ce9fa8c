/-!
# Text

White space as Unicode lists it, trimming, and comparison of words up to the case of ASCII letters.
Everything here works character by character, so that the other modules never count bytes.
-/

namespace MapStyle.Text

/-- The characters with the Unicode property `White_Space`. -/
def isBlank (c : Char) : Bool :=
  let n := c.toNat
  (0x09 ≤ n && n ≤ 0x0D) || n == 0x20 || n == 0x85 || n == 0xA0 || n == 0x1680 ||
    (0x2000 ≤ n && n ≤ 0x200A) || n == 0x2028 || n == 0x2029 || n == 0x202F || n == 0x205F ||
    n == 0x3000

/-- The characters between the first and the last one that is not blank. -/
def trimChars (cs : List Char) : List Char :=
  ((cs.dropWhile isBlank).reverse.dropWhile isBlank).reverse

/-- A text without the blanks at its two ends. -/
def trim (s : String) : String :=
  String.ofList (trimChars s.toList)

/-- Two words are the same if they differ only in the case of ASCII letters. -/
def sameWord (s t : String) : Bool :=
  s.toLower == t.toLower

/-- The text before a given ending, or the whole text if it ends otherwise. -/
def dropEnding (ending s : String) : String :=
  let cs := s.toList
  let es := ending.toList
  if es.isSuffixOf cs then String.ofList (cs.take (cs.length - es.length)) else s

/-- Names in increasing order of their code points, each one once. -/
def sortedNames (names : List String) : List String :=
  (names.mergeSort (· ≤ ·)).eraseReps

end MapStyle.Text
