/-!
# Pieces of a text

What a scanner hands back: what it has read, the characters that this took, and the characters that
are left. No scanner loses a character, which is stated for each one about `Piece.source`. These facts
stand beside the scanners since it is by them that their recursions end.
-/

namespace MapStyle

/-- A value cut from the front of a text. -/
structure Piece (α : Type) where
  value : α
  raw : List Char
  rest : List Char

namespace Piece

variable {α β : Type}

/-- The text that a piece was cut from. -/
def source (p : Piece α) : List Char :=
  p.raw ++ p.rest

/-- The piece with another value. -/
def map (f : α → β) (p : Piece α) : Piece β :=
  ⟨f p.value, p.raw, p.rest⟩

/-- The piece with more characters in front. -/
def after (pre : List Char) (p : Piece α) : Piece α :=
  ⟨p.value, pre ++ p.raw, p.rest⟩

@[simp] theorem source_map (f : α → β) (p : Piece α) : (p.map f).source = p.source := rfl

@[simp] theorem source_after (pre : List Char) (p : Piece α) :
    (p.after pre).source = pre ++ p.source := by
  simp [source, after]

@[simp] theorem source_mk (a : α) (raw rest : List Char) :
    (Piece.mk a raw rest).source = raw ++ rest := rfl

@[simp] theorem raw_after (pre : List Char) (p : Piece α) : (p.after pre).raw = pre ++ p.raw := rfl

@[simp] theorem raw_map (f : α → β) (p : Piece α) : (p.map f).raw = p.raw := rfl

/-- What is left of a text is no longer than the text. -/
theorem rest_length_le {p : Piece α} {cs : List Char} (h : p.source = cs) :
    p.rest.length ≤ cs.length := by
  subst h
  simp [source]

/-- What is left of a text is shorter than the text if anything was read. -/
theorem rest_length_lt {p : Piece α} {cs : List Char} (h : p.source = cs) (hr : p.raw ≠ []) :
    p.rest.length < cs.length := by
  subst h
  have := List.length_pos_iff.2 hr
  simp only [source, List.length_append]
  omega

end Piece

end MapStyle
