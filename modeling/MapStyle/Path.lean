/-!
# Paths

File names as they are given and as they compare. Two paths are the same if their components are:
empty components count for nothing, nor does a `.`, unless a relative path starts with it.
-/

namespace MapStyle

/-- A file name as it was given. -/
structure Path where
  text : String
deriving DecidableEq, Repr

namespace Path

/-- The pieces of a text between slashes. -/
def pieces (p : Path) : List String :=
  (p.text.toList.splitOnP (· == '/')).map String.ofList

/-- Whether a path starts at the root of the file system. -/
def isAbsolute (p : Path) : Bool :=
  p.text.toList.head? == some '/'

/-- The pieces that name something. -/
def proper (pieces : List String) : List String :=
  pieces.filter fun s => s != "" && s != "."

/-- The components of a path. -/
def components (p : Path) : List String :=
  if p.isAbsolute then "/" :: proper p.pieces
  else if p.pieces.head? = some "." then "." :: proper p.pieces
  else proper p.pieces

/-- Whether two paths compare as equal. -/
def same (p q : Path) : Bool :=
  p.components == q.components

end Path

end MapStyle
