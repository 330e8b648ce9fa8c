import MapStyle.Path

/-!
# File systems

Files by their place below the root, a working directory, and how a path leads to a place.
Directories are not stored: the working directory is one, as is every place above it or above a
file. There are no symbolic links, so each file has one place.
-/

namespace MapStyle

/-- A place in a file system, as the names that lead to it from the root. -/
abbrev RealPath := List String

/-- The path from the root to a place. -/
def RealPath.path (place : RealPath) : Path :=
  ⟨"/" ++ String.intercalate "/" place⟩

/-- The files of a file system, and the directory that relative paths start from. -/
structure FileSystem where
  home : RealPath := []
  files : List (RealPath × ByteArray) := []

namespace FileSystem

/-- Whether a place is a directory. -/
def isDirectory (fs : FileSystem) (place : RealPath) : Bool :=
  place.isPrefixOf fs.home ||
    fs.files.any fun f => place.isPrefixOf f.1 && place.length < f.1.length

/-- The contents of the file at a place. -/
def fileAt? (fs : FileSystem) (place : RealPath) : Option ByteArray :=
  fs.files.lookup place

/-- The place that one piece of a path leads to from another place, which must be a directory. -/
def follow (fs : FileSystem) (place : RealPath) (piece : String) : Option RealPath :=
  if !fs.isDirectory place then none
  else if piece = "" || piece = "." then some place
  else if piece = ".." then some place.dropLast
  else some (place ++ [piece])

/-- The place that a path leads to, whether there is anything or not. -/
def target? (fs : FileSystem) (p : Path) : Option RealPath :=
  if p.text.isEmpty then none
  else p.pieces.foldlM fs.follow (if p.isAbsolute then [] else fs.home)

/-- The one place of the file or directory that a path names. -/
def realPath? (fs : FileSystem) (p : Path) : Option RealPath :=
  (fs.target? p).filter fun place => (fs.fileAt? place).isSome || fs.isDirectory place

/-- The contents of the file that a path names. -/
def read? (fs : FileSystem) (p : Path) : Option ByteArray :=
  (fs.target? p).bind fs.fileAt?

/-- The text of the file that a path names. There is none if the contents are not UTF-8. -/
def readText? (fs : FileSystem) (p : Path) : Option String :=
  (fs.read? p).bind String.fromUTF8?

/-- Removes the file that a path names. -/
def delete (fs : FileSystem) (p : Path) : FileSystem :=
  match fs.target? p with
  | some place => { fs with files := fs.files.filter (·.1 != place) }
  | none => fs

/-- Gives the file that a path names new contents. -/
def write (fs : FileSystem) (p : Path) (contents : ByteArray) : FileSystem :=
  match fs.target? p with
  | some place => { fs with files := (place, contents) :: fs.files.filter (·.1 != place) }
  | none => fs

end FileSystem

end MapStyle
