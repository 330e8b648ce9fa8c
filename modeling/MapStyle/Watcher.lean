import MapStyle.Resolver
import MapStyle.FileSystem

/-!
# Watching stylesheet files

Stylesheets are loaded from files, and a resolver follows the changes of the files that it was
loaded from. A stylesheet that cannot be read any more stays as it was.
-/

namespace MapStyle

/-- Reads a stylesheet from a file; it keeps the path as it was given. -/
def Dialect.load {P : Type} (d : Dialect P) (fs : FileSystem) (path : Path) :
    Except Error (Sheet P) :=
  match fs.readText? path with
  | none => .error (.unreadable path.text)
  | some text => (d.parse text).map fun parsed => { parsed.sheet with path := some path }

/-- What has happened to a file. -/
inductive ChangeKind where
  | modified
  | removed
deriving DecidableEq, Repr

/-- A change of a file. -/
structure Change where
  path : Path
  kind : ChangeKind
deriving DecidableEq, Repr

namespace Resolver

variable {P : Type}

/-- Follows one change. The number counts the stylesheets that were loaded again. -/
def applyChange (d : Dialect P) (fs : FileSystem) (state : Resolver P × Nat) (c : Change) :
    Resolver P × Nat :=
  let (r, reloaded) := state
  match c.kind with
  | .removed => (r.remove c.path, reloaded)
  | .modified =>
    match d.load fs c.path with
    | .ok s => ((r.replace c.path s).2, reloaded + 1)
    | .error _ => (r, reloaded)

/-- Follows changes one after another, and counts the stylesheets that were loaded again. -/
def applyChanges (d : Dialect P) (fs : FileSystem) (r : Resolver P) (cs : List Change) :
    Resolver P × Nat :=
  cs.foldl (applyChange d fs) (r, 0)

end Resolver

/-- The files that are watched, each one once. -/
structure Watcher where
  watched : List RealPath := []

namespace Watcher

/-- Watches a file, which has to exist. The notifications of the operating system are left out, and
with them the case that it refuses a file; nothing more would be watched then, either. -/
def watch (w : Watcher) (fs : FileSystem) (path : Path) : Except Error Watcher :=
  match fs.realPath? path with
  | none => .error (.unreadable path.text)
  | some place => .ok (if w.watched.contains place then w else ⟨w.watched ++ [place]⟩)

/-- Stops watching a file. Nothing changes if there is no such file. -/
def unwatch (w : Watcher) (fs : FileSystem) (path : Path) : Watcher :=
  match fs.realPath? path with
  | none => w
  | some place => ⟨w.watched.filter (· != place)⟩

/-- The paths of the watched files, under which their changes are reported. -/
def paths (w : Watcher) : List Path :=
  w.watched.map RealPath.path

/-- The names of the watched files, sorted. -/
def names (w : Watcher) : List String :=
  (w.watched.filterMap (·.getLast?)).mergeSort (· ≤ ·)

end Watcher

end MapStyle
