import MapStyle.Filter

/-!
# Selectors

What a rule applies to: a name, an identifier, classes, a wildcard, a filter, and the attachment
under which its style is drawn. Selectors of nested rules are merged with those around them.
-/

namespace MapStyle

/-- The parts of one selector. -/
structure Selector (P : Type) where
  name : Option String := none
  id : Option String := none
  classes : List String := []
  wildcard : Bool := false
  filter : Option (Filter P) := none
  attachment : Option String := none

/-- The part that a selector mainly selects by. -/
inductive SelectorKind where
  | byName | byId | byClass | wildcard
deriving DecidableEq, Repr

namespace Selector

variable {P : Type}

/-- The strongest part present: identifier, name, class, wildcard. -/
def kind (s : Selector P) : Option SelectorKind :=
  if s.id.isSome then some .byId
  else if s.name.isSome then some .byName
  else if !s.classes.isEmpty then some .byClass
  else if s.wildcard then some .wildcard
  else none

/-- A selector without any part. -/
def isEmpty (s : Selector P) : Bool :=
  s.kind.isNone && s.filter.isNone && s.attachment.isNone

/-- Adds a class at the end, unless the selector has it already. -/
def insertClass (s : Selector P) (c : String) : Selector P :=
  if s.classes.contains c then s else { s with classes := s.classes ++ [c] }

/-- Narrows the selector by one more filter. -/
def andFilter (s : Selector P) (f : Filter P) : Selector P :=
  { s with filter := some (match s.filter with | some g => g.and f | none => f) }

/-- Widens the selector's filter by another one. -/
def orFilter (s : Selector P) (f : Filter P) : Selector P :=
  { s with filter := some (match s.filter with | some g => g.or f | none => f) }

/-- Whether the selector has exactly that name; with `wildcard`, a wildcard selector will do. -/
def selectsName (s : Selector P) (name : Option String) (wildcard : Bool) : Bool :=
  s.name == name || (wildcard && s.wildcard)

/-- Whether the selector has exactly that identifier; with `wildcard`, a wildcard one will do. -/
def selectsId (s : Selector P) (id : Option String) (wildcard : Bool) : Bool :=
  s.id == id || (wildcard && s.wildcard)

/-- Whether the selector has the class, or no class if none is asked for; with `wildcard`, a
wildcard selector will do. -/
def selectsClass (s : Selector P) (wanted : Option String) (wildcard : Bool) : Bool :=
  (match wanted with
    | some c => s.classes.contains c
    | none => s.classes.isEmpty) || (wildcard && s.wildcard)

/-- Two optional parts agree if at most one is present or both are the same; the outcome is the part
that results. -/
def agree : Option String → Option String → Option (Option String)
  | some a, some b => if a = b then some (some a) else none
  | some a, none => some (some a)
  | none, b => some b

/-- The filter that results from two optional ones. -/
def mergeFilters : Option (Filter P) → Option (Filter P) → Option (Filter P)
  | some f, some g => some (f.and g)
  | some f, none => some f
  | none, g => g

/-- The classes of a list, followed by those of another one that are new. -/
def mergeClasses (cs ds : List String) : List String :=
  ds.foldl (fun acc d => if acc.contains d then acc else acc ++ [d]) cs

/-- The selector of a nested rule within a surrounding one. There is none if the two disagree on
name, identifier or attachment. The wildcard is lost once a name or identifier is known. -/
def merge (outer inner : Selector P) : Option (Selector P) := do
  let name ← agree outer.name inner.name
  let id ← agree outer.id inner.id
  let attachment ← agree outer.attachment inner.attachment
  pure
    { name, id, attachment
      classes := mergeClasses outer.classes inner.classes
      wildcard := (outer.wildcard || inner.wildcard) && name.isNone && id.isNone
      filter := mergeFilters outer.filter inner.filter }

variable [Predicate P]

/-- Whether the selector's filter, if it has one, lets a candidate pass. -/
def accepts (s : Selector P) (c : Candidate) : Bool :=
  s.filter.all (·.accepts c)

/-- The attributes that the selector's filter names. -/
def fields (s : Selector P) : List String :=
  match s.filter with
  | some f => f.fields
  | none => []

/-- The written form of a selector: its parts in a fixed order, without blanks between them. -/
def display (s : Selector P) : String :=
  s.name.getD "" ++
  (match s.id with | some id => "#" ++ id | none => "") ++
  String.join (s.classes.map ("." ++ ·)) ++
  (if s.wildcard then "*" else "") ++
  (match s.filter with | some f => "[" ++ f.display ++ "]" | none => "") ++
  (match s.attachment with | some a => "::" ++ a | none => "")

/-- Equality of selectors, part by part. -/
def equal (s t : Selector P) : Bool :=
  s.name == t.name && s.id == t.id && s.classes == t.classes && s.wildcard == t.wildcard &&
    (match s.filter, t.filter with
      | some f, some g => f.equal g
      | none, none => true
      | _, _ => false) && s.attachment == t.attachment

end Selector

end MapStyle
