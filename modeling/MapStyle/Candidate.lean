import MapStyle.Literal
import Std.Data.TreeMap

/-!
# Candidates and features

A stylesheet is applied to candidates: anything that can be asked for an attribute by name. A
feature is the ordinary candidate, a record with an optional identifier and named attributes.
-/

namespace MapStyle

/-- What a stylesheet can see of a record: the value of each attribute that it has. -/
abbrev Candidate := String → Option Literal

/-- A record with named attributes, kept in the order of their names. -/
structure Feature where
  id : Option String := none
  attributes : Std.TreeMap String Literal := ∅

namespace Feature

/-- Sets an attribute, in place of an earlier one of the same name. -/
def set (f : Feature) (name : String) (value : Literal) : Feature :=
  { f with attributes := f.attributes.insert name value }

/-- The value of an attribute. -/
def get? (f : Feature) (name : String) : Option Literal :=
  f.attributes.get? name

/-- A feature seen as a candidate. -/
def candidate (f : Feature) : Candidate :=
  f.get?

/-- The attributes in the order of their names. -/
def toList (f : Feature) : List (String × Literal) :=
  f.attributes.toList

/-- A feature with the given attributes, of which a later one replaces an earlier one. -/
def ofList (id : Option String) (attributes : List (String × Literal)) : Feature :=
  attributes.foldl (fun f a => f.set a.1 a.2) { id }

/-- Features are equal if their identifiers are and their attributes are, value by value. -/
def equal (f g : Feature) : Bool :=
  let as := f.toList
  let bs := g.toList
  f.id == g.id && as.length == bs.length &&
    (as.zip bs).all fun (a, b) => a.1 == b.1 && a.2.equal b.2

end Feature

end MapStyle
