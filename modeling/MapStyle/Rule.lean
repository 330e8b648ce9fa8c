import MapStyle.Selector
import MapStyle.Properties

/-!
# Rules

A rule gives properties to what its selectors select; rules inside it narrow that down further.
-/

namespace MapStyle

/-- What the selectors of a rule name. -/
inductive RuleKind where
  | anonymous | named | classed
deriving DecidableEq, Repr

/-- A rule with the rules nested in it. The name and the kind are kept beside the selectors that they
were taken from. -/
structure Rule (P : Type) where
  name : Option String
  kind : RuleKind
  selectors : List (Selector P)
  properties : Properties := {}
  nested : List (Rule P) := []

/-- The rule that selects nothing. -/
instance {P : Type} : Inhabited (Rule P) := ⟨⟨none, .anonymous, [], {}, []⟩⟩

namespace Rule

variable {P : Type}

/-- The first name among some selectors. -/
def firstName (ss : List (Selector P)) : Option String :=
  ss.findSome? (·.name)

/-- Selectors make a rule a named one if one of them has a name, and else a classed one if one has a
class. -/
def kindOf (ss : List (Selector P)) : RuleKind :=
  if (firstName ss).isSome then .named
  else if ss.any (!·.classes.isEmpty) then .classed
  else .anonymous

/-- The rule for some selectors. Unless something else is given, there is nothing in it yet. -/
def ofSelectors (ss : List (Selector P)) (properties : Properties := {})
    (nested : List (Rule P) := []) : Rule P :=
  ⟨firstName ss, kindOf ss, ss, properties, nested⟩

/-- The first attachment among the selectors. -/
def attachment (r : Rule P) : Option String :=
  r.selectors.findSome? (·.attachment)

/-- What a property of the rule becomes on a candidate. -/
def eval? (r : Rule P) (palette : Palette) (c : Candidate) (key : String) : Option Value :=
  (r.properties.get? key).bind (·.resolve? palette c)

mutual

/-- How deep rules are nested in a rule. -/
def depth : Rule P → Nat
  | ⟨_, _, _, _, nested⟩ => depthList nested

/-- How deep rules are nested below the parent of a list of rules. -/
def depthList : List (Rule P) → Nat
  | [] => 0
  | r :: rs => max (depth r + 1) (depthList rs)

end

variable [Predicate P]

mutual

/-- The attributes that a rule names in its filters and values, with those of the rules in it. -/
def fields : Rule P → List String
  | ⟨_, _, selectors, properties, nested⟩ =>
    selectors.flatMap Selector.fields ++ properties.fields ++ fieldsList nested

/-- The attributes that the rules of a list name. -/
def fieldsList : List (Rule P) → List String
  | [] => []
  | r :: rs => fields r ++ fieldsList rs

end

/-- The lines of a property map at a given indentation. -/
def displayProperties (indent : String) (p : Properties) : String :=
  String.join (p.entries.map fun e => indent ++ e.1 ++ ": " ++ e.2.display ++ ";\n")

mutual

/-- The written form of a rule, each level indented by two blanks. -/
def displayAt (indent : String) : Rule P → String
  | ⟨_, _, selectors, properties, nested⟩ =>
    indent ++ String.intercalate ", " (selectors.map Selector.display) ++ " \x7b\n" ++
      displayProperties (indent ++ "  ") properties ++
      displayListAt (indent ++ "  ") nested ++ indent ++ "\x7d\n"

/-- The written forms of the rules of a list. -/
def displayListAt (indent : String) : List (Rule P) → String
  | [] => ""
  | r :: rs => displayAt indent r ++ displayListAt indent rs

end

/-- The written form of a rule. -/
def display (r : Rule P) : String :=
  r.displayAt ""

/-- Equality of two lists of selectors, one by one. -/
def equalSelectors (ss ts : List (Selector P)) : Bool :=
  ss.length == ts.length && (ss.zip ts).all fun (s, t) => s.equal t

mutual

/-- Equality of rules, part by part. -/
def equal : Rule P → Rule P → Bool
  | ⟨name, kind, ss, p, rs⟩, ⟨name', kind', ts, q, us⟩ =>
    name == name' && kind == kind' && equalSelectors ss ts && p.equal q && equalList rs us

/-- Equality of two lists of rules, one by one. -/
def equalList : List (Rule P) → List (Rule P) → Bool
  | [], [] => true
  | r :: rs, u :: us => equal r u && equalList rs us
  | _, _ => false

end

end Rule

end MapStyle
