import MapStyle.Sheet.Parse

/-!
# Resolving styles

A resolver holds stylesheets in the order of their precedence. For a layer and a candidate it gives
the passes in which the candidate is drawn.
-/

namespace MapStyle

/-- Adds a rule at the end of a stylesheet. -/
def Sheet.addRule {P : Type} (s : Sheet P) (r : Rule P) : Sheet P :=
  { s with rules := s.rules ++ [r] }

/-- Whether a stylesheet was loaded from a path. -/
def Sheet.isFrom {P : Type} (s : Sheet P) (path : Path) : Bool :=
  s.path.any (·.same path)

/-- One drawing of a candidate: the attachment it is for, and its properties. -/
structure Pass where
  attachment : Option String
  properties : Properties

/-- Stylesheets in the order of their precedence, of which a later one overrides an earlier one. -/
structure Resolver (P : Type) where
  sheets : List (Sheet P) := []

namespace Resolver

variable {P : Type}

/-- Adds a stylesheet on top. -/
def add (r : Resolver P) (s : Sheet P) : Resolver P :=
  ⟨r.sheets ++ [s]⟩

/-- Removes the stylesheets that were loaded from a path. -/
def remove (r : Resolver P) (path : Path) : Resolver P :=
  ⟨r.sheets.filter fun s => !s.isFrom path⟩

/-- Puts a stylesheet in the place of the first one that was loaded from a path. -/
def replaceFirst (path : Path) (s : Sheet P) : List (Sheet P) → Option (List (Sheet P))
  | [] => none
  | t :: ts => if t.isFrom path then some (s :: ts) else (replaceFirst path s ts).map (t :: ·)

/-- Puts a stylesheet in the place of the first one that was loaded from a path, or on top if there
is none. The answer tells whether there was one. -/
def replace (r : Resolver P) (path : Path) (s : Sheet P) : Bool × Resolver P :=
  match replaceFirst path s r.sheets with
  | some sheets => (true, ⟨sheets⟩)
  | none => (false, r.add s)

/-- How many top-level rules the stylesheets have. -/
def ruleCount (r : Resolver P) : Nat :=
  r.sheets.foldl (fun n s => n + s.rules.length) 0

/-- The properties of the map, of which those of a later stylesheet override earlier ones. -/
def map (r : Resolver P) : Properties :=
  r.sheets.foldl (fun p s => p.cascade s.map) {}

/-- The flat rules of the rules that are selected for a layer. -/
def layerRules (r : Resolver P) (layer : Option String) : RuleList P :=
  r.sheets.flatMap fun s => (s.rules.selectById layer true).flatten

variable [Predicate P]

/-- The attributes that drawing a layer may look at, sorted. -/
def fields (r : Resolver P) (layer : Option String) : List String :=
  (r.layerRules layer).fields

/-- The passes in which a candidate of a layer is drawn. -/
def resolve (r : Resolver P) (layer : Option String) (c : Candidate) : List Pass :=
  ((r.layerRules layer).matching c).zGroups.map fun g => ⟨g.attachment, g.rules.collapse⟩

end Resolver

end MapStyle
