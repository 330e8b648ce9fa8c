import MapStyle.Predicate

/-!
# Filters

The test trees that selectors carry: predicates joined by AND and OR. Joining keeps a tree flat, so
a run of conditions is one list of parts.
-/

namespace MapStyle

/-- A tree of predicates. -/
inductive Filter (P : Type) where
  | predicate (p : P)
  | all (parts : List (Filter P))
  | any (parts : List (Filter P))

/-- The filter without conditions is there whatever the predicates are. -/
instance {P : Type} : Inhabited (Filter P) := ⟨.all []⟩

namespace Filter

variable {P : Type}

/-- The parts that a filter brings into a conjunction. -/
def conjuncts : Filter P → List (Filter P)
  | all parts => parts
  | f => [f]

/-- The parts that a filter brings into a disjunction. -/
def disjuncts : Filter P → List (Filter P)
  | any parts => parts
  | f => [f]

/-- Both filters: a conjunction on either side gives its parts to the whole. -/
def and (f g : Filter P) : Filter P :=
  all (f.conjuncts ++ g.conjuncts)

/-- Either filter: a disjunction on either side gives its parts to the whole. -/
def or (f g : Filter P) : Filter P :=
  any (f.disjuncts ++ g.disjuncts)

variable [Predicate P]

mutual

/-- What a filter says of a candidate. -/
def evaluate (c : Candidate) : Filter P → Verdict EvalError
  | predicate p => Predicate.evaluate p c
  | all parts => evaluateAll c parts
  | any parts => evaluateAny c parts

/-- The conjunction of the filters of a list. -/
def evaluateAll (c : Candidate) : List (Filter P) → Verdict EvalError
  | [] => .ok true
  | f :: fs => (evaluate c f).and (evaluateAll c fs)

/-- The disjunction of the filters of a list. -/
def evaluateAny (c : Candidate) : List (Filter P) → Verdict EvalError
  | [] => .ok false
  | f :: fs => (evaluate c f).or (evaluateAny c fs)

end

/-- Whether a filter lets a candidate pass; a filter without an answer does not. -/
def accepts (f : Filter P) (c : Candidate) : Bool :=
  (f.evaluate c).holds

mutual

/-- The attributes that a filter names, in reading order. -/
def fields : Filter P → List String
  | predicate p => Predicate.fields p
  | all parts => fieldsList parts
  | any parts => fieldsList parts

/-- The attributes that the filters of a list name. -/
def fieldsList : List (Filter P) → List String
  | [] => []
  | f :: fs => fields f ++ fieldsList fs

end

mutual

/-- The written form of a filter: each part of a list stands in parentheses. -/
def display : Filter P → String
  | predicate p => Predicate.display p
  | all parts => String.intercalate " AND " (displayParts parts)
  | any parts => String.intercalate " OR " (displayParts parts)

/-- The written forms of the parts of a list. -/
def displayParts : List (Filter P) → List String
  | [] => []
  | f :: fs => ("(" ++ display f ++ ")") :: displayParts fs

end

mutual

/-- Filters are equal if they have the same shape and their predicates the same written form. -/
def equal : Filter P → Filter P → Bool
  | predicate p, predicate q => Predicate.display p == Predicate.display q
  | all fs, all gs => equalList fs gs
  | any fs, any gs => equalList fs gs
  | _, _ => false

/-- Equality of two lists of filters, part by part. -/
def equalList : List (Filter P) → List (Filter P) → Bool
  | [], [] => true
  | f :: fs, g :: gs => equal f g && equalList fs gs
  | _, _ => false

end

end Filter

end MapStyle
