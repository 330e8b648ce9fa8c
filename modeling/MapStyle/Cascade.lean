import MapStyle.Rule

/-!
# The cascade

How a list of rules becomes properties: nested rules are flattened into one rule for each path,
selections keep some of the rules, later rules override earlier ones, and rules with different
attachments stay apart.
-/

namespace MapStyle

/-- Rules in the order of the cascade. -/
abbrev RuleList (P : Type) := List (Rule P)

/-- The rules that share an attachment. -/
structure ZGroup (P : Type) where
  attachment : Option String
  rules : RuleList P

namespace Rule

variable {P : Type}

/-- The selectors of a nested rule within those around it: every pair that does not conflict. A list
without selectors leaves the other one as it is; if all pairs conflict there is no result. -/
def mergeSelectors (outer inner : List (Selector P)) : Option (List (Selector P)) :=
  if outer.isEmpty then some inner
  else if inner.isEmpty then some outer
  else
    let merged := outer.flatMap fun s => inner.filterMap s.merge
    if merged.isEmpty then none else some merged

/-- Whether a rule gives a flat rule of its own. A rule without declarations that contains others is
only a bracket around them. -/
def isGiving (r : Rule P) : Bool :=
  !r.properties.isEmpty || r.nested.isEmpty

/-- The flat rule of a top-level rule. -/
def root (r : Rule P) : Rule P :=
  ofSelectors r.selectors r.properties

/-- The flat rule of a nested rule, given the flat rule of the one around it. There is none if their
selectors conflict. -/
def descend (path child : Rule P) : Option (Rule P) :=
  (mergeSelectors path.selectors child.selectors).map fun merged =>
    ofSelectors merged (path.properties.cascade child.properties)

/-- Puts the rules of a list on a stack, together with their flat rules inside a given one. The last
rule is put down first, so that the first one comes out on top; rules whose selectors conflict are
left out. -/
def pushNested (path : Rule P) (nested : List (Rule P)) (pending : List (Rule P × Rule P)) :
    List (Rule P × Rule P) :=
  nested.reverse.foldl (fun pending child =>
    match path.descend child with
    | some next => (child, next) :: pending
    | none => pending) pending

mutual

/-- How many rules a rule consists of. -/
def size : Rule P → Nat
  | ⟨_, _, _, _, nested⟩ => sizeList nested + 1

/-- How many rules the rules of a list consist of. -/
def sizeList : List (Rule P) → Nat
  | [] => 0
  | r :: rs => size r + sizeList rs

end

/-- How many rules are still to be visited from a stack. -/
def sizePending (pending : List (Rule P × Rule P)) : Nat :=
  sizeList (pending.map (·.1))

theorem sizePending_pushNested_le (path : Rule P) (nested : List (Rule P))
    (pending : List (Rule P × Rule P)) :
    sizePending (pushNested path nested pending) ≤ sizeList nested + sizePending pending := by
  rw [pushNested, List.foldl_reverse]
  induction nested with
  | nil => simp [sizeList]
  | cons child nested ih =>
    rw [List.foldr_cons, sizeList]
    split
    · simp only [sizePending, List.map_cons, sizeList] at ih ⊢
      omega
    · omega

/-- The flat rules of the rules on a stack and of all that they contain, each with its own flat rule
beside it. -/
def flattenPending : List (Rule P × Rule P) → List (Rule P)
  | [] => []
  | (node, path) :: pending =>
    (if node.isGiving then [path] else []) ++ flattenPending (pushNested path node.nested pending)
termination_by pending => sizePending pending
decreasing_by
  have h := sizePending_pushNested_le path node.nested pending
  obtain ⟨_, _, _, _, nested⟩ := node
  simp only [sizePending, List.map_cons, sizeList, size] at h ⊢
  omega

/-- The flat rules of a rule, a rule before those nested in it. Each one has the merged selectors of
its path and the properties that it inherits and overrides. -/
def flatten (r : Rule P) : List (Rule P) :=
  flattenPending [(r, r.root)]

end Rule

namespace RuleList

variable {P : Type}

/-- The rules one of whose selectors has a certain name. -/
def selectByName (rs : RuleList P) (name : Option String) (wildcard : Bool) : RuleList P :=
  rs.filter fun r => r.selectors.any (·.selectsName name wildcard)

/-- The rules one of whose selectors has a certain identifier. -/
def selectById (rs : RuleList P) (id : Option String) (wildcard : Bool) : RuleList P :=
  rs.filter fun r => r.selectors.any (·.selectsId id wildcard)

/-- The rules one of whose selectors has a certain class. -/
def selectByClass (rs : RuleList P) (wanted : Option String) (wildcard : Bool) : RuleList P :=
  rs.filter fun r => r.selectors.any (·.selectsClass wanted wildcard)

/-- The rules with all nesting flattened. -/
def flatten (rs : RuleList P) : RuleList P :=
  rs.flatMap Rule.flatten

/-- The properties of all rules, of which a later one overrides an earlier one. -/
def collapse (rs : RuleList P) : Properties :=
  rs.foldl (fun p r => p.cascade r.properties) {}

/-- Adds a rule to the group of its attachment, or to a new group at the end. -/
def insertGroup (r : Rule P) : List (ZGroup P) → List (ZGroup P)
  | [] => [⟨r.attachment, [r]⟩]
  | g :: gs =>
    if g.attachment = r.attachment then { g with rules := g.rules ++ [r] } :: gs
    else g :: insertGroup r gs

/-- The rules by attachment, in the order in which the attachments first appear. -/
def zGroups (rs : RuleList P) : List (ZGroup P) :=
  rs.foldl (fun gs r => insertGroup r gs) []

variable [Predicate P]

/-- The rules one of whose selectors accepts a candidate. -/
def matching (rs : RuleList P) (c : Candidate) : RuleList P :=
  rs.filter fun r => r.selectors.any (·.accepts c)

/-- The attributes that the rules name, sorted. -/
def fields (rs : RuleList P) : List String :=
  Text.sortedNames (rs.flatMap Rule.fields)

end RuleList

end MapStyle
