import MapStyle.Sheet.Basic

/-!
# The state of a stylesheet reader

A stylesheet is read by a machine with three stacks. The control stack says which constructs are
being read, the context stack holds what is known of them so far, and the fragment stack holds the
blocks whose braces are open. The operations here change one of them each, and name the fault where
the stacks do not fit the token at hand.
-/

namespace MapStyle

/-- A construct that is being read. -/
inductive Mode where
  | root
  | rule
  | declaration
  | filter
  | call
  | reference
  | map
deriving DecidableEq, Repr

/-- A declaration of which a part has been read. -/
structure Declaration where
  key : Option String := none
  separated : Bool := false
  values : List Value := []

/-- A call of which a part has been read. -/
structure OpenCall where
  name : String
  args : List Argument := []
  expectsArgument : Bool := true
  opening : Token

/-- Something that is known of a construct being read. In a list of selectors the last one is the
one being read; the markers stand for a single token that has been read. -/
inductive Frame (P : Type) where
  | selectors (earlier : List (Selector P)) (current : Selector P)
  | ruleBody
  | declaration (d : Declaration)
  | classMarker
  | colonMarker
  | attachmentMarker
  | commaMarker
  | filterText (text : String) (opening : Token)
  | call (c : OpenCall)
  | reference (name : Option String) (opening : Token)
  | mapBody

/-- A block whose braces are open. -/
inductive Fragment (P : Type) where
  | rule (r : Rule P)
  | map (p : Properties)

/-- The state of a reader: its stacks, innermost entry first, what it has finished, and the place of
the last token it has looked at. -/
structure Machine (P : Type) where
  control : List Mode := [.root]
  context : List (Frame P) := []
  fragments : List (Fragment P) := []
  rules : List (Rule P) := []
  map : Properties := {}
  warnings : List Warning := []
  last : Location := {}

namespace Fragment

variable {P : Type}

/-- Changes the properties of an open block. -/
def mapProperties (f : Properties → Properties) : Fragment P → Fragment P
  | rule r => rule { r with properties := f r.properties }
  | map p => map (f p)

/-- Whether an open block is a rule. -/
def isRule : Fragment P → Bool
  | rule _ => true
  | map _ => false

end Fragment

namespace DuplicateKeys

/-- Declares a key in a block. -/
def declare (policy : DuplicateKeys) (key : String) (value : Value) (p : Properties) : Properties :=
  match policy with
  | overwrite => p.set key value
  | accumulate => p.append key value

/-- Adds a finished block to the properties of the map. -/
def join (policy : DuplicateKeys) (map block : Properties) : Properties :=
  match policy with
  | overwrite => map.cascade block
  | accumulate => map.appendAll block

end DuplicateKeys

namespace Machine

variable {P : Type}

/-- Puts a frame on the context stack. -/
def pushFrame (m : Machine P) (f : Frame P) : Machine P :=
  { m with context := f :: m.context }

/-- Takes the top frame from the context stack. -/
def dropFrame (m : Machine P) : Machine P :=
  { m with context := m.context.tail }

/-- Whether the body of a rule is being read. -/
def inRuleBody (m : Machine P) : Bool :=
  match m.context with
  | .ruleBody :: _ => true
  | _ => false

/-- Whether the body of a `Map` block is being read. -/
def inMapBody (m : Machine P) : Bool :=
  match m.context with
  | .mapBody :: _ => true
  | _ => false

/-- Whether a comma between two filters has been read. -/
def atComma (m : Machine P) : Bool :=
  match m.context with
  | .commaMarker :: _ => true
  | _ => false

/-! ### Selectors -/

/-- Changes the selector being read in a context. -/
def updateInContext (t : Token) (f : Selector P → Except Error (Selector P)) :
    List (Frame P) → Except Error (List (Frame P))
  | [] => .error (.atToken .missingSelector t)
  | .selectors earlier current :: below =>
    (f current).map fun s => .selectors earlier s :: below
  | frame :: below => (updateInContext t f below).map (frame :: ·)

/-- Changes the selector being read. -/
def updateSelector (m : Machine P) (t : Token) (f : Selector P → Except Error (Selector P)) :
    Except Error (Machine P) :=
  (updateInContext t f m.context).map fun context => { m with context }

/-- Goes on to the next selector of a list. -/
def nextSelector (m : Machine P) : Machine P :=
  match m.context with
  | .selectors earlier current :: below =>
    { m with context := .selectors (earlier ++ [current]) {} :: below }
  | _ => m

/-- Opens the rule that the selectors on top of the context are for. -/
def openRule (limit : Nat) (m : Machine P) (t : Token) : Except Error (Machine P) :=
  match m.context with
  | .selectors earlier current :: below =>
    let selectors := earlier ++ [current]
    if selectors.any Selector.isEmpty then .error (.atToken .emptySelector t)
    else if limit ≤ m.fragments.countP Fragment.isRule then
      .error (.atToken (.rulesTooDeep limit) t)
    else .ok { m with
      context := .ruleBody :: below
      fragments := .rule (.ofSelectors selectors) :: m.fragments }
  | _ => .error (.atToken .missingSelectorBeforeBrace t)

/-! ### Declarations -/

/-- Changes the declaration being read. -/
def updateDeclaration (m : Machine P) (t : Token) (f : Declaration → Except Error Declaration) :
    Except Error (Machine P) :=
  match m.context with
  | .declaration d :: below => (f d).map fun d => { m with context := .declaration d :: below }
  | _ => .error (.atToken .valueOutsideDeclaration t)

/-- A declaration whose colon has been read, which values may follow. -/
def requireColon (t : Token) (d : Declaration) : Except Error Declaration :=
  if d.separated then .ok d else .error (.atToken .missingColon t)

/-- Adds a value to the declaration being read. -/
def pushValue (m : Machine P) (t : Token) (v : Value) : Except Error (Machine P) :=
  m.updateDeclaration t fun d =>
    (requireColon t d).map fun d => { d with values := d.values ++ [v] }

/-- The literal that a numeric token stands for. The unit `px` is dropped; what is then not a number
is kept as text, with a warning. -/
def readNumber (m : Machine P) (t : Token) : Machine P × Literal :=
  match Literal.parseNumber? (Text.dropEnding "px" t.text) with
  | some value => (m, value)
  | none => ({ m with warnings := m.warnings ++ [⟨t.text, t.location⟩] }, .string t.text)

/-- The number that a value is, if it is numeric. -/
def numericItem? : Value → Option Float
  | .literal value => if value.isNumeric then value.asFloat? else none
  | _ => none

/-- The single value of a declaration: one value as it is, numbers as a list, and other literals as
words of one string. -/
def combine (key : String) : List Value → Except Fault Value
  | [] => .error (.missingValue key)
  | [v] => .ok v
  | vs =>
    match vs.mapM numericItem? with
    | some items => .ok (.list items)
    | none =>
      match vs.mapM Value.asLiteral? with
      | some words => .ok (.string (String.intercalate " " (words.map Literal.display)))
      | none => .error (.mixedValue key)

/-- Ends the declaration being read and declares its key in the innermost open block. -/
def commit (policy : DuplicateKeys) (m : Machine P) (t : Token) : Except Error (Machine P) :=
  match m.context with
  | .declaration d :: below =>
    match d.key with
    | none => .error (.atToken .missingKey t)
    | some key =>
      if !d.separated then .error (.atToken (.missingColonAfter key) t)
      else
        match combine key d.values, m.fragments with
        | .error fault, _ => .error (.atToken fault t)
        | .ok _, [] => .error (.atToken .declarationOutsideBlock t)
        | .ok value, block :: outer =>
          .ok { m with
            context := below
            fragments := block.mapProperties (policy.declare key value) :: outer }
  | _ => .error (.atToken .missingDeclaration t)

/-! ### Calls -/

/-- Changes the call being read. -/
def updateCall (m : Machine P) (t : Token) (f : OpenCall → Except Error OpenCall) :
    Except Error (Machine P) :=
  match m.context with
  | .call c :: below => (f c).map fun c => { m with context := .call c :: below }
  | _ => .error (.atToken .argumentOutsideCall t)

/-- A call in which an argument may follow. -/
def requireArgument (t : Token) (c : OpenCall) : Except Error OpenCall :=
  if c.expectsArgument then .ok c else .error (.atToken .missingComma t)

/-- Adds an argument to the call being read. -/
def pushArgument (m : Machine P) (t : Token) (a : Argument) : Except Error (Machine P) :=
  m.updateCall t fun c =>
    (requireArgument t c).map fun c => { c with args := c.args ++ [a], expectsArgument := false }

/-- Ends the call being read; its value goes into the declaration around it. -/
def closeCall (functions : Registry) (m : Machine P) (t : Token) : Except Error (Machine P) :=
  match m.context with
  | .call c :: below =>
    if c.expectsArgument && !c.args.isEmpty then .error (.atToken .missingArgumentBeforeParen t)
    else
      match functions.build c.name c.args with
      | .error cause => .error (.atToken (.invalidCall c.name cause) c.opening)
      | .ok value => pushValue { m with context := below } t value
  | _ => .error (.unexpected t .outsideCall)

/-- Ends an attribute reference; it goes into the call or declaration around it. -/
def closeReference (m : Machine P) (t : Token) : Except Error (Machine P) :=
  match m.context with
  | .reference name opening :: below =>
    let m := { m with context := below }
    match name, below with
    | none, _ => .error (.atToken .emptyReference opening)
    | some name, .call _ :: _ => m.pushArgument opening (.reference name)
    | some name, _ => m.pushValue opening (.reference name)
  | _ => .error (.unexpected t .outsideReference)

/-! ### Filters -/

/-- Ends a filter. Behind a comma it widens the selector's filter, else it narrows it. -/
def closeFilter (engine : PredicateEngine P) (m : Machine P) : Except Error (Machine P) :=
  match m.context with
  | .filterText text opening :: below =>
    let text := Text.trim text
    if text.isEmpty then .error (.atToken .emptyFilter opening)
    else
      match engine text with
      | .error cause => .error (.badFilter text opening.location cause)
      | .ok p =>
        match below with
        | .commaMarker :: below =>
          updateSelector { m with context := below } opening fun s =>
            .ok (s.orFilter (.predicate p))
        | _ =>
          updateSelector { m with context := below } opening fun s =>
            .ok (s.andFilter (.predicate p))
  | _ => .error (.atEnd .missingFilter m.last)

/-- Adds a token to the text of the filter being read. White space shrinks to one blank, and to none
at the start. -/
def extendFilter (m : Machine P) (t : Token) : Except Error (Machine P) :=
  match m.context with
  | .filterText text opening :: below =>
    let text :=
      if t.isWhitespace then (if text.isEmpty then text else text ++ " ") else text ++ t.raw
    .ok { m with context := .filterText text opening :: below }
  | _ => .error (.unexpected t .outsideFilter)

/-! ### Blocks -/

/-- Ends a top-level block. -/
def closeBlock (policy : DuplicateKeys) (m : Machine P) (t : Token) : Except Error (Machine P) :=
  match m.context, m.fragments with
  | .ruleBody :: below, .rule r :: outer =>
    .ok { m with context := below, fragments := outer, rules := m.rules ++ [r] }
  | .mapBody :: below, .map p :: outer =>
    .ok { m with context := below, fragments := outer, map := policy.join m.map p }
  | _, _ => .error (.atToken .unmatchedBrace t)

/-- Ends a nested rule, which becomes the last one in the rule around it. -/
def closeNested (m : Machine P) (t : Token) : Except Error (Machine P) :=
  match m.context, m.fragments with
  | .ruleBody :: below, .rule child :: outer =>
    match outer with
    | .rule parent :: outermost =>
      .ok { m with
        context := below
        fragments := .rule { parent with nested := parent.nested ++ [child] } :: outermost }
    | _ => .error (.atToken .nestedOutsideRule t)
  | _, _ => .error (.atToken .unmatchedBrace t)

end Machine

end MapStyle
