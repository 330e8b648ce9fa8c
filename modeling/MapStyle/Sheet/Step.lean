import MapStyle.Sheet.Machine

/-!
# One token at a time

What each mode of a stylesheet reader does with the token at hand: it reads the token and goes on,
asks for a child construct, or gives way to the construct around it.
-/

namespace MapStyle

/-- What a mode has done. A token that is not read is left for the mode that comes next. -/
inductive Outcome (P : Type) where
  /-- The token has been read and the mode goes on. -/
  | stay (m : Machine P)
  /-- Another construct starts at the token. -/
  | enter (mode : Mode) (m : Machine P)
  /-- The construct has ended before the token. -/
  | leave (m : Machine P)
  /-- The construct has ended with the token. -/
  | close (m : Machine P)

namespace Machine

variable {P : Type}

/-- The step of a mode on one token. -/
abbrev Step (P : Type) := Machine P → Token → Except Error (Outcome P)

/-- The top level: rules and `Map` blocks start here and end here. -/
def stepRoot (d : Dialect P) : Step P := fun m t =>
  match t.kind with
  | .whitespace => .ok (.stay m)
  | kind =>
    if t.isDelimiter "\x7d" then (m.closeBlock d.duplicateKeys t).map .stay
    else if kind == .identifier && t.isKeyword "map" then .ok (.enter .map m)
    else if t.startsSelector then .ok (.enter .rule (m.pushFrame (.selectors [] {})))
    else .error (.unexpected t .topLevel)

/-- A selector between its parts. -/
def stepSelectorPart (d : Dialect P) : Step P := fun m t =>
  match t.kind with
  | .whitespace => .ok (.stay m)
  | .colorLiteral =>
    (m.updateSelector t fun s =>
      if s.id.isSome then .error (.atToken .secondId t)
      else .ok { s with id := some (String.ofList (t.text.toList.dropWhile (· == '#'))) }).map .stay
  | .identifier =>
    (m.updateSelector t fun s =>
      if s.name.isSome then .error (.unexpected t .afterSelectorName)
      else .ok { s with name := some t.text }).map .stay
  | .operator =>
    if t.text = "." then .ok (.stay (m.pushFrame .classMarker))
    else if t.text = "*" then
      (m.updateSelector t fun s => .ok { s with wildcard := true }).map .stay
    else .error (.unexpected t .selector)
  | .delimiter =>
    if t.text = ":" then .ok (.stay (m.pushFrame .colonMarker))
    else if t.text = "," then
      (m.updateSelector t fun s =>
        if s.isEmpty then .error (.atToken .emptySelectorBeforeComma t) else .ok s).map fun m =>
          .stay m.nextSelector
    else if t.text = "[" then .ok (.enter .filter m)
    else if t.text = "\x7b" then (m.openRule d.maxDepth t).map .stay
    else .error (.unexpected t .selector)
  | _ => .error (.unexpected t .selector)

/-- A selector list. Behind a full stop only a class name may follow, and behind a colon only
another colon and the name of an attachment. -/
def stepSelector (d : Dialect P) : Step P := fun m t =>
  match m.context with
  | .classMarker :: below =>
    if t.kind = .identifier then
      (updateSelector { m with context := below } t fun s => .ok (s.insertClass t.text)).map .stay
    else .error (.atToken .missingClassName t)
  | .colonMarker :: below =>
    if t.isDelimiter ":" then .ok (.stay { m with context := .attachmentMarker :: below })
    else .error (.atToken .missingSecondColon t)
  | .attachmentMarker :: below =>
    if t.kind = .identifier then
      (updateSelector { m with context := below } t fun s =>
        if s.attachment.isSome then .error (.atToken .secondAttachment t)
        else .ok { s with attachment := some t.text }).map .stay
    else .error (.atToken .missingAttachmentName t)
  | _ => stepSelectorPart d m t

/-- The body of a rule. The brace that ends a top-level rule is left to the top level. -/
def stepBody : Step P := fun m t =>
  match t.kind with
  | .whitespace => .ok (.stay m)
  | kind =>
    if t.isDelimiter ";" then .ok (.stay m)
    else if t.isDelimiter "\x7d" then
      if m.fragments.length ≤ 1 then .ok (.leave m) else (m.closeNested t).map .close
    else if kind == .identifier then .ok (.enter .declaration (m.pushFrame (.declaration {})))
    else if t.startsSelector then .ok (.enter .rule (m.pushFrame (.selectors [] {})))
    else .error (.unexpected t .ruleBody)

/-- A rule: its selectors, then its body. -/
def stepRule (d : Dialect P) : Step P := fun m t =>
  if m.inRuleBody then stepBody m t else stepSelector d m t

/-- A word in a declaration: the key first, then values. -/
def readWord (m : Machine P) (t : Token) : Except Error (Machine P) :=
  m.updateDeclaration t fun d =>
    if d.key.isNone then .ok { d with key := some t.text }
    else (requireColon t d).map fun d => { d with values := d.values ++ [.string t.text] }

/-- A declaration. It ends with a semicolon, or before the brace that ends its block. -/
def stepDeclaration (d : Dialect P) : Step P := fun m t =>
  match t.kind with
  | .whitespace => .ok (.stay m)
  | .identifier => (m.readWord t).map .stay
  | .number =>
    let (m, value) := m.readNumber t
    (m.pushValue t (.literal value)).map .stay
  | .string => (m.pushValue t (.string t.text)).map .stay
  | .colorLiteral => (m.pushValue t (.color t.text)).map .stay
  | .functionStart => (m.updateDeclaration t (requireColon t)).map (.enter .call)
  | .delimiter =>
    if t.text = ":" then
      (m.updateDeclaration t fun d =>
        if d.key.isNone || d.separated then .error (.unexpected t .declaration)
        else .ok { d with separated := true }).map .stay
    else if t.text = "," then
      (m.updateDeclaration t fun d =>
        if d.values.isEmpty then .error (.unexpected t .declaration) else .ok d).map .stay
    else if t.text = "[" then (m.updateDeclaration t (requireColon t)).map (.enter .reference)
    else if t.text = ";" then (m.commit d.duplicateKeys t).map .close
    else if t.text = "\x7d" then (m.commit d.duplicateKeys t).map .leave
    else .error (.unexpected t .declaration)
  | .operator => .error (.unexpected t .declaration)

/-- The text inside the brackets of a filter. -/
def stepFilterText (d : Dialect P) : Step P := fun m t =>
  if t.isDelimiter "]" then (m.closeFilter d.engine).map .stay
  else if ["[", "\x7b", "\x7d", ";"].any t.isDelimiter then .error (.unexpected t .filter)
  else (m.extendFilter t).map .stay

/-- The filters behind a selector. Filters side by side narrow each other. A comma between two
filters widens; a comma before anything else starts the next selector. -/
def stepFilter (d : Dialect P) : Step P := fun m t =>
  match m.context with
  | .filterText _ _ :: _ => stepFilterText d m t
  | _ =>
    if t.isWhitespace then .ok (.stay m)
    else if t.isDelimiter "[" then .ok (.stay (m.pushFrame (.filterText "" t)))
    else if t.isDelimiter "," then
      if m.atComma then .error (.unexpected t .betweenFilters)
      else .ok (.stay (m.pushFrame .commaMarker))
    else if m.atComma then .ok (.leave m.dropFrame.nextSelector)
    else .ok (.leave m)

/-- The arguments of a call. -/
def stepArguments (d : Dialect P) : Step P := fun m t =>
  match t.kind with
  | .functionStart => .error (.atToken .nestedCall t)
  | .whitespace => .ok (.stay m)
  | .identifier | .string => (m.pushArgument t (.literal (.string t.text))).map .stay
  | .colorLiteral => (m.pushArgument t (.literal (.color t.text))).map .stay
  | .number =>
    let (m, value) := m.readNumber t
    (m.pushArgument t (.literal value)).map .stay
  | .delimiter =>
    if t.text = "," then
      (m.updateCall t fun c =>
        if c.expectsArgument then .error (.atToken .missingArgumentBeforeComma t)
        else .ok { c with expectsArgument := true }).map .stay
    else if t.text = "[" then (m.updateCall t (requireArgument t)).map (.enter .reference)
    else if t.text = ")" then (m.closeCall d.functions t).map .close
    else .error (.unexpected t .arguments)
  | .operator => .error (.unexpected t .arguments)

/-- A call, from its name to its closing parenthesis. -/
def stepCall (d : Dialect P) : Step P := fun m t =>
  match m.context with
  | .call _ :: _ => stepArguments d m t
  | _ =>
    if t.kind = .functionStart then
      .ok (.stay (m.pushFrame (.call { name := t.text, opening := t })))
    else .error (.unexpected t .beforeCall)

/-- An attribute reference: one name between brackets. -/
def stepReference : Step P := fun m t =>
  match m.context with
  | .reference name opening :: below =>
    if t.isWhitespace then .ok (.stay m)
    else if t.kind = .identifier || t.kind = .string then
      if name.isSome then .error (.atToken .secondReferenceName t)
      else .ok (.stay { m with context := .reference (some t.text) opening :: below })
    else if t.isDelimiter "]" then (m.closeReference t).map .close
    else .error (.unexpected t .reference)
  | _ =>
    if t.isDelimiter "[" then .ok (.stay (m.pushFrame (.reference none t)))
    else .error (.unexpected t .beforeReference)

/-- The body of a `Map` block. -/
def stepMap : Step P := fun m t =>
  if t.isWhitespace || t.isDelimiter ";" then .ok (.stay m)
  else if t.isDelimiter "\x7d" then .ok (.leave m)
  else if t.kind = .identifier then .ok (.enter .declaration (m.pushFrame (.declaration {})))
  else .error (.unexpected t .mapBlock)

/-- The step of a mode. -/
def step (d : Dialect P) : Mode → Step P
  | .root => stepRoot d
  | .rule => stepRule d
  | .declaration => stepDeclaration d
  | .filter => stepFilter d
  | .call => stepCall d
  | .reference => stepReference
  | .map => stepMap

/-- What a mode makes of the end of the text: only the top level and the filters of a selector may
end there. -/
def stepEnd (m : Machine P) : Mode → Except Error Unit
  | .root => .ok ()
  | .rule =>
    .error (.atEnd (if m.inRuleBody then .unterminatedRule else .unterminatedSelector) m.last)
  | .declaration => .error (.atEnd .unterminatedDeclaration m.last)
  | .filter =>
    match m.context with
    | .filterText _ opening :: _ => .error (.atToken .unterminatedFilter opening)
    | _ => .ok ()
  | .call => .error (.atEnd .unterminatedCall m.last)
  | .reference => .error (.atEnd .unterminatedReference m.last)
  | .map => .error (.atEnd .unterminatedMap m.last)

end Machine

end MapStyle
