import MapStyle.Sheet.Step
import MapStyle.Token.Stream

/-!
# Reading stylesheets

A reader works in activations: the mode on top of the control stack reads tokens until it asks for a
child construct or ends. Every token is at hand when at most two constructs start, so four
activations for each token and one more are always enough.
-/

namespace MapStyle

namespace Machine

variable {P : Type}

/-- Reads the keyword of a `Map` block and the brace behind it. -/
def openMap (m : Machine P) (ts : List Token) : Except Error (Machine P × List Token) :=
  match ts.tail.dropWhile Token.isWhitespace with
  | [] => .error (.atEnd .missingBraceAfterMap m.last)
  | t :: rest =>
    if t.isDelimiter "\x7b" then
      .ok ({ m with
        context := .mapBody :: m.context
        fragments := .map {} :: m.fragments
        last := t.location }, rest)
    else .error (.atToken .missingBraceAfterMap t)

/-- Lets a mode read tokens until another construct starts or its own ends. Given are the modes
below it on the control stack. -/
def readTokens (d : Dialect P) (mode : Mode) (below : List Mode) (m : Machine P) :
    List Token → Except Error (Machine P × List Token)
  | [] => (m.stepEnd mode).map fun _ => ({ m with control := below }, [])
  | t :: ts =>
    match step d mode { m with last := t.location } t with
    | .error e => .error e
    | .ok (.stay m) => readTokens d mode below m ts
    | .ok (.enter child m) => .ok ({ m with control := child :: mode :: below }, t :: ts)
    | .ok (.leave m) => .ok ({ m with control := below }, t :: ts)
    | .ok (.close m) => .ok ({ m with control := below }, ts)

/-- One activation of the mode on top of the control stack. A `Map` block that has not been opened
yet is opened first. -/
def activate (d : Dialect P) (m : Machine P) (ts : List Token) :
    Except Error (Machine P × List Token) :=
  match m.control with
  | [] => .ok (m, ts)
  | .map :: below =>
    if m.inMapBody then readTokens d .map below m ts
    else
      match m.openMap ts with
      | .error e => .error e
      | .ok (m, ts) => readTokens d .map below m ts
  | mode :: below => readTokens d mode below m ts

/-- Repeats activations until the control stack is empty, or a number of times. -/
def run (d : Dialect P) : Nat → Machine P → List Token → Except Error (Machine P × List Token)
  | 0, m, ts => .ok (m, ts)
  | n + 1, m, ts =>
    if m.control.isEmpty then .ok (m, ts)
    else
      match m.activate d ts with
      | .error e => .error e
      | .ok (m, ts) => run d n m ts

/-- The stylesheet that a reader has read, once nothing is left and no block is open. -/
def finish (m : Machine P) : List Token → Except Error (Parsed P)
  | t :: _ => .error (.atToken .inputAfterLastRule t)
  | [] =>
    if m.fragments.isEmpty && m.context.isEmpty then
      .ok ⟨{ rules := m.rules, map := m.map }, m.warnings⟩
    else .error (.atEnd .endInsideBlock m.last)

end Machine

namespace Dialect

variable {P : Type}

/-- Reads a stylesheet from its tokens. -/
def parseTokens (d : Dialect P) (ts : List Token) : Except Error (Parsed P) :=
  match Machine.run d (4 * ts.length + 1) {} ts with
  | .error e => .error e
  | .ok (m, rest) => m.finish rest

/-- Reads a stylesheet from its text. -/
def parse (d : Dialect P) (text : String) : Except Error (Parsed P) :=
  (Token.ofText d.maxDepth text).bind d.parseTokens

end Dialect

end MapStyle
