import MapStyle.Value

/-!
# Functions

The functions that a stylesheet may call. When a call has been read, the function that is registered
under its name checks the arguments and gives the value of the call: a colour that is already known,
or the call itself, to be carried out on each candidate. A call of an unknown name is kept.
-/

namespace MapStyle

/-- Why a call is refused. Functions that are registered beside the ordinary ones bring their own
wording along. -/
inductive FunctionError where
  | usage (form : String)
  | notNumber (got : Argument)
  | other (message : String)
  | outside (value limit : Float)
  | notAttribute (got : Argument)
  | unexpectedArguments
deriving DecidableEq, Repr

/-- The wording of a refused call. -/
def FunctionError.message : FunctionError → String
  | usage form => "usage: " ++ form
  | notNumber got => "expected a number, got " ++ got.display
  | other message => message
  | outside value limit =>
    Decimal.text value ++ " is outside 0..=" ++ Decimal.text limit
  | notAttribute got =>
    "interpolate() expects an attribute reference first, got " ++ got.display
  | unexpectedArguments => "randcolor() takes no arguments"

/-- What a call with certain arguments stands for. -/
abbrev Function := List Argument → Except FunctionError Value

namespace Function

/-- A colour channel: a number from zero up to a limit. -/
def channel (limit : Float) (a : Argument) : Except FunctionError Float :=
  match a.asFloat? with
  | none => .error (.notNumber a)
  | some x => if 0 ≤ x && x ≤ limit then .ok x else .error (.outside x limit)

/-- A colour channel as a byte. -/
def byteChannel (a : Argument) : Except FunctionError UInt8 :=
  (channel 255 a).map Decimal.nearestByte

/-- A solid colour from its three channels. -/
def rgb : Function
  | [r, g, b] => do
    let red ← byteChannel r
    let green ← byteChannel g
    let blue ← byteChannel b
    pure (.color (Rgba.solid red green blue).display)
  | _ => .error (.usage "rgb(<red>, <green>, <blue>)")

/-- A colour from its three channels and an alpha from zero to one. The alpha is always written. -/
def rgba : Function
  | [r, g, b, a] => do
    let red ← byteChannel r
    let green ← byteChannel g
    let blue ← byteChannel b
    let alpha ← channel 1 a
    pure (.color (Rgba.mk red green blue (Decimal.nearestByte (alpha * 255))).displayWithAlpha)
  | _ => .error (.usage "rgba(<red>, <green>, <blue>, <alpha>)")

/-- A colour between two others, chosen by an attribute; it is computed on each candidate. -/
def interpolate : Function := fun args =>
  match args with
  | [.reference _, _, _, _, _] => .ok (.call ⟨"interpolate", args⟩)
  | [first, _, _, _, _] => .error (.notAttribute first)
  | _ => .error (.usage "interpolate(<attribute>, <color>, <color>, <value>, <value>)")

/-- A colour drawn at random on each candidate. -/
def randcolor : Function
  | [] => .ok (.call ⟨"randcolor", []⟩)
  | _ => .error .unexpectedArguments

end Function

/-- The functions that are known, by their names in lower case. -/
structure Registry where
  entries : List (String × Function) := []

namespace Registry

/-- Registers a function, in place of an earlier one of the same name in whatever case. -/
def insert (r : Registry) (name : String) (f : Function) : Registry :=
  let name := name.toLower
  ⟨(name, f) :: r.entries.filter (·.1 != name)⟩

/-- The function that is registered under a name in whatever case. -/
def find? (r : Registry) (name : String) : Option Function :=
  r.entries.lookup name.toLower

/-- Whether a function is registered under a name. -/
def contains (r : Registry) (name : String) : Bool :=
  (r.find? name).isSome

/-- The value of a call. -/
def build (r : Registry) (name : String) (args : List Argument) : Except FunctionError Value :=
  match r.find? name with
  | some f => f args
  | none => .ok (.call ⟨name, args⟩)

/-- No functions. -/
def empty : Registry := {}

/-- The functions that every stylesheet may call. -/
def builtin : Registry :=
  empty
    |>.insert "rgb" Function.rgb
    |>.insert "rgba" Function.rgba
    |>.insert "interpolate" Function.interpolate
    |>.insert "randcolor" Function.randcolor

/-- A text in double quotes, with quotes and backslashes escaped. -/
def quoted (s : String) : String :=
  let body := s.toList.flatMap fun ch => if ch == '"' || ch == '\\' then ['\\', ch] else [ch]
  String.ofList ('"' :: (body ++ ['"']))

/-- The registered names in order, as a one-line summary. -/
def summary (r : Registry) : String :=
  let names := Text.sortedNames (r.entries.map (·.1))
  "FunctionRegistry \x7b functions: [" ++ String.intercalate ", " (names.map quoted) ++ "] \x7d"

end Registry

end MapStyle
