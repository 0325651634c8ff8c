import StepBinding.Machine
import StepBinding.Text.Quoted

/-! Texts of values: the plain text that operators use, the display text of the log, and
the JSON text. Arrays and objects are followed as deep as there are arrays and objects,
which reaches every value that does not contain itself. A value has no text if a number in
it has none. -/

namespace StepBinding.Machine

/-- Values nest no deeper than this unless one contains itself. -/
def depth (m : Machine) : Nat := m.arrays.size + m.objects.size + 1

/-- The text of a value without its parts. -/
def plainText : Value → Except Number.Fault String
  | .undefined => .ok "undefined"
  | .null => .ok "null"
  | .boolean b => .ok (if b then "true" else "false")
  | .number n => n.text
  | .string s => .ok s
  | .array _ => .ok ""
  | .object _ => .ok "[object Object]"
  | .function _ f => .ok ("function " ++ f.name ++ "() \x7b [code] \x7d")

def textWithin (m : Machine) : Nat → Value → Except Number.Fault String
  | d + 1, .array r => do
    let texts ← (m.elements r).mapM fun v =>
      if v.isNullish then .ok "" else textWithin m d v
    return ",".intercalate texts
  | d + 1, .object r =>
    match (m.fields r).get? "message", (m.fields r).get? "name" with
    | some message, some name =>
      return (← textWithin m d name) ++ ": " ++ (← textWithin m d message)
    | _, _ => .ok "[object Object]"
  | _, v => plainText v

/-- The plain text; an object with a name and a message is shown as an error. -/
def text (m : Machine) (v : Value) : Except Number.Fault String := textWithin m m.depth v

def quotedText (s : String) : String :=
  "'" ++ String.ofList (s.toList.flatMap fun c => if c == '\x27' then ['\\', '\x27'] else [c]) ++ "'"

def functionDisplay (f : Callable) : String :=
  "[Function: " ++ (if f.name.isEmpty then "(anonymous)" else f.name) ++ "]"

/-- The display of a value inside another one. -/
def displayWithin (m : Machine) : Nat → Value → Except Number.Fault String
  | _, .string s => .ok (quotedText s)
  | _, .function _ f => .ok (functionDisplay f)
  | d + 1, .array r =>
    match m.elements r with
    | [] => .ok "[]"
    | vs => return "[ " ++ ", ".intercalate (← vs.mapM (displayWithin m d)) ++ " ]"
  | d + 1, .object r =>
    match m.fields r with
    | [] => .ok "\x7b\x7d"
    | fs => do
      let shown ← fs.mapM fun f => return f.1 ++ ": " ++ (← displayWithin m d f.2)
      return "\x7b " ++ ", ".intercalate shown ++ " \x7d"
  | _, v => plainText v

/-- The display text; only inside another value is a text quoted. -/
def display (m : Machine) : Value → Except Number.Fault String
  | .string s => .ok s
  | v => displayWithin m m.depth v

def jsonEscape (c : Char) : List Char :=
  if c == '"' then ['\\', '"']
  else if c == '\\' then ['\\', '\\']
  else if c == '\n' then ['\\', 'n']
  else if c == '\r' then ['\\', 'r']
  else if c == '\t' then ['\\', 't']
  else if c == '\x08' then ['\\', 'b']
  else if c == '\x0c' then ['\\', 'f']
  else if c.toNat < 0x20 then '\\' :: 'u' :: Text.Quoted.hexDigits 4 c.toNat
  else [c]

def jsonString (s : String) : String := String.ofList ('"' :: (s.toList.flatMap jsonEscape ++ ['"']))

def jsonWithin (m : Machine) : Nat → Value → Except Number.Fault (Option String)
  | _, .undefined | _, .function .. => .ok none
  | _, .number n => if n.isFinite then some <$> n.text else .ok (some "null")
  | _, .string s => .ok (some (jsonString s))
  | d + 1, .array r => do
    let texts ← (m.elements r).mapM fun v => return (← jsonWithin m d v).getD "null"
    return some ("[" ++ ",".intercalate texts ++ "]")
  | d + 1, .object r => do
    let members ← (m.fields r).mapM fun f =>
      return (← jsonWithin m d f.2).map fun t => jsonString f.1 ++ ":" ++ t
    return some ("\x7b" ++ ",".intercalate (members.filterMap id) ++ "\x7d")
  | _, v => some <$> plainText v

/-- The JSON text; functions and `undefined` have none. -/
def json? (m : Machine) (v : Value) : Except Number.Fault (Option String) :=
  jsonWithin m m.depth v

end StepBinding.Machine
