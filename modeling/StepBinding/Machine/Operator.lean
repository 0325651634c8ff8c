import StepBinding.Machine.Text

/-! Conversions and operators on values. Addition joins texts if one side is a text, an
array or an object; the other arithmetic operators work on numbers. Texts are ordered by
their characters, everything else as numbers. -/

namespace StepBinding.Machine

def textOf (v : Value) : Run String := do known ((← get).text v)

def displayOf (v : Value) : Run String := do known ((← get).display v)

/-- The number a value stands for. -/
def numeric (m : Machine) : Value → Except Number.Fault Number
  | .boolean b => .ok (.int (if b then 1 else 0))
  | .number n => .ok n
  | .null => .ok (.int 0)
  | .string s => .ok (Number.ofText s)
  | .array r => Number.ofText <$> m.text (.array r)
  | _ => .ok Number.nan

def numberOf (v : Value) : Run Number := do known ((← get).numeric v)

def holds (v : Value) : Run Bool := known v.truthy

/-- Values that are compared with values of other types by their texts. -/
def isReference (v : Value) : Bool := v.typeName == "object" || v.typeName == "function"

/-- Equality that converts between types. -/
def alike (m : Machine) (a b : Value) : Except Number.Fault Bool :=
  if a.isNullish || b.isNullish then .ok (a.isNullish && b.isNullish)
  else if a.typeName == b.typeName then .ok (a.same b)
  else if isReference a || isReference b then return (← m.text a) == (← m.text b)
  else return Number.equal (← m.numeric a) (← m.numeric b)

/-- Arrays and objects take part in addition as texts. -/
def addend : Value → Run Value
  | .array r => return .string (← textOf (.array r))
  | .object r => return .string (← textOf (.object r))
  | v => return v

def arithmetic (op : Number → Number → Except Number.Fault Number) (a b : Value) : Run Value := do
  let x ← numberOf a
  let y ← numberOf b
  return .number (← known (op x y))

def add (a b : Value) : Run Value := do
  match ← addend a, ← addend b with
  | .string s, b => return .string (s ++ (← textOf b))
  | a, .string t => return .string ((← textOf a) ++ t)
  | a, b => arithmetic Number.add a b

/-- Whether the order of two values is one of those given. -/
def ordered (orders : List Ordering) : Value → Value → Run Value
  | .string s, .string t => return .boolean (orders.contains (compare s t))
  | a, b => do
    let x ← numberOf a
    let y ← numberOf b
    if ← known x.isNaN then return .boolean false
    if ← known y.isNaN then return .boolean false
    return .boolean ((Number.compare? x y).any orders.contains)

/-- Operators that need both operands. -/
def binary (op : BinaryOp) (a b : Value) : Run Value :=
  match op with
  | .add => add a b
  | .sub => arithmetic Number.sub a b
  | .mul => arithmetic Number.mul a b
  | .div => arithmetic Number.div a b
  | .mod => arithmetic Number.mod a b
  | .strictEqual => return .boolean (a.same b)
  | .strictNotEqual => return .boolean !(a.same b)
  | .equal => return .boolean (← known ((← get).alike a b))
  | .notEqual => return .boolean !(← known ((← get).alike a b))
  | .less => ordered [.lt] a b
  | .greater => ordered [.gt] a b
  | .lessEqual => ordered [.lt, .eq] a b
  | .greaterEqual => ordered [.gt, .eq] a b
  | .or | .nullish | .and | .other _ => fail (.unknownOperator op.symbol)

/-- Operators on one value; `typeof` of a name is decided before there is a value. -/
def unary (op : UnaryOp) (v : Value) : Run Value :=
  match op with
  | .typeof => return .string v.typeName
  | .not => return .boolean !(← holds v)
  | .negate => return .number (← numberOf v).neg
  | .plus => return .number (← numberOf v)
  | .void | .other _ => return .undefined

end StepBinding.Machine
