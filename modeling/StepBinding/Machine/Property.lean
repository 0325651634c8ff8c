import StepBinding.Machine.Operator

/-! Reading and writing properties. An array is read at integers only; a write past its
end fills the gap with `undefined`, and a write at a negative index counts from the end.
Methods are made anew at every read. -/

namespace StepBinding.Machine

def elementAt (vs : Array Value) (i : Int) : Value :=
  if i < 0 then .undefined else vs.getD i.toNat .undefined

def letterAt (s : String) (i : Int) : Value :=
  if i < 0 then .undefined
  else (((s.drop i.toNat).front?).map fun c => .string c.toString).getD .undefined

def readArray (array : Nat) (key : Value) : Run Value := do
  match key with
  | .number n => match n.integer? with
    | some i => return elementAt ((← get).arrayOf array) i
    | none => return .undefined
  | key =>
    let name ← textOf key
    if name = "length" then return .int ((← get).arrayOf array).size
    match ArrayMethod.ofName? name with
    | some method => newFunction (.arrayMethod array method)
    | none => return .undefined

def readString (s : String) (key : Value) : Run Value := do
  match key with
  | .number n => return letterAt s (← known n.truncate)
  | key =>
    let name ← textOf key
    if name = "length" then return .int s.length
    match StringMethod.ofName? name with
    | some method => newFunction (.stringMethod s method)
    | none => return .undefined

def readFunction (f : Callable) (name : String) : Run Value :=
  if name = "call" then newFunction (.callOf f)
  else if name = "apply" then newFunction (.applyOf f)
  else if name = "name" then return .string f.name
  else return .undefined

def readNumber (n : Number) (name : String) : Run Value :=
  if name = "toFixed" then newFunction (.toFixed n)
  else if name = "toString" then newFunction (.toText n)
  else return .undefined

/-- The value of a property. -/
def readProperty (v key : Value) : Run Value := do
  match v with
  | .undefined | .null => fail (.cannotRead (← textOf v) (← textOf key))
  | .array r => readArray r key
  | .string s => readString s key
  | .object r =>
    let name ← textOf key
    return (((← get).fields r).get? name).getD .undefined
  | .function _ f => readFunction f (← textOf key)
  | .number n => readNumber n (← textOf key)
  | .boolean _ => return .undefined

/-- An array with one element changed, made long enough first. -/
def writeAt (i : Nat) (v : Value) (vs : Array Value) : Array Value :=
  if i < vs.size then vs.setIfInBounds i v
  else (vs ++ List.replicate (i - vs.size) Value.undefined).push v

/-- A negative index counts from the end. -/
def writeElement (array : Nat) (i : Int) (v : Value) : Run Unit := do
  let size := ((← get).arrayOf array).size
  if 0 ≤ i then changeArray array (writeAt i.toNat v)
  else if size + i < 0 then throw .noSuchElement
  else changeArray array (writeAt (size + i).toNat v)

/-- Keeps the elements before an index; a negative one counts from the end. -/
def cutArray (array : Nat) (length : Int) : Run Unit := do
  let vs := (← get).elements array
  setElements array (vs.take (if length < 0 then vs.length + length else length).toNat)

/-- Sets a property. -/
def writeProperty (target key v : Value) : Run Unit := do
  match target, key with
  | .object r, key => setField r (← textOf key) v
  | .array r, .number n => writeElement r (← known n.truncate) v
  | .array r, key =>
    let name ← textOf key
    if name = "length" then cutArray r (← known (← numberOf v).truncate)
    else fail (.cannotSet (← displayOf (.array r)) name)
  | target, key => fail (.cannotSet (← displayOf target) (← textOf key))

end StepBinding.Machine
