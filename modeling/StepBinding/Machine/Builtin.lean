import StepBinding.Machine.Property

/-! What the functions of the library do. Functions that call back take the way to call a
function as a parameter. An array method goes over the elements that the array had when
it was called, and gives its callback the element, the index and the array. -/

namespace StepBinding.Machine

/-- How a function is called: what it does, its `this` and its arguments. -/
abbrev Caller := Callable → Value → List Value → Run Value

def arg (args : List Value) (i : Nat) : Value := args.getD i .undefined

/-- An integer argument; infinities and not-a-number count as zero. -/
def intArg (v : Value) : Run Int := do
  match (← numberOf v).truncate with
  | .ok n => return n
  | .error _ => return 0

/-- An index from the start, or from the end if it is negative, inside the bounds. -/
def clamp (length : Nat) (missing : Nat) (v : Value) : Run Nat := do
  match v with
  | .undefined => return missing
  | v =>
    let n ← intArg v
    return min (if n < 0 then n + length else n).toNat length

def sliceOf {α : Type} (xs : List α) (args : List Value) : Run (List α) := do
  let start ← clamp xs.length 0 (arg args 0)
  let stop ← clamp xs.length xs.length (arg args 1)
  return (xs.take stop).drop start

def newError (b : Builtin) (message : Value) : Run Value := do
  let text ← match message with
    | .undefined => pure ""
    | v => textOf v
  newObject [("name", .string b.name), ("message", .string text)]

def logValues (args : List Value) : Run Value := do
  logLine (" ".intercalate (← args.mapM displayOf))
  return .undefined

/-- A power; the base has to be a double before the exponent is looked at. -/
def power (base exponent : Value) : Run Value := do
  let x ← known (← numberOf base).toFloat
  return .number (← known ((Number.float x).pow (← numberOf exponent)))

def keysOf : Value → Run Value
  | .object r => do newArray (((← get).fields r).map fun f => .string f.1)
  | _ => newArray []

def isArray : Value → Bool
  | .array _ => true
  | _ => false

def builtin (b : Builtin) (args : List Value) : Run Value := do
  let v := arg args 0
  match b with
  | .log => logValues args
  | .max => return .number (Number.max (← args.mapM numberOf))
  | .min => return .number (Number.min (← args.mapM numberOf))
  | .floor => return .number (← numberOf v).floor
  | .ceil => return .number (← numberOf v).ceil
  | .round => return .number (← known (← numberOf v).round)
  | .abs => return .number (← numberOf v).abs
  | .sqrt => return .number (← known (← numberOf v).sqrt)
  | .pow => power v (arg args 1)
  | .stringify => return ((← known ((← get).json? v)).map Value.string).getD .undefined
  | .keys => keysOf v
  | .isArray => return .boolean (isArray v)
  | .string => if args.isEmpty then return .string "" else return .string (← textOf v)
  | .number => if args.isEmpty then return .int 0 else return .number (← numberOf v)
  | .boolean => return .boolean (← holds v)
  | .isNaN => return .boolean (← known (← numberOf v).isNaN)
  | .parseInt => return .number (← known (Number.ofLeadingDigits (← textOf v)))
  | .error | .typeError | .rangeError => newError b v

/-- The function given as the first argument. -/
def callback (args : List Value) : Run Callable := do
  match arg args 0 with
  | .function _ f => return f
  | v => fail (.notFunction (← displayOf v))

/-- The results for all elements with their indices, in order. -/
def each {α : Type} (f : Nat → Value → Run α) : Nat → List Value → Run (List α)
  | _, [] => return []
  | i, v :: vs => do
    let a ← f i v
    return a :: (← each f (i + 1) vs)

/-- The first element that passes, with its index; later ones are not tried. -/
def firstWhere (p : Nat → Value → Run Bool) : Nat → List Value → Run (Option (Nat × Value))
  | _, [] => return none
  | i, v :: vs => do
    if ← p i v then return some (i, v)
    firstWhere p (i + 1) vs

def foldWith (f : Value → Nat → Value → Run Value) : Value → Nat → List Value → Run Value
  | acc, _, [] => return acc
  | acc, i, v :: vs => do foldWith f (← f acc i v) (i + 1) vs

/-- Merges sorted lists. A value of the right one comes first only if it precedes the left one. -/
def mergeBy (precedes : Value → Value → Run Bool) : List Value → List Value → Run (List Value)
  | [], ws => return ws
  | vs, [] => return vs
  | v :: vs, w :: ws => do
    if ← precedes w v then return w :: (← mergeBy precedes (v :: vs) ws)
    return v :: (← mergeBy precedes vs (w :: ws))
termination_by vs ws => vs.length + ws.length

/-- Stable sorting with a comparison that may do anything. -/
def sortBy (precedes : Value → Value → Run Bool) (vs : List Value) : Run (List Value) := do
  if vs.length < 2 then return vs
  let left ← sortBy precedes (vs.take (vs.length / 2))
  let right ← sortBy precedes (vs.drop (vs.length / 2))
  mergeBy precedes left right
termination_by vs.length
decreasing_by
  · simp only [List.length_take]; omega
  · simp only [List.length_drop]; omega

/-- Stable sorting by texts. -/
def textSorted (vs : List Value) : Run (List Value) := do
  let keyed := (← vs.mapM textOf).zip vs
  return (keyed.mergeSort fun a b => !decide (b.1 < a.1)).map (·.2)

/-- Whether a function called with two values answers a negative number. -/
def comparison (call : Caller) (f : Value) (a b : Value) : Run Bool := do
  match f with
  | .function _ f =>
    let n ← numberOf (← call f .undefined [a, b])
    if ← known n.isNaN then return false
    return n.isNegative
  | v => fail (.notFunction (← displayOf v))

def indexIn (vs : List Value) (v : Value) : Int :=
  match vs.findIdx? fun w => w.same v with
  | some i => i
  | none => -1

/-- Texts with a separator between them; `null` and `undefined` are empty. -/
def joined (separator : String) (vs : List Value) : Run Value := do
  let texts ← vs.mapM fun v => if v.isNullish then return "" else textOf v
  return .string (separator.intercalate texts)

def spread (m : Machine) : Value → List Value
  | .array r => m.elements r
  | v => [v]

def callbackMethod (call : Caller) (array : Nat) (method : ArrayMethod) (args : List Value) :
    Run Value := do
  let f ← callback args
  let vs := (← get).elements array
  let visit (i : Nat) (v : Value) : Run Value := call f .undefined [v, .int i, .array array]
  let test (i : Nat) (v : Value) : Run Bool := do holds (← visit i v)
  match method with
  | .map => newArray (← each visit 0 vs)
  | .filter => do
    let kept ← each test 0 vs
    newArray ((vs.zip kept).filterMap fun p => if p.2 then some p.1 else none)
  | .find => return ((← firstWhere test 0 vs).map (·.2)).getD .undefined
  | .findIndex => return .int (((← firstWhere test 0 vs).map fun p => (p.1 : Int)).getD (-1))
  | .some => return .boolean (← firstWhere test 0 vs).isSome
  | .every =>
    let fails (i : Nat) (v : Value) : Run Bool := return !(← test i v)
    return .boolean (← firstWhere fails 0 vs).isNone
  | .reduce =>
    let step (acc : Value) (i : Nat) (v : Value) : Run Value :=
      call f .undefined [acc, v, .int i, .array array]
    match args, vs with
    | _ :: start :: _, vs => foldWith step start 0 vs
    | _, v :: vs => foldWith step v 1 vs
    | _, [] => fail .emptyReduce
  | _ =>
    let _ ← each visit 0 vs
    return .undefined

def sortArray (call : Caller) (array : Nat) (order : Value) : Run Value := do
  let vs := (← get).elements array
  let sorted ← match order with
    | .undefined => textSorted vs
    | f => sortBy (comparison call f) vs
  setElements array sorted
  return .array array

def arrayMethod (call : Caller) (array : Nat) (method : ArrayMethod) (args : List Value) :
    Run Value := do
  let m ← get
  let size := (m.arrayOf array).size
  match method with
  | .sort => sortArray call array (arg args 0)
  | .push =>
    changeArray array (· ++ args)
    return .int (size + args.length)
  | .pop =>
    let last := elementAt (m.arrayOf array) (size - 1 : Int)
    changeArray array Array.pop
    return last
  | .shift =>
    setElements array (m.elements array).tail
    return elementAt (m.arrayOf array) 0
  | .unshift =>
    setElements array (args ++ m.elements array)
    return .int (size + args.length)
  | .indexOf => return .int (indexIn (m.elements array) (arg args 0))
  | .includes => return .boolean (indexIn (m.elements array) (arg args 0) != -1)
  | .join =>
    let separator ← match arg args 0 with
      | .undefined => pure ","
      | v => textOf v
    joined separator (m.elements array)
  | .slice => newArray (← sliceOf (m.elements array) args)
  | .concat => newArray (m.elements array ++ args.flatMap m.spread)
  | .reverse =>
    changeArray array Array.reverse
    return .array array
  | .map | .filter | .forEach | .reduce | .find | .findIndex | .some | .every =>
    callbackMethod call array method args

def letters (s : String) : List Value := s.toList.map fun c => .string c.toString

/-- Where a text first occurs in another. -/
def findText (part : List Char) : List Char → Nat → Option Nat
  | [], i => if part.isEmpty then some i else none
  | c :: cs, i => if part.isPrefixOf (c :: cs) then some i else findText part cs (i + 1)

/-- Cuts a text at a separator that is not empty. -/
def splitAt (separator : List Char) (field : List Char) : List Char → Nat → List String
  | [], _ => [String.ofList field.reverse]
  | _ :: cs, n + 1 => splitAt separator field cs n
  | c :: cs, 0 =>
    if separator.isPrefixOf (c :: cs) then
      String.ofList field.reverse :: splitAt separator [] cs (separator.length - 1)
    else splitAt separator (c :: field) cs 0

def splitString (s : String) (separator : Value) : Run Value := do
  match separator with
  | .undefined => newArray [.string s]
  | v =>
    let separator ← textOf v
    if separator.isEmpty then newArray (letters s)
    else newArray ((splitAt separator.toList [] s.toList 0).map .string)

/-- A text several times in a row. -/
def repeated (s : String) (count : Nat) : Run Value :=
  if Number.pow2 63 ≤ count ∨ Number.pow2 63 ≤ s.length * count then throw .tooLong
  else return .string (if s.isEmpty then "" else Nat.repeat (· ++ s) count "")

def stringMethod (s : String) (method : StringMethod) (args : List Value) : Run Value := do
  let part : Run (List Char) := return (← textOf (arg args 0)).toList
  match method with
  | .toUpperCase => return .string (Text.CharClass.toUpper s)
  | .toLowerCase => return .string (Text.CharClass.toLower s)
  | .trim => return .string (Text.CharClass.trim s)
  | .split => splitString s (arg args 0)
  | .slice => return .string (String.ofList (← sliceOf s.toList args))
  | .includes => return .boolean (findText (← part) s.toList 0).isSome
  | .indexOf =>
    return .int (((findText (← part) s.toList 0).map fun i => (i : Int)).getD (-1))
  | .startsWith => return .boolean ((← part).isPrefixOf s.toList)
  | .endsWith => return .boolean ((← part).isSuffixOf s.toList)
  | .charAt =>
    let i ← intArg (arg args 0)
    return .string (String.ofList (← sliceOf s.toList [.int i, .int (i + 1)]))
  | .repeated => repeated s (← intArg (arg args 0)).toNat

/-- The arguments in an array or the characters of a text; nothing for what counts as empty. -/
def argumentList (m : Machine) : Value → Option (List Value)
  | .undefined | .null | .boolean false => some []
  | .number n => if n.isZero then some [] else none
  | .string s => some (letters s)
  | .array r => some (m.elements r)
  | _ => none

end StepBinding.Machine
