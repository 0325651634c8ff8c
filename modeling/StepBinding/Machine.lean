import StepBinding.Value

/-! The machine that runs programs: environments, arrays and objects in stores that only
grow, the number of the next function, and the lines that were logged. A computation on
the machine ends with a value or with an exit, and keeps what it changed in both cases. -/

namespace StepBinding

/-- Values of names, inside an earlier environment. -/
structure Environment where
  parent : Option Nat
  values : Fields

structure Machine where
  envs : Array Environment
  arrays : Array (Array Value)
  objects : Array Fields
  nextFunction : Nat
  output : Array String

namespace Machine

/-- An error of the running program. -/
inductive Error
  | notDefined (name : String)
  | notFunction (shown : String)
  | notConstructor (shown : String)
  | notIterable (shown : String)
  | cannotRead (shown key : String)
  | cannotSet (shown key : String)
  | emptyReduce
  | badTarget
  | unknownOperator (symbol : String)
  | notLowered
  | cannotExecute (className : String)
  | cannotEvaluate (className : String)
deriving DecidableEq, Repr

namespace Error

def kind : Error → String
  | notDefined _ => "ReferenceError"
  | notFunction _ | notConstructor _ | notIterable _ | cannotRead .. | cannotSet .. | emptyReduce =>
    "TypeError"
  | badTarget | unknownOperator _ | notLowered | cannotExecute _ | cannotEvaluate _ => "SyntaxError"

def text : Error → String
  | notDefined name => name ++ " is not defined"
  | notFunction shown => shown ++ " is not a function"
  | notConstructor shown => shown ++ " is not a constructor"
  | notIterable shown => shown ++ " is not iterable"
  | cannotRead shown key => "Cannot read properties of " ++ shown ++ " (reading '" ++ key ++ "')"
  | cannotSet shown key => "Cannot set properties of " ++ shown ++ " (setting '" ++ key ++ "')"
  | emptyReduce => "Reduce of empty array with no initial value"
  | badTarget => "invalid assignment target"
  | unknownOperator symbol => "unknown operator " ++ symbol
  | notLowered => "temporary binding was not lowered"
  | cannotExecute className => "cannot execute " ++ className
  | cannotEvaluate className => "cannot evaluate " ++ className

def message (e : Error) : String := e.kind ++ ": " ++ e.text

end Error

/-- Why a computation ends without a value. -/
inductive Exit
  | error (e : Error)
  /-- A value that the program threw, with its display text. -/
  | thrown (v : Value) (shown : String)
  | returned (v : Value)
  | broke
  | continued
  | fault (f : Number.Fault)
  /-- A write before the start of an array. -/
  | noSuchElement
  /-- Arguments that are not a list. -/
  | notAList
  /-- A text longer than any number of a machine word. -/
  | tooLong
  /-- The bound on nested computations is reached. -/
  | exhausted

end Machine

/-- A computation on the machine. -/
abbrev Run := EStateM Machine.Exit Machine

namespace Machine

def fail {α : Type} (e : Error) : Run α := throw (.error e)

/-- A result that depends on the size of numbers. -/
def known {α : Type} : Except Number.Fault α → Run α
  | .ok a => pure a
  | .error f => throw (.fault f)

def arrayOf (m : Machine) (array : Nat) : Array Value := m.arrays.getD array #[]

def elements (m : Machine) (array : Nat) : List Value := (m.arrayOf array).toList

def fields (m : Machine) (object : Nat) : Fields := m.objects.getD object []

def newArray (vs : List Value) : Run Value :=
  modifyGet fun m => (.array m.arrays.size, { m with arrays := m.arrays.push vs.toArray })

def newObject (fs : Fields) : Run Value :=
  modifyGet fun m => (.object m.objects.size, { m with objects := m.objects.push fs })

def changeArray (array : Nat) (change : Array Value → Array Value) : Run Unit :=
  modify fun m => { m with arrays := m.arrays.modify array change }

def setElements (array : Nat) (vs : List Value) : Run Unit := changeArray array fun _ => vs.toArray

def setField (object : Nat) (name : String) (v : Value) : Run Unit :=
  modify fun m => { m with objects := m.objects.modify object fun fs => fs.put name v }

/-- The number of a function that is being made. -/
def newFunctionId : Run Nat :=
  modifyGet fun m => (m.nextFunction, { m with nextFunction := m.nextFunction + 1 })

def newFunction (f : Callable) : Run Value := return .function (← newFunctionId) f

def logLine (line : String) : Run Unit :=
  modify fun m => { m with output := m.output.push line }

/-- An empty environment inside another. -/
def newEnv (parent : Nat) : Run Nat :=
  modifyGet fun m => (m.envs.size, { m with envs := m.envs.push ⟨some parent, []⟩ })

def valuesOf (m : Machine) (env : Nat) : Fields := (m.envs[env]?.map (·.values)).getD []

/-- The innermost environment that has the name. The environments around one are older. -/
def home? (m : Machine) (env : Nat) (name : String) : Option Nat :=
  match m.envs[env]? with
  | none => none
  | some e =>
    if (e.values.get? name).isSome then some env
    else match e.parent with
      | none => none
      | some parent => if _h : parent < env then home? m parent name else none
termination_by env

def lookup? (m : Machine) (env : Nat) (name : String) : Option Value := do
  (m.valuesOf (← m.home? env name)).get? name

/-- Gives a name a value in an environment itself. -/
def define (env : Nat) (name : String) (v : Value) : Run Unit :=
  modify fun m => { m with envs := m.envs.modify env fun e =>
    { e with values := e.values.put name v } }

def readName (env : Nat) (name : String) : Run Value := do
  match (← get).lookup? env name with
  | some v => return v
  | none => fail (.notDefined name)

/-- Changes the value of a name where it is defined. -/
def assignName (env : Nat) (name : String) (v : Value) : Run Unit := do
  match (← get).home? env name with
  | some home => define home name v
  | none => fail (.notDefined name)

def hasName (env : Nat) (name : String) : Run Bool := return ((← get).home? env name).isSome

end Machine

end StepBinding
