import StepBinding.Data
import StepBinding.Machine.Evaluate

/-! A session on a machine: it starts with the library in its global environment, runs
programs there one after the other, calls functions by name with plain data and reads
global names. -/

namespace StepBinding.Machine

def builtinValue (b : Builtin) : Value := .function (Builtin.all.idxOf b) (.builtin b)

def builtinFields (bs : List Builtin) : Fields := bs.map fun b => (b.name, builtinValue b)

/-- The ratio of a circle's circumference to its diameter. -/
def pi : Number := .float 3.141592653589793

/-- The objects of the library with their names. -/
def libraries : List (String × Fields) :=
  [("console", builtinFields [.log]),
   ("Math", ("PI", .number pi)
      :: builtinFields [.max, .min, .floor, .ceil, .round, .abs, .sqrt, .pow]),
   ("JSON", builtinFields [.stringify]),
   ("Object", builtinFields [.keys]),
   ("Array", builtinFields [.isArray])]

def globals : Fields :=
  [("undefined", .undefined), ("NaN", .number Number.nan), ("Infinity", .number Number.infinity),
   ("this", .undefined)]
  ++ libraries.zipIdx.map (fun p => (p.1.1, .object p.2))
  ++ builtinFields [.string, .number, .boolean, .isNaN, .parseInt, .error, .typeError, .rangeError]

/-- The machine before anything has run. -/
def start : Machine :=
  { envs := #[⟨none, globals⟩]
    arrays := #[]
    objects := (libraries.map (·.2)).toArray
    nextFunction := Builtin.all.length
    output := #[] }

/-- The global environment. -/
def globalEnv : Nat := 0

/-- Runs a program with computations nested no deeper than the bound. -/
def run (mode : Mode) (bound : Nat) (program : Module) : Run Value := do
  hoist mode globalEnv program.body
  runTop (evaluator mode bound) globalEnv .undefined program.body

mutual

/-- The value of plain data, made anew. -/
def load : Data → Run Value
  | .null => return .null
  | .boolean b => return .boolean b
  | .number n => return .number n
  | .string s => return .string s
  | .list items => do newArray (← loadItems items)
  | .record fields => do newObject (← loadFields fields [])

def loadItems : List Data → Run (List Value)
  | [] => return []
  | d :: ds => do
    let v ← load d
    return v :: (← loadItems ds)

def loadFields : List (String × Data) → Fields → Run Fields
  | [], fs => return fs
  | (name, d) :: ds, fs => do loadFields ds (fs.put name (← load d))

end

/-- Calls a global function. -/
def callGlobal (bound : Nat) (name : String) (args : List Data) : Run Value := do
  let args ← loadItems args
  let f ← readName globalEnv name
  callValue (evaluator .refuse bound) f .undefined args

end StepBinding.Machine
