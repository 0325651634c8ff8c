import StepBinding.Machine.Builtin
import StepBinding.Tree.Walk

/-! Running programs. The rules for expressions, statements and calls are stated one step
at a time over an evaluator for what is nested in them; the evaluator of depth `n + 1`
applies them over the evaluator of depth `n`. Step bindings are refused, since a program
is lowered before it is run, unless the evaluator is asked to run them directly: then the
steps are evaluated in order and each value is stored under the fresh name. -/

namespace StepBinding.Machine

/-- What is done about step bindings. -/
inductive Mode
  | refuse
  | direct
deriving DecidableEq, Repr

/-- What a loop goes over: values that are known, or an array that may still change. -/
inductive Items
  | fixed (vs : List Value)
  | live (array : Nat)

/-- The evaluation of nested parts. -/
structure Evaluator where
  expr : Expr → Nat → Run Value
  stmt : Stmt → Nat → Run Unit
  call : Caller
  /-- The rest of a loop with a test: its parts, the names that every pass has anew, the
  environment of the loop and the one of the next pass. -/
  forLoop : Option Expr → Option Expr → Stmt → List String → Nat → Nat → Run Unit
  /-- The rest of a loop over items from an index on. -/
  forOf : Qualifier → String → Stmt → Nat → Items → Nat → Run Unit

variable (mode : Mode) (r : Evaluator)

/-- The values of expressions, from left to right. -/
def values (env : Nat) : List Expr → Run (List Value)
  | [] => return []
  | e :: es => do
    let v ← r.expr e env
    return v :: (← values env es)

/-- The value of the last expression. -/
def lastValue (env : Nat) : Value → List Expr → Run Value
  | v, [] => return v
  | _, e :: es => do lastValue env (← r.expr e env) es

def fieldValues (env : Nat) : List Property → Fields → Run Fields
  | [], fs => return fs
  | .mk _ key e _ :: ps, fs => do fieldValues env ps (fs.put key (← r.expr e env))

def templateText (env : Nat) : List Expr → List String → Run String
  | e :: es, quasi :: quasis => do
    let text ← textOf (← r.expr e env)
    return text ++ quasi ++ (← templateText env es quasis)
  | _, _ => return ""

/-- Defines the functions that a statement list declares. -/
def hoistFunctions (env : Nat) : List Stmt → Run Unit
  | [] => return ()
  | .function _ name params body :: ss => do
    define env name (← newFunction (.closure { name, params, body := .statements body, env }))
    hoistFunctions env ss
  | _ :: ss => hoistFunctions env ss

/-- Defines names that an environment does not have yet. -/
def hoistNames (env : Nat) : List String → Run Unit
  | [] => return ()
  | name :: names => do
    if (((← get).valuesOf env).get? name).isNone then define env name .undefined
    hoistNames env names

/-- The names that a function defines at its start. -/
def hoisted (ss : List Stmt) : List String :=
  match mode with
  | .refuse => Tree.varNamesOf ss
  | .direct => Tree.varNamesOfBy (fun _ result fresh => [Tree.freshName fresh, result]) ss

/-- Makes ready what a function or a program declares. -/
def hoist (env : Nat) (ss : List Stmt) : Run Unit := do
  hoistNames env (hoisted mode ss)
  hoistFunctions env ss

def declareName (qualifier : Qualifier) (env : Nat) (name : String) (v : Value) : Run Unit :=
  match qualifier with
  | .var => assignName env name v
  | _ => define env name v

def declareAll (qualifier : Qualifier) (env : Nat) : List Declarator → Run Unit
  | [] => return ()
  | .mk _ name (some e) :: ds => do
    declareName qualifier env name (← r.expr e env)
    declareAll qualifier env ds
  | .mk _ name none :: ds => do
    if qualifier ≠ .var then define env name .undefined
    declareAll qualifier env ds

/-- The later steps of a step binding, each stored under its name. -/
def laterSteps (env : Nat) (name : String) : Value → List Expr → Run Value
  | v, [] => return v
  | _, e :: es => do
    let v ← r.expr e env
    assignName env name v
    laterSteps env name v es

/-- All steps of a step binding, the first of which declares its name. -/
def allSteps (qualifier : Qualifier) (env : Nat) (name : String) : List Expr → Run Value
  | [] => do
    declareName qualifier env name .undefined
    return .undefined
  | e :: es => do
    let v ← r.expr e env
    declareName qualifier env name v
    laterSteps r env name v es

def runStmts (env : Nat) : List Stmt → Run Unit
  | [] => return ()
  | s :: ss => do
    r.stmt s env
    runStmts env ss

/-- The body of a branch or a loop. A step binding standing there has an environment of its own. -/
def runBody (env : Nat) (s : Stmt) : Run Unit :=
  match s with
  | .steps .. => do r.stmt s (← newEnv env)
  | s => r.stmt s env

/-- One pass of a loop; whether the loop goes on. -/
def pass (body : Run Unit) : Run Bool := fun m =>
  match body m with
  | .ok () m => .ok true m
  | .error .continued m => .ok true m
  | .error .broke m => .ok false m
  | .error e m => .error e m

/-- The value that a function returns. -/
def returned (body : Run Unit) : Run Value := fun m =>
  match body m with
  | .ok () m => .ok .undefined m
  | .error (.returned v) m => .ok v m
  | .error e m => .error e m

def defineParams (env : Nat) (args : List Value) : Nat → List String → Run Unit
  | _, [] => return ()
  | i, p :: ps => do
    define env p (arg args i)
    defineParams env args (i + 1) ps

def callClosure (c : Closure) (this : Value) (args : List Value) : Run Value := do
  let env ← newEnv c.env
  if !c.isArrow then define env "this" this
  defineParams env args 0 c.params
  match c.body with
  | .expression e => r.expr e env
  | .statements ss =>
    hoist mode env ss
    returned (runStmts r env ss)

/-- Calls a function. -/
def callStep (f : Callable) (this : Value) (args : List Value) : Run Value :=
  match f with
  | .closure c => callClosure mode r c this args
  | .builtin b => builtin b args
  | .arrayMethod array method => arrayMethod r.call array method args
  | .stringMethod s method => stringMethod s method args
  | .toFixed n => do return .string (← known (n.fixed (← intArg (arg args 0))))
  | .toText n => return .string (← known n.text)
  | .callOf f => r.call f (arg args 0) args.tail
  | .applyOf f => do
    match (← get).argumentList (arg args 1) with
    | some list => r.call f (arg args 0) list
    | none => throw .notAList

def callValue (f this : Value) (args : List Value) : Run Value := do
  match f with
  | .function _ f => r.call f this args
  | v => fail (.notFunction (← displayOf v))

/-- A function and the `this` it is called with: the object it is a property of. -/
def callee (env : Nat) : Expr → Run (Value × Value)
  | .member _ o name => do
    let this ← r.expr o env
    return (← readProperty this (.string name), this)
  | .index _ o i => do
    let this ← r.expr o env
    return (← readProperty this (← r.expr i env), this)
  | e => return (← r.expr e env, .undefined)

def construct (f : Value) (args : List Value) : Run Value := do
  match f with
  | .function _ (.builtin b) =>
    if b.isConstructor then builtin b args else fail (.notConstructor (← displayOf f))
  | .function _ (.closure c) =>
    if c.isArrow then fail (.notConstructor (← displayOf f))
    else
      let this ← newObject []
      match ← r.call (.closure c) this args with
      | .object o => return .object o
      | .array a => return .array a
      | _ => return this
  | f => fail (.notConstructor (← displayOf f))

/-- Stores a value; the parts of the target are evaluated here. -/
def assign (env : Nat) (target : Expr) (v : Value) : Run Unit := do
  match target with
  | .identifier _ name => assignName env name v
  | .member _ o name => writeProperty (← r.expr o env) (.string name) v
  | .index _ o i =>
    let object ← r.expr o env
    writeProperty object (← r.expr i env) v
  | _ => fail .badTarget

/-- A function expression with a name knows itself in an environment of its own. -/
def makeFunction (env : Nat) (name : String) (params : List String) (body : List Stmt) :
    Run Value := do
  if name.isEmpty then newFunction (.closure { name, params, body := .statements body, env })
  else
    let own ← newEnv env
    let f ← newFunction (.closure { name, params, body := .statements body, env := own })
    define own name f
    return f

def unaryStep (env : Nat) (op : UnaryOp) (e : Expr) : Run Value := do
  match op, e with
  | .typeof, .identifier _ name =>
    if ← hasName env name then unary .typeof (← readName env name)
    else return .string "undefined"
  | op, e => unary op (← r.expr e env)

def binaryStep (env : Nat) (left : Expr) (op : BinaryOp) (right : Expr) : Run Value := do
  let v ← r.expr left env
  match op with
  | .and => if ← holds v then r.expr right env else return v
  | .or => if ← holds v then return v else r.expr right env
  | .nullish => if v.isNullish then r.expr right env else return v
  | op => binary op v (← r.expr right env)

/-- The value of an expression in an environment. -/
def exprStep (e : Expr) (env : Nat) : Run Value := do
  match e with
  | .number _ text => return .number (← known (Number.ofLiteral text))
  | .string _ s => return .string s
  | .template _ [] _ => throw .noSuchElement
  | .template _ (quasi :: quasis) es => return .string (quasi ++ (← templateText r env es quasis))
  | .boolean _ b => return .boolean b
  | .null _ => return .null
  | .this _ => readName env "this"
  | .identifier _ name => readName env name
  | .paren _ e => r.expr e env
  | .array _ es => newArray (← values r env es)
  | .object _ ps => newObject (← fieldValues r env ps [])
  | .function _ name params body => makeFunction env (name.getD "") params body
  | .arrow _ params body =>
    newFunction (.closure { name := "", params, body := .expression body, env, isArrow := true })
  | .arrowBlock _ params _ body =>
    newFunction (.closure { name := "", params, body := .statements body, env, isArrow := true })
  | .call _ f args =>
    let (f, this) ← callee r env f
    callValue r f this (← values r env args)
  | .new _ f args =>
    let f ← r.expr f env
    construct r f (← values r env args)
  | .member _ o name => readProperty (← r.expr o env) (.string name)
  | .index _ o i =>
    let object ← r.expr o env
    readProperty object (← r.expr i env)
  | .unary _ op e => unaryStep r env op e
  | .update _ op leading target =>
    let old ← numberOf (← r.expr target env)
    let new ← known (match op with
      | .increment => old.add (.int 1)
      | .decrement | .other _ => old.sub (.int 1))
    assign r env target (.number new)
    return .number (if leading then new else old)
  | .binary _ left op right => binaryStep r env left op right
  | .conditional _ test consequent alternate =>
    if ← holds (← r.expr test env) then r.expr consequent env else r.expr alternate env
  | .assign _ target op e =>
    let v ← match op.operator? with
      | none => r.expr e env
      | some op => do
        let current ← r.expr target env
        binary op current (← r.expr e env)
    assign r env target v
    return v
  | .sequence _ es => lastValue r env .undefined es
  | .steps _ _ _ steps _ fresh =>
    match mode with
    | .refuse => fail .notLowered
    | .direct =>
      let _ ← newFunctionId
      allSteps r .let_ (← newEnv env) (Tree.freshName fresh) steps
  | .rejected .. => fail .notLowered
  | .foreign className => fail (.cannotEvaluate className)

/-- The parts of a loop before its first pass, and the names that every pass has anew. -/
def startLoop (env : Nat) : Option Stmt → Run (List String)
  | none => return []
  | some (.declare _ qualifier ds) => do
    declareAll r qualifier env ds
    return if qualifier = .var then [] else ds.map fun | .mk _ name _ => name
  | some (.expr _ e) => do
    let _ ← r.expr e env
    return []
  | some s => do
    r.stmt s env
    return []

/-- Copies names to another environment. -/
def copyNames (source target : Nat) : List String → Run Unit
  | [] => return ()
  | name :: names => do
    define target name ((((← get).valuesOf source).get? name).getD .undefined)
    copyNames source target names

/-- The environment of the next pass: closures keep the names of their own pass. -/
def nextPass (names : List String) (outer inner : Nat) : Run Nat := do
  if names.isEmpty then return inner
  let next ← newEnv outer
  copyNames inner next names
  return next

def forLoopStep (test update : Option Expr) (body : Stmt) (names : List String)
    (outer inner : Nat) : Run Unit := do
  let goesOn ← match test with
    | none => pure true
    | some e => holds (← r.expr e inner)
  if goesOn then
    if ← pass (runBody r inner body) then
      let next ← nextPass names outer inner
      match update with
      | none => r.forLoop test update body names outer next
      | some e =>
        let _ ← r.expr e next
        r.forLoop test update body names outer next

def itemsOf (v : Value) : Run Items := do
  match v with
  | .string s => return .fixed (letters s)
  | .array r => return .live r
  | v => fail (.notIterable (← displayOf v))

def itemAt (items : Items) (i : Nat) : Run (Option Value) :=
  match items with
  | .fixed vs => return vs[i]?
  | .live array => return ((← get).arrayOf array)[i]?

def forOfStep (qualifier : Qualifier) (name : String) (body : Stmt) (env : Nat) (items : Items)
    (i : Nat) : Run Unit := do
  match ← itemAt items i with
  | none => return ()
  | some v =>
    let inner ← match qualifier with
      | .var => do
        assignName env name v
        pure env
      | _ => do
        let inner ← newEnv env
        define inner name v
        pure inner
    if ← pass (runBody r inner body) then r.forOf qualifier name body env items (i + 1)

/-- Runs a statement in an environment. -/
def stmtStep (s : Stmt) (env : Nat) : Run Unit := do
  match s with
  | .expr _ e =>
    let _ ← r.expr e env
    return ()
  | .declare _ qualifier ds => declareAll r qualifier env ds
  | .function .. | .empty _ => return ()
  | .ret _ none => throw (.returned .undefined)
  | .ret _ (some e) => throw (.returned (← r.expr e env))
  | .ifElse _ test consequent alternate =>
    if ← holds (← r.expr test env) then runBody r env consequent
    else match alternate with
      | none => return ()
      | some s => runBody r env s
  | .whileLoop span test body =>
    if ← holds (← r.expr test env) then
      if ← pass (runBody r env body) then r.stmt (.whileLoop span test body) env
  | .forLoop _ init test update body =>
    let inner ← newEnv env
    let names ← startLoop r inner init
    r.forLoop test update body names env inner
  | .forOf _ qualifier name e body =>
    r.forOf qualifier name body env (← itemsOf (← r.expr e env)) 0
  | .block _ ss =>
    let inner ← newEnv env
    hoistFunctions inner ss
    runStmts r inner ss
  | .break_ _ => throw .broke
  | .continue_ _ => throw .continued
  | .throw_ _ e =>
    let v ← r.expr e env
    throw (.thrown v (← displayOf v))
  | .steps _ qualifier _ result steps _ fresh =>
    match mode with
    | .refuse => fail .notLowered
    | .direct =>
      let first : Qualifier := if qualifier = .var then .var else .let_
      let v ← allSteps r first env (Tree.freshName fresh) steps
      declareName qualifier env result v
  | .rejected .. => fail .notLowered
  | .foreign className => fail (.cannotExecute className)

/-- The evaluator for computations nested no deeper than a bound. -/
def evaluator : Nat → Evaluator
  | 0 =>
    { expr := fun _ _ => throw .exhausted
      stmt := fun _ _ => throw .exhausted
      call := fun _ _ _ => throw .exhausted
      forLoop := fun _ _ _ _ _ _ => throw .exhausted
      forOf := fun _ _ _ _ _ _ => throw .exhausted }
  | n + 1 =>
    { expr := fun e env => exprStep mode (evaluator n) e env
      stmt := fun s env => stmtStep mode (evaluator n) s env
      call := fun f this args => callStep mode (evaluator n) f this args
      forLoop := fun test update body names outer inner =>
        forLoopStep (evaluator n) test update body names outer inner
      forOf := fun qualifier name body env items i =>
        forOfStep (evaluator n) qualifier name body env items i }

/-- Runs the statements of a program; the result is the value of the last one that is an
expression. -/
def runTop (env : Nat) : Value → List Stmt → Run Value
  | v, [] => return v
  | _, .expr _ e :: ss => do runTop env (← r.expr e env) ss
  | v, s :: ss => do
    r.stmt s env
    runTop env v ss

end StepBinding.Machine
