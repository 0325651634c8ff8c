import StepBinding.Number
import StepBinding.Tree

/-! Values of running programs. Arrays and objects are references into the stores of a
machine. A function carries a number that tells it apart from every other function, and
what it does: the code of the program with the environment it was made in, a function of
the library, or a method together with the value it was taken from. -/

namespace StepBinding

/-- What a function of the program runs. -/
inductive Body
  | statements (body : List Stmt)
  | expression (body : Expr)

/-- A function of the program; an arrow has no `this` of its own. -/
structure Closure where
  name : String
  params : List String
  body : Body
  env : Nat
  isArrow : Bool := false

/-- Functions that are there from the start. -/
inductive Builtin
  | log
  | max | min | floor | ceil | round | abs | sqrt | pow
  | stringify | keys | isArray
  | string | number | boolean | isNaN | parseInt
  | error | typeError | rangeError
deriving DecidableEq, Repr

namespace Builtin

def all : List Builtin :=
  [log, max, min, floor, ceil, round, abs, sqrt, pow, stringify, keys, isArray, string, number,
   boolean, isNaN, parseInt, error, typeError, rangeError]

def name : Builtin → String
  | log => "log"
  | max => "max"
  | min => "min"
  | floor => "floor"
  | ceil => "ceil"
  | round => "round"
  | abs => "abs"
  | sqrt => "sqrt"
  | pow => "pow"
  | stringify => "stringify"
  | keys => "keys"
  | isArray => "isArray"
  | string => "String"
  | number => "Number"
  | boolean => "Boolean"
  | isNaN => "isNaN"
  | parseInt => "parseInt"
  | error => "Error"
  | typeError => "TypeError"
  | rangeError => "RangeError"

/-- Functions that `new` accepts. -/
def isConstructor : Builtin → Bool
  | error | typeError | rangeError => true
  | _ => false

end Builtin

inductive ArrayMethod
  | map | filter | forEach | reduce | find | findIndex | some | every | sort
  | push | pop | shift | unshift | indexOf | includes | join | slice | concat | reverse
deriving DecidableEq, Repr

namespace ArrayMethod

def name : ArrayMethod → String
  | map => "map"
  | filter => "filter"
  | forEach => "forEach"
  | reduce => "reduce"
  | find => "find"
  | findIndex => "findIndex"
  | some => "some"
  | every => "every"
  | sort => "sort"
  | push => "push"
  | pop => "pop"
  | shift => "shift"
  | unshift => "unshift"
  | indexOf => "indexOf"
  | includes => "includes"
  | join => "join"
  | slice => "slice"
  | concat => "concat"
  | reverse => "reverse"

def all : List ArrayMethod :=
  [map, filter, forEach, reduce, find, findIndex, some, every, sort, push, pop, shift, unshift,
   indexOf, includes, join, slice, concat, reverse]

def ofName? (s : String) : Option ArrayMethod := all.find? fun m => m.name == s

end ArrayMethod

inductive StringMethod
  | toUpperCase | toLowerCase | trim | split | slice | includes | indexOf | startsWith | endsWith
  | charAt | repeated
deriving DecidableEq, Repr

namespace StringMethod

def name : StringMethod → String
  | toUpperCase => "toUpperCase"
  | toLowerCase => "toLowerCase"
  | trim => "trim"
  | split => "split"
  | slice => "slice"
  | includes => "includes"
  | indexOf => "indexOf"
  | startsWith => "startsWith"
  | endsWith => "endsWith"
  | charAt => "charAt"
  | repeated => "repeat"

def all : List StringMethod :=
  [toUpperCase, toLowerCase, trim, split, slice, includes, indexOf, startsWith, endsWith, charAt,
   repeated]

def ofName? (s : String) : Option StringMethod := all.find? fun m => m.name == s

end StringMethod

/-- What a function does when it is called. -/
inductive Callable
  | closure (c : Closure)
  | builtin (b : Builtin)
  | arrayMethod (array : Nat) (m : ArrayMethod)
  | stringMethod (receiver : String) (m : StringMethod)
  | toFixed (receiver : Number)
  | toText (receiver : Number)
  /-- Calls a function with the given `this`. -/
  | callOf (f : Callable)
  /-- Calls a function with the given `this` and an array of arguments. -/
  | applyOf (f : Callable)

namespace Callable

def name : Callable → String
  | closure c => c.name
  | builtin b => b.name
  | arrayMethod _ m => m.name
  | stringMethod _ m => m.name
  | toFixed _ => "toFixed"
  | toText _ => "toString"
  | callOf _ => "call"
  | applyOf _ => "apply"

end Callable

inductive Value
  | undefined
  | null
  | boolean (b : Bool)
  | number (n : Number)
  | string (s : String)
  | array (ref : Nat)
  | object (ref : Nat)
  | function (id : Nat) (f : Callable)
deriving Inhabited

namespace Value

def int (n : Int) : Value := number (.int n)

/-- What `typeof` answers. -/
def typeName : Value → String
  | undefined => "undefined"
  | null | array _ | object _ => "object"
  | boolean _ => "boolean"
  | number _ => "number"
  | string _ => "string"
  | function _ _ => "function"

def isNullish : Value → Bool
  | undefined | null => true
  | _ => false

/-- Whether two values are the same one. Numbers are compared by value. -/
def same : Value → Value → Bool
  | undefined, undefined | null, null => true
  | boolean a, boolean b => a == b
  | number a, number b => Number.equal a b
  | string a, string b => a == b
  | array a, array b => a == b
  | object a, object b => a == b
  | function a _, function b _ => a == b
  | _, _ => false

/-- Whether a condition holds. There is no answer for an integer beyond the range of doubles. -/
def truthy : Value → Except Number.Fault Bool
  | undefined | null => .ok false
  | boolean b => .ok b
  | number n => if n.isZero then .ok false else return !(← n.isNaN)
  | string s => .ok (s != "")
  | _ => .ok true

end Value

/-- Named values in the order in which the names were added. -/
abbrev Fields := List (String × Value)

namespace Fields

def get? (fs : Fields) (name : String) : Option Value := fs.lookup name

/-- Sets the value of a name; a new name comes last. -/
def put : Fields → String → Value → Fields
  | [], name, v => [(name, v)]
  | (n, w) :: fs, name, v => if n = name then (n, v) :: fs else (n, w) :: put fs name v

end Fields

end StepBinding
