import StepBinding.Token

/-! Operators of the scripting language, with their spelling and, for binary ones, how
tightly they bind. A tree built by hand may hold an operator outside the language; it
keeps its spelling and has no binding strength. -/

namespace StepBinding

inductive UnaryOp
  | not
  | negate
  | plus
  | typeof
  | void
  | other (symbol : String)
deriving DecidableEq, Repr, Inhabited

namespace UnaryOp

def symbol : UnaryOp → String
  | not => "!"
  | negate => "-"
  | plus => "+"
  | typeof => "typeof"
  | void => "void"
  | other s => s

def ofSymbol (s : String) : UnaryOp :=
  ([not, negate, plus, typeof, void].find? fun op => op.symbol == s).getD (other s)

def ofKind? : Token.Kind → Option UnaryOp
  | .bang => some not
  | .minus => some negate
  | .plus => some plus
  | .kwTypeof => some typeof
  | .kwVoid => some void
  | _ => none

/-- Operators spelled as words are set off from their operand. -/
def isWord : UnaryOp → Bool
  | typeof | void => true
  | _ => false

end UnaryOp

inductive UpdateOp
  | increment
  | decrement
  | other (symbol : String)
deriving DecidableEq, Repr, Inhabited

namespace UpdateOp

def symbol : UpdateOp → String
  | increment => "++"
  | decrement => "--"
  | other s => s

def ofSymbol (s : String) : UpdateOp :=
  ([increment, decrement].find? fun op => op.symbol == s).getD (other s)

def ofKind? : Token.Kind → Option UpdateOp
  | .plusPlus => some increment
  | .minusMinus => some decrement
  | _ => none

end UpdateOp

inductive BinaryOp
  | or | nullish
  | and
  | equal | notEqual | strictEqual | strictNotEqual
  | less | greater | lessEqual | greaterEqual
  | add | sub
  | mul | div | mod
  | other (symbol : String)
deriving DecidableEq, Repr, Inhabited

namespace BinaryOp

def symbol : BinaryOp → String
  | or => "||" | nullish => "??"
  | and => "&&"
  | equal => "==" | notEqual => "!=" | strictEqual => "===" | strictNotEqual => "!=="
  | less => "<" | greater => ">" | lessEqual => "<=" | greaterEqual => ">="
  | add => "+" | sub => "-"
  | mul => "*" | div => "/" | mod => "%"
  | other s => s

def known : List BinaryOp :=
  [or, nullish, and, equal, notEqual, strictEqual, strictNotEqual, less, greater, lessEqual,
   greaterEqual, add, sub, mul, div, mod]

def ofSymbol (s : String) : BinaryOp := (known.find? fun op => op.symbol == s).getD (other s)

def ofKind? : Token.Kind → Option BinaryOp
  | .or => some or
  | .nullish => some nullish
  | .and => some and
  | .equal => some equal
  | .notEqual => some notEqual
  | .strictEqual => some strictEqual
  | .strictNotEqual => some strictNotEqual
  | .less => some less
  | .greater => some greater
  | .lessEqual => some lessEqual
  | .greaterEqual => some greaterEqual
  | .plus => some add
  | .minus => some sub
  | .star => some mul
  | .slash => some div
  | .percent => some mod
  | _ => none

/-- Higher binds tighter; every operator of the language groups to the left. -/
def precedence : BinaryOp → Nat
  | or | nullish => 3
  | and => 4
  | equal | notEqual | strictEqual | strictNotEqual => 5
  | less | greater | lessEqual | greaterEqual => 6
  | add | sub => 7
  | mul | div | mod => 8
  | other _ => 0

end BinaryOp

/-- Plain assignment, or assignment of the result of a binary operator. -/
inductive AssignOp
  | plain
  | compound (op : BinaryOp)
  | other (symbol : String)
deriving DecidableEq, Repr, Inhabited

namespace AssignOp

def symbol : AssignOp → String
  | plain => "="
  | compound op => op.symbol ++ "="
  | other s => s

/-- The binary operator whose spelling is followed by one more character. -/
def operatorOf (s : String) : BinaryOp := BinaryOp.ofSymbol (String.ofList s.toList.dropLast)

def ofSymbol (s : String) : AssignOp :=
  if s == "=" then plain
  else if s.toList.getLast? == some '=' then compound (operatorOf s)
  else other s

/-- The operator that makes the assigned value of the old and the given one. -/
def operator? : AssignOp → Option BinaryOp
  | plain => none
  | compound op => some op
  | other s => some (operatorOf s)

def ofKind? : Token.Kind → Option AssignOp
  | .assign => some plain
  | .plusAssign => some (compound .add)
  | .minusAssign => some (compound .sub)
  | .starAssign => some (compound .mul)
  | .slashAssign => some (compound .div)
  | .percentAssign => some (compound .mod)
  | _ => none

end AssignOp

end StepBinding
