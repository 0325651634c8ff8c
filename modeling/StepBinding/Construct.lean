import StepBinding.Token

/-! Step bindings in general: the words that introduce them and their two forms. The
declaration `const($) total = 10, $ + 2;` names the last step's value, the expression
`let(_) = 10, _ + 2` is that value. -/

namespace StepBinding

/-- How a variable or the result of a step binding is declared. A tree built by hand may hold a word
of its own, which declares like `let`. -/
inductive Qualifier
  | var
  | let_
  | const
  | other (word : String)
deriving DecidableEq, Repr, Inhabited

namespace Qualifier

def word : Qualifier → String
  | var => "var"
  | let_ => "let"
  | const => "const"
  | other s => s

def ofWord (s : String) : Qualifier :=
  ([var, let_, const].find? fun q => q.word == s).getD (other s)

def ofKind? : Token.Kind → Option Qualifier
  | .kwVar => some var
  | .kwLet => some let_
  | .kwConst => some const
  | _ => none

end Qualifier

/-- The two forms of a step binding. -/
inductive Form
  | declaration
  | expression
deriving DecidableEq, Repr, Inhabited

namespace Form

def word : Form → String
  | declaration => "declaration"
  | expression => "expression"

end Form

end StepBinding
