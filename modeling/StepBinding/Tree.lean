import StepBinding.Construct
import StepBinding.Operator
import StepBinding.Span

/-! The syntax tree of a program. Every node carries the range of the source it was
read from. Besides the plain language there are step bindings, in the form of an
expression and of a declaration, and the places of step bindings that were rejected.
A tree built by hand may hold a node of the wrong class; only its class name is kept. -/

namespace StepBinding

mutual

inductive Expr
  | number (span : Span) (text : String)
  | string (span : Span) (value : String)
  | template (span : Span) (quasis : List String) (exprs : List Expr)
  | boolean (span : Span) (value : Bool)
  | null (span : Span)
  | this (span : Span)
  | identifier (span : Span) (name : String)
  | array (span : Span) (elements : List Expr)
  | object (span : Span) (properties : List Property)
  | function (span : Span) (name : Option String) (params : List String) (body : List Stmt)
  | arrow (span : Span) (params : List String) (body : Expr)
  | arrowBlock (span : Span) (params : List String) (blockSpan : Span) (body : List Stmt)
  | call (span : Span) (callee : Expr) (args : List Expr)
  | new (span : Span) (callee : Expr) (args : List Expr)
  | member (span : Span) (object : Expr) (name : String)
  | index (span : Span) (object : Expr) (index : Expr)
  | unary (span : Span) (op : UnaryOp) (operand : Expr)
  | update (span : Span) (op : UpdateOp) (leading : Bool) (target : Expr)
  | binary (span : Span) (left : Expr) (op : BinaryOp) (right : Expr)
  | conditional (span : Span) (test consequent alternate : Expr)
  | assign (span : Span) (target : Expr) (op : AssignOp) (value : Expr)
  | sequence (span : Span) (exprs : List Expr)
  | paren (span : Span) (inner : Expr)
  /-- `let(_) = s1, s2, ...`; the fresh name is known once the module is resolved. -/
  | steps (span : Span) (qualifier : Qualifier) (binding : String) (steps : List Expr)
      (index : Nat) (fresh : Option String)
  | rejected (span : Span) (form : Form) (index : Nat)
  | foreign (className : String)

inductive Property
  | mk (span : Span) (key : String) (value : Expr) (shorthand : Bool)

inductive Declarator
  | mk (span : Span) (name : String) (init : Option Expr)

inductive Stmt
  | declare (span : Span) (qualifier : Qualifier) (declarators : List Declarator)
  /-- `const($) name = s1, s2, ...;` -/
  | steps (span : Span) (qualifier : Qualifier) (binding : String) (result : String)
      (steps : List Expr) (index : Nat) (fresh : Option String)
  | function (span : Span) (name : String) (params : List String) (body : List Stmt)
  | ret (span : Span) (value : Option Expr)
  | ifElse (span : Span) (test : Expr) (consequent : Stmt) (alternate : Option Stmt)
  | whileLoop (span : Span) (test : Expr) (body : Stmt)
  /-- The initial part is a declaration or an expression standing alone. -/
  | forLoop (span : Span) (init : Option Stmt) (test update : Option Expr) (body : Stmt)
  | forOf (span : Span) (qualifier : Qualifier) (name : String) (iterable : Expr) (body : Stmt)
  | break_ (span : Span)
  | continue_ (span : Span)
  | throw_ (span : Span) (value : Expr)
  | block (span : Span) (body : List Stmt)
  | expr (span : Span) (expr : Expr)
  | empty (span : Span)
  | rejected (span : Span) (form : Form) (index : Nat)
  | foreign (className : String)

end

deriving instance Inhabited for Expr
deriving instance Inhabited for Stmt

namespace Expr

/-- The range an expression was read from. -/
def span : Expr → Span
  | number s _ | string s _ | template s _ _ | boolean s _ | null s | this s | identifier s _
  | array s _ | object s _ | function s _ _ _ | arrow s _ _ | arrowBlock s _ _ _ | call s _ _
  | new s _ _ | member s _ _ | index s _ _ | unary s _ _ | update s _ _ _ | binary s _ _ _
  | conditional s _ _ _ | assign s _ _ _ | sequence s _ | paren s _ | steps s _ _ _ _ _
  | rejected s _ _ => s
  | foreign _ => default

/-- What can be assigned to. -/
def isTarget : Expr → Bool
  | identifier .. | member .. | index .. => true
  | _ => false

end Expr

namespace Stmt

/-- The range a statement was read from. -/
def span : Stmt → Span
  | declare s _ _ | steps s _ _ _ _ _ _ | function s _ _ _ | ret s _ | ifElse s _ _ _
  | whileLoop s _ _ | forLoop s _ _ _ _ | forOf s _ _ _ _ | break_ s | continue_ s | throw_ s _
  | block s _ | expr s _ | empty s | rejected s _ _ => s
  | foreign _ => default

end Stmt

/-- The name that a step binding is lowered with. One that was never resolved has none, and shows
it. -/
abbrev Tree.freshName (fresh : Option String) : String := fresh.getD "None"

/-- A whole program. -/
structure Module where
  span : Span
  body : List Stmt

end StepBinding
