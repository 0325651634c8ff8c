import StepBinding.Tree

/-! Lowering of step bindings to the plain language. With steps `s1, s2, s3` and the
fresh name `B`, the declaration `const($) x = s1, s2, s3;` becomes the statements
`let B = s1;` and `const x = (B = s2, B = s3);`, and the expression form becomes the
call of a function that declares `B` and returns the last value. The older target
declares with `var` and calls an ordinary function with the current `this`. What was
rejected disappears as a statement and is `undefined` as an expression. -/

namespace StepBinding

/-- The language level of lowered code. -/
inductive Target
  | es2015
  | es5
deriving DecidableEq, Repr, Inhabited

namespace Target

def name : Target → String
  | es2015 => "es2015"
  | es5 => "es5"

def all : List Target := [es2015, es5]

def ofName? (s : String) : Option Target := all.find? fun t => t.name == s

end Target

namespace Lower

/-- The declaration of the fresh name with the first step as its value. -/
def opening (span : Span) (qualifier : Qualifier) (fresh : String) (steps : List Expr) : Stmt :=
  .declare span qualifier [.mk span fresh steps.head?]

/-- The value after all steps: the fresh name, or the later steps assigned to it in turn. -/
def value (span : Span) (fresh : String) (later : List Expr) : Expr :=
  if later.isEmpty then .identifier span fresh
  else .paren span (.sequence span
    (later.map fun step => .assign span (.identifier span fresh) .plain step))

/-- The qualifier of the fresh name of a declaration. -/
def freshQualifier (target : Target) (qualifier : Qualifier) : Qualifier :=
  if qualifier = .var || target = .es5 then .var else .let_

/-- The two statements of a declaration whose steps are lowered already. -/
def declaration (target : Target) (span : Span) (qualifier : Qualifier) (result fresh : String)
    (steps : List Expr) : List Stmt :=
  [opening span (freshQualifier target qualifier) fresh steps,
   .declare span qualifier [.mk span result (some (value span fresh steps.tail))]]

/-- The expression for an expression form whose steps are lowered already. -/
def expression (target : Target) (span : Span) (fresh : String) (steps : List Expr) : Expr :=
  let ending := Stmt.ret span (some (value span fresh steps.tail))
  match target with
  | .es2015 =>
    .call span (.paren span (.arrowBlock span [] span [opening span .let_ fresh steps, ending])) []
  | .es5 =>
    .call span
      (.member span (.paren span (.function span none [] [opening span .var fresh steps, ending]))
        "call")
      [.this span]

/-- The place of exactly one statement: nothing leaves an empty statement, several a block. -/
def slot (span : Span) : List Stmt → Stmt
  | [] => .empty span
  | [s] => s
  | ss => .block span ss

variable (target : Target)

mutual

def expr : Expr → Expr
  | .template span quasis es => .template span quasis (exprs es)
  | .array span es => .array span (exprs es)
  | .object span ps => .object span (properties ps)
  | .function span name params body => .function span name params (stmts body)
  | .arrow span params body => .arrow span params (expr body)
  | .arrowBlock span params blockSpan body => .arrowBlock span params blockSpan (stmts body)
  | .call span callee args => .call span (expr callee) (exprs args)
  | .new span callee args => .new span (expr callee) (exprs args)
  | .member span object name => .member span (expr object) name
  | .index span object i => .index span (expr object) (expr i)
  | .unary span op operand => .unary span op (expr operand)
  | .update span op leading e => .update span op leading (expr e)
  | .binary span left op right => .binary span (expr left) op (expr right)
  | .conditional span test consequent alternate =>
    .conditional span (expr test) (expr consequent) (expr alternate)
  | .assign span e op v => .assign span (expr e) op (expr v)
  | .sequence span es => .sequence span (exprs es)
  | .paren span inner => .paren span (expr inner)
  | .steps span _ _ steps _ fresh =>
    expression target span (Tree.freshName fresh) (exprs steps)
  | .rejected span _ _ => .identifier span "undefined"
  | e => e

def exprs : List Expr → List Expr
  | [] => []
  | e :: es => expr e :: exprs es

def properties : List Property → List Property
  | [] => []
  | .mk span key e shorthand :: ps => .mk span key (expr e) shorthand :: properties ps

def declarators : List Declarator → List Declarator
  | [] => []
  | .mk span name none :: ds => .mk span name none :: declarators ds
  | .mk span name (some e) :: ds => .mk span name (some (expr e)) :: declarators ds

/-- What stands in a statement list for a statement. -/
def stmt : Stmt → List Stmt
  | .declare span qualifier ds => [.declare span qualifier (declarators ds)]
  | .steps span qualifier _ result steps _ fresh =>
    declaration target span qualifier result (Tree.freshName fresh) (exprs steps)
  | .function span name params body => [.function span name params (stmts body)]
  | .ret span (some e) => [.ret span (some (expr e))]
  | .ifElse span test consequent none =>
    [.ifElse span (expr test) (slot consequent.span (stmt consequent)) none]
  | .ifElse span test consequent (some alternate) =>
    [.ifElse span (expr test) (slot consequent.span (stmt consequent))
      (some (slot alternate.span (stmt alternate)))]
  | .whileLoop span test body => [.whileLoop span (expr test) (slot body.span (stmt body))]
  | .forLoop span init test update body =>
    let init := match init with
      | some (.declare s qualifier ds) => some (.declare s qualifier (declarators ds))
      | some (.expr s e) => some (.expr s (expr e))
      | other => other
    let test := match test with
      | none => none
      | some e => some (expr e)
    let update := match update with
      | none => none
      | some e => some (expr e)
    [.forLoop span init test update (slot body.span (stmt body))]
  | .forOf span qualifier name iterable body =>
    [.forOf span qualifier name (expr iterable) (slot body.span (stmt body))]
  | .throw_ span e => [.throw_ span (expr e)]
  | .block span body => [.block span (stmts body)]
  | .expr _ (.rejected ..) => []
  | .expr span e => [.expr span (expr e)]
  | .rejected .. => []
  | s => [s]

def stmts : List Stmt → List Stmt
  | [] => []
  | s :: ss => stmt s ++ stmts ss

end

/-- A module without step bindings. -/
def module (m : Module) : Module := { m with body := stmts target m.body }

/-- The statements for one step binding that stands alone; an expression becomes a statement. Without
steps there is nothing to start from. -/
def alone? : Stmt → Option (List Stmt)
  | .steps span qualifier _ result steps _ fresh =>
    if steps.isEmpty then none
    else some (declaration target span qualifier result (Tree.freshName fresh) steps)
  | .expr span (.steps _ _ _ steps _ fresh) =>
    if steps.isEmpty then none
    else some [.expr span (expression target span (Tree.freshName fresh) steps)]
  | _ => none

end Lower

end StepBinding
