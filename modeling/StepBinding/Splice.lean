import StepBinding.Construct.Log
import StepBinding.Lower

/-! Step bindings are lowered and put in their places in one traversal of a module. The steps of a
step binding are plain code before it is lowered itself, and its record moves on when it is in its
place. Of an if statement the alternate comes first. -/

namespace StepBinding.Splice

open Construct

/-- Why a step binding is not put in its place. -/
inductive Problem
  /-- There is no first step. -/
  | noStep (index : Nat)
  | refused (why : Refusal)
deriving DecidableEq, Repr

namespace Problem

def message : Problem → String
  | noStep _ => "list index out of range"
  | refused why => why.message

end Problem

/-- A traversal that edits the log and may come to an end on the way. -/
abbrev Splicing := StateT Log (Except Problem)

/-- Records that a step binding is lowered and in its place. -/
def done (index : Nat) : Splicing Unit := fun log =>
  let lowered := log.advance index .lowered
  let spliced := lowered.log.advance index .spliced
  match lowered.refusal, spliced.refusal with
  | none, none => .ok ((), spliced.log)
  | some why, _ | none, some why => .error (.refused why)

/-- Lowers a step binding whose steps are plain code already. -/
def finish {α : Type} (index : Nat) (steps : List Expr) (lowered : List Expr → α) : Splicing α :=
  if steps.isEmpty then throw (.noStep index)
  else do
    done index
    return lowered steps

variable (target : Target)

mutual

def expr : Expr → Splicing Expr
  | .template span quasis es => do return .template span quasis (← exprs es)
  | .array span es => do return .array span (← exprs es)
  | .object span ps => do return .object span (← properties ps)
  | .function span name params body => do return .function span name params (← stmts body)
  | .arrow span params body => do return .arrow span params (← expr body)
  | .arrowBlock span params blockSpan body => do
    return .arrowBlock span params blockSpan (← stmts body)
  | .call span callee args => do return .call span (← expr callee) (← exprs args)
  | .new span callee args => do return .new span (← expr callee) (← exprs args)
  | .member span object name => do return .member span (← expr object) name
  | .index span object i => do return .index span (← expr object) (← expr i)
  | .unary span op operand => do return .unary span op (← expr operand)
  | .update span op leading e => do return .update span op leading (← expr e)
  | .binary span left op right => do return .binary span (← expr left) op (← expr right)
  | .conditional span test consequent alternate => do
    return .conditional span (← expr test) (← expr consequent) (← expr alternate)
  | .assign span e op v => do return .assign span (← expr e) op (← expr v)
  | .sequence span es => do return .sequence span (← exprs es)
  | .paren span inner => do return .paren span (← expr inner)
  | .steps span _ _ steps index fresh => do
    finish index (← exprs steps) (Lower.expression target span (Tree.freshName fresh))
  | .rejected span _ _ => return .identifier span "undefined"
  | e => return e

def exprs : List Expr → Splicing (List Expr)
  | [] => return []
  | e :: es => do return (← expr e) :: (← exprs es)

def properties : List Property → Splicing (List Property)
  | [] => return []
  | .mk span key e shorthand :: ps => do
    return .mk span key (← expr e) shorthand :: (← properties ps)

def declarators : List Declarator → Splicing (List Declarator)
  | [] => return []
  | .mk span name none :: ds => do return .mk span name none :: (← declarators ds)
  | .mk span name (some e) :: ds => do
    return .mk span name (some (← expr e)) :: (← declarators ds)

/-- What stands in a statement list for a statement. -/
def stmt : Stmt → Splicing (List Stmt)
  | .declare span qualifier ds => do return [.declare span qualifier (← declarators ds)]
  | .steps span qualifier _ result steps index fresh => do
    finish index (← exprs steps)
      (Lower.declaration target span qualifier result (Tree.freshName fresh))
  | .function span name params body => do return [.function span name params (← stmts body)]
  | .ret span (some e) => do return [.ret span (some (← expr e))]
  | .ifElse span test consequent none => do
    return [.ifElse span (← expr test) (Lower.slot consequent.span (← stmt consequent)) none]
  | .ifElse span test consequent (some alternate) => do
    let alternate := Lower.slot alternate.span (← stmt alternate)
    return [.ifElse span (← expr test) (Lower.slot consequent.span (← stmt consequent))
      (some alternate)]
  | .whileLoop span test body => do
    return [.whileLoop span (← expr test) (Lower.slot body.span (← stmt body))]
  | .forLoop span init test update body => do
    return [.forLoop span (← start init) (← option test) (← option update)
      (Lower.slot body.span (← stmt body))]
  | .forOf span qualifier name iterable body => do
    return [.forOf span qualifier name (← expr iterable)
      (Lower.slot body.span (← stmt body))]
  | .throw_ span e => do return [.throw_ span (← expr e)]
  | .block span body => do return [.block span (← stmts body)]
  | .expr _ (.rejected ..) => return []
  | .expr span e => do return [.expr span (← expr e)]
  | .rejected .. => return []
  | s => return [s]

/-- The start of a loop. -/
def start : Option Stmt → Splicing (Option Stmt)
  | some (.declare span qualifier ds) => do
    return some (.declare span qualifier (← declarators ds))
  | some (.expr span e) => do return some (.expr span (← expr e))
  | other => return other

def option : Option Expr → Splicing (Option Expr)
  | none => return none
  | some e => do return some (← expr e)

def stmts : List Stmt → Splicing (List Stmt)
  | [] => return []
  | s :: ss => do return (← stmt s) ++ (← stmts ss)

end

/-- A module without step bindings, and the log in which they are in their places. -/
def module (m : Module) (log : Log) : Except Problem (Module × Log) := do
  let (body, log) ← stmts target m.body log
  return ({ m with body }, log)

end StepBinding.Splice
